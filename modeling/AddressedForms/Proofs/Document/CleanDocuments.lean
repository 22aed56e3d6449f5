import AddressedForms.Proofs.Document.Assembled
import AddressedForms.Proofs.Document.Honest
set_option autoImplicit false

/-!
Documents that are collected without reports: every form and every denotator in them, however deep,
is there with all that its node says.
-/

namespace AddressedForms

namespace Node

/-- A form in a form: itself, or one that is defined on the spot as one of its parts. -/
inductive HasForm : Node → Node → Prop
  | self {n : Node} (h : n.reference? = none) : HasForm n n
  | part {n c m : Node} (h : n.reference? = none)
    (hk : (n.attr? "type").bind Kind.ofText? ≠ some .simple) (hc : c ∈ n.children)
    (hf : c.isForm) (hm : HasForm c m) : HasForm n m

/-- A denotator in a denotator: itself, or one that is given on the spot as one of its parts. -/
inductive HasDenotator : Node → Node → Prop
  | self {n : Node} (h : n.reference? = none) : HasDenotator n n
  | part {n c m : Node} (h : n.reference? = none) (hc : c ∈ n.children)
    (ht : c.tag = "Denotator") (hm : HasDenotator c m) : HasDenotator n m

theorem HasForm.reference? {n m : Node} (h : n.HasForm m) : m.reference? = none := by
  induction h with
  | self h => exact h
  | part _ _ _ _ _ ih => exact ih

theorem HasForm.inside {root n m : Node} (hn : root.Inside n) (h : n.HasForm m) :
    root.Inside m := by
  induction h with
  | self _ => exact hn
  | part _ _ hc _ _ ih => exact ih (hn.child hc)

theorem HasForm.trans {n m l : Node} (h : n.HasForm m) (hl : m.HasForm l) : n.HasForm l := by
  induction h with
  | self _ => exact hl
  | part hr hk hc hf _ ih => exact .part hr hk hc hf (ih hl)

end Node

namespace FormSketch
variable {n : Node} {name : String} {kind : Kind}

theorem header_eq_some : (header n).value? = some (name,kind) ↔
    n.name? = some name ∧ (n.attr? "type").bind Kind.ofText? = some kind := by
  have hvalue : (header n).value? = n.name?.bind fun name =>
      ((n.attr? "type").bind Kind.ofText?).map fun k => (name,k) := by
    rw [header,Attempt.value?_bind,Node.value?_require]
    refine Option.bind_congr fun name _ => ?_
    rw [Attempt.value?_bind,Node.value?_require,Option.map_bind]
    refine Option.bind_congr fun tag _ => ?_
    rw [Function.comp_apply]
    cases Kind.ofText? tag <;> rfl
  rw [hvalue]
  cases n.name? <;> cases (n.attr? "type").bind Kind.ofText? <;> simp

end FormSketch

namespace FormSketches
variable {n m c : Node} {top : Bool} {f : FormSketch}

theorem subset_allOfParts {ns : List Node} (hc : c ∈ ns) (hf : c.isForm) :
    (allOf false c).sketches ⊆ (allOfParts ns).sketches ∧
      (allOf false c).reports ⊆ (allOfParts ns).reports := by
  induction ns with
  | nil => cases hc
  | cons n ns ih =>
    rw [allOfParts]
    rcases List.mem_cons.mp hc with rfl | hc
    · rw [if_pos hf]
      exact ⟨List.subset_append_left _ _,List.subset_append_left _ _⟩
    · obtain ⟨hsketches,hreports⟩ := ih hc
      split
      · exact ⟨List.Subset.trans hsketches (List.subset_append_right _ _),
          List.Subset.trans hreports (List.subset_append_right _ _)⟩
      · exact ⟨hsketches,hreports⟩

structure Clean (top : Bool) (n : Node) (name : String) (kind : Kind) : Prop where
  named : n.name? = some name
  ofKind : (n.attr? "type").bind Kind.ofText? = some kind
  faultless : FormSketch.faults n name kind = []
  sketches : (allOf top n).sketches =
    (if kind = .simple then [] else (allOfParts n.children).sketches) ++
      [FormSketch.ofNode top n name kind]
  parts : kind ≠ .simple → (allOfParts n.children).reports = []

theorem exists_clean (hr : (allOf top n).reports = []) (hn : n.reference? = none) :
    ∃ name kind, Clean top n name kind := by
  have heq := allOf_eq top n
  have htold := (FormSketch.honest_header n).told trivial
  have hheader (name : String) (kind : Kind) :
      (FormSketch.header n).value? = some (name,kind) ↔ _ := FormSketch.header_eq_some
  rw [hn] at heq
  generalize FormSketch.header n = a at heq htold hheader
  obtain ⟨header,es⟩ := a
  rw [heq] at hr
  cases header with
  | none => exact absurd hr (htold rfl)
  | some header =>
    obtain ⟨name,kind⟩ := header
    obtain ⟨hname,hkind⟩ := (hheader name kind).mp rfl
    obtain ⟨hr,-⟩ := List.append_eq_nil_iff.mp hr
    obtain ⟨hparts,hfaults⟩ := List.append_eq_nil_iff.mp hr
    refine ⟨name,kind,hname,hkind,hfaults,?_,fun hk => ?_⟩
    · rw [heq]
      by_cases hk : kind = .simple <;> simp [hk,empty]
    · rwa [if_neg hk] at hparts

theorem subset_of_hasForm (h : n.HasForm m) (hr : (allOf top n).reports = []) :
    ∃ t, (allOf t m).reports = [] ∧ (allOf t m).sketches ⊆ (allOf top n).sketches := by
  induction h generalizing top with
  | self _ => exact ⟨top,hr,List.Subset.refl _⟩
  | part hn hk hc hf _ ih =>
    obtain ⟨name,kind,h⟩ := exists_clean hr hn
    have hkind : kind ≠ .simple := fun he => hk (he ▸ h.ofKind)
    obtain ⟨hsketches,hreports⟩ := subset_allOfParts hc hf
    rw [h.parts hkind,List.subset_nil] at hreports
    obtain ⟨t,ht,hsub⟩ := ih hreports
    refine ⟨t,ht,List.Subset.trans hsub (List.Subset.trans hsketches ?_)⟩
    rw [h.sketches,if_neg hkind]
    exact List.subset_append_left _ _

theorem exists_sketch (h : n.HasForm m) (hr : (allOf top n).reports = []) :
    ∃ t name kind, Clean t m name kind ∧
      FormSketch.ofNode t m name kind ∈ (allOf top n).sketches := by
  obtain ⟨t,ht,hsub⟩ := subset_of_hasForm h hr
  obtain ⟨name,kind,hm⟩ := exists_clean ht h.reference?
  exact ⟨t,name,kind,hm,hsub (hm.sketches ▸ List.mem_append_right _ (List.mem_singleton_self _))⟩

theorem hasForm_of_mem (hf : f ∈ (allOf top n).sketches) (hr : (allOf top n).reports = []) :
    ∃ t m name kind, n.HasForm m ∧ Clean t m name kind ∧ f = .ofNode t m name kind := by
  induction n using Node.rec (motive_2 := fun ns => f ∈ (allOfParts ns).sketches →
    (allOfParts ns).reports = [] → ∃ c ∈ ns, c.isForm ∧ ∃ t m name kind, c.HasForm m ∧
      Clean t m name kind ∧ f = .ofNode t m name kind) generalizing top with
  | mk tag attrs children ih =>
    cases hn : Node.reference? ⟨tag,attrs,children⟩ with
    | some name =>
      rw [allOf_eq,hn] at hf
      cases hf
    | none =>
      obtain ⟨name,kind,h⟩ := exists_clean hr hn
      rw [h.sketches] at hf
      rcases List.mem_append.mp hf with hf | hf
      · split at hf <;> rename_i hk
        · cases hf
        · obtain ⟨c,hc,hform,t,m,name,k,hm,hclean,rfl⟩ := ih hf (h.parts hk)
          refine ⟨t,m,name,k,.part hn (fun he => hk ?_) hc hform hm,hclean,rfl⟩
          exact Option.some.inj (h.ofKind.symm.trans he)
      · exact ⟨top,_,name,kind,.self hn,h,List.mem_singleton.mp hf⟩
  | nil =>
    rename_i hf _
    cases hf
  | cons n ns ihn ihns =>
    rename_i hf hr
    rw [allOfParts] at hf hr
    split at hf <;> rename_i hform
    · rw [if_pos hform] at hr
      obtain ⟨hrn,hrns⟩ := List.append_eq_nil_iff.mp hr
      rcases List.mem_append.mp hf with hf | hf
      · exact ⟨n,List.mem_cons_self,hform,ihn hf hrn⟩
      · obtain ⟨c,hc,h⟩ := ihns hf hrns
        exact ⟨c,List.mem_cons_of_mem n hc,h⟩
    · rw [if_neg hform] at hr
      obtain ⟨c,hc,h⟩ := ihns hf hr
      exact ⟨c,List.mem_cons_of_mem n hc,h⟩

theorem Clean.partNames {name : String} {kind : Kind} (h : Clean top n name kind) :
    FormSketch.partNames n kind = (FormSketch.ofNode top n name kind).parts.map some := by
  have hsome : ∀ p ∈ FormSketch.partNames n kind, p.isSome := by
    intro p hp
    unfold FormSketch.partNames at hp
    split at hp <;> rename_i hk
    · cases hp
    · obtain ⟨c,hc,rfl⟩ := List.mem_map.mp hp
      obtain ⟨hc,hf⟩ := List.mem_filter.mp hc
      unfold FormSketch.partName?
      cases hr : c.reference? with
      | some target => rfl
      | none =>
        have hreports := (subset_allOfParts hc hf).2
        rw [h.parts hk,List.subset_nil] at hreports
        obtain ⟨part,_,hc⟩ := exists_clean hreports hr
        simp [hc.named]
  show _ = ((FormSketch.partNames n kind).filterMap id).map some
  generalize FormSketch.partNames n kind = ps at hsome
  induction ps with
  | nil => rfl
  | cons p ps ih =>
    obtain ⟨hp,hps⟩ := List.forall_mem_cons.mp hsome
    obtain ⟨k,rfl⟩ := Option.isSome_iff_exists.mp hp
    simpa using ih hps

theorem Clean.sound {name : String} {kind : Kind} (h : Clean top n name kind) :
    (FormSketch.ofNode top n name kind).sound := by
  have hall : (FormSketch.partNames n kind).all Option.isSome := by
    simp [h.partNames]
  simp [FormSketch.ofNode,h.faultless,hall]

theorem Clean.labels {name : String} {kind : Kind} (h : Clean top n name kind) :
    (FormSketch.ofNode top n name kind).labels.map (List.map some) =
      (n.child? "Labels").map fun l => (l.childrenTagged "Label").map Node.name? := by
  have hfaults := (List.append_eq_nil_iff.mp h.faultless).2
  have htold := (FormSketch.honest_labelNames n).told trivial
  show ((FormSketch.labelNames n).value?.bind id).map _ = _
  unfold FormSketch.labelFaults at hfaults
  unfold FormSketch.labelNames at hfaults htold ⊢
  cases hl : n.child? "Labels" with
  | none => rfl
  | some l =>
    rw [hl] at hfaults htold
    dsimp only at hfaults htold ⊢
    cases hnames : (l.childrenTagged "Label").mapM Node.name? with
    | none =>
      rw [hnames] at hfaults
      cases hfaults
    | some names =>
      have hall := mapM_eq_some_iff.mp hnames
      simp [Attempt.success,map_eq_of_forall₂ hall fun x y hxy => hxy]

end FormSketches

namespace DenotatorSketch

theorem mem_definitions_fresh {n m : Node} {name : String} (h : n.HasDenotator m)
    (hm : m.name? = some name) : (name,⟨m,freshParts m.children⟩) ∈ (fresh n).definitions := by
  have hparts {ns : List Node} {c : Node} (hc : c ∈ ns) (ht : c.tag = "Denotator") :
      (fresh c).definitions ⊆ allDefinitions (freshParts ns) := by
    induction ns with
    | nil => cases hc
    | cons n ns ih =>
      rw [freshParts]
      rcases List.mem_cons.mp hc with rfl | hc
      · rw [if_pos ht]
        exact List.subset_append_left _ _
      · split
        · exact List.Subset.trans (ih hc) (List.subset_append_right _ _)
        · exact ih hc
  induction h with
  | self hn =>
    rw [fresh_eq,hn,hm]
    exact List.mem_cons_self
  | part hn hc ht _ ih =>
    rw [fresh_eq,hn]
    dsimp only
    split
    · exact hparts hc ht (ih hm)
    · exact List.mem_cons_of_mem _ (hparts hc ht (ih hm))

end DenotatorSketch

theorem Contents.ofNode_of_form {n : Node} (h : n.isForm) : ofNode n = ofForm n := if_pos h

namespace Definitions
variable {root : Node} {d : Definitions}

/-- The definitions of a document that is collected without reports. -/
structure Clean (root : Node) (d : Definitions) : Prop where
  tag : root.tag = "Document"
  collected : Contents.Collected [] (.ofNodes root.children) d
  distinct : (Contents.ofNodes root.children).Distinct
  nodes : ∀ n ∈ root.children, (Contents.ofNode n).forms.reports = []

theorem clean_ofRoot (h : (ofRoot root).reports = []) : Clean root (ofRoot root) := by
  have hclash : ¬ Clashes (ofRoot root).reports := by
    rintro ⟨s,name,hm⟩
    rw [h] at hm
    cases hm
  obtain ⟨hd,hc⟩ := (collects_ofRoot root).result.resolve_right fun hn => hclash hn.2
  have hreports := hc.reports
  rw [h,eq_comm,List.append_eq_nil_iff] at hreports
  obtain ⟨hroot,hnodes⟩ := hreports
  have htag : root.tag = "Document" := by
    by_contra hne
    rw [rootFaults,if_neg hne] at hroot
    cases hroot
  rw [hroot] at hc
  rw [sources,if_pos htag] at hc hd hnodes
  exact ⟨htag,hc,hd,fun n hn => List.flatMap_eq_nil_iff.mp hnodes n hn⟩

theorem Clean.form (h : Clean root d) {n : Node} (hn : n ∈ root.children) (hf : n.isForm) :
    (FormSketches.allOf true n).reports = [] ∧
      (FormSketches.allOf true n).sketches ⊆ d.forms.sketches := by
  have hnode := h.nodes n hn
  rw [Contents.ofNode_of_form hf] at hnode
  refine ⟨hnode,fun f hfs => ?_⟩
  rw [h.collected.sketches_forms]
  refine List.mem_flatMap.mpr ⟨n,hn,?_⟩
  rw [Contents.ofNode_of_form hf]
  exact hfs

theorem Clean.exists_form (h : Clean root d) {f : FormSketch} (hf : f ∈ d.forms.sketches) :
    ∃ n ∈ root.children, n.isForm ∧ ∃ t m name kind, n.HasForm m ∧
      FormSketches.Clean t m name kind ∧ f = .ofNode t m name kind := by
  rw [h.collected.sketches_forms] at hf
  obtain ⟨n,hn,hf⟩ := List.mem_flatMap.mp hf
  by_cases hform : n.isForm
  · rw [Contents.ofNode_of_form hform] at hf
    exact ⟨n,hn,hform,FormSketches.hasForm_of_mem hf (h.form hn hform).1⟩
  · unfold Contents.ofNode at hf
    rw [if_neg hform] at hf
    unfold Contents.ofLeaf at hf
    split_ifs at hf <;> first | cases hf | (split at hf <;> cases hf)

end Definitions
end AddressedForms
