import AddressedForms.Proofs.Document.Contents
import AddressedForms.Proofs.Document.FormPlan
import AddressedForms.Proofs.Document.Related
import AddressedForms.Proofs.Form.Twins
set_option autoImplicit false

/-!
The forms of a document, in whatever order they come. Sound sketches have plans that become forms,
so no definition fails; and the forms that are made of the same sketches in another order, later on,
are the twins of the first ones.
-/

namespace AddressedForms

namespace FormSketch

/-- A sketch with a module if it is simple, as many parts as its kind takes, and labels that go with
them. -/
structure Fit (f : FormSketch) : Prop where
  module : f.kind = .simple → f.module.isSome
  parts : countFits f.kind f.parts.length
  labels : ∃ ls : Option Labels, f.labels = ls.map Labels.names ∧
    ∀ l, ls = some l → (f.kind = .limit ∨ f.kind = .colimit) ∧ l.names.length = f.parts.length

theorem fit_ofNode {top : Bool} {n : Node} {name : String} {kind : Kind}
    (h : (ofNode top n name kind).sound) : (ofNode top n name kind).Fit := by
  have hfaults : faults n name kind = [] := by
    simp only [ofNode,Bool.and_eq_true,List.isEmpty_iff] at h
    exact h.1
  obtain ⟨hcontent,hlabels⟩ := List.append_eq_nil_iff.mp hfaults
  refine ⟨fun hk => ?_,?_,?_⟩
  · have hk : kind = .simple := hk
    by_contra hnone
    simp [contentFaults,hk,ofNode] at hcontent hnone
    simp [hnone] at hcontent
  · show countFits kind ((partNames n kind).filterMap id).length
    by_contra hcount
    unfold contentFaults at hcontent
    split at hcontent
    · cases hcontent
    · rw [if_pos (by rw [Bool.not_eq_true] at hcount; rw [hcount]; rfl)] at hcontent
      cases hcontent
  · show ∃ ls : Option Labels, (labelNames n).value?.bind id = ls.map Labels.names ∧ _
    unfold labelFaults at hlabels
    generalize labelNames n = a at hlabels
    obtain ⟨v,es⟩ := a
    cases v with
    | none => exact ⟨none,rfl,by simp⟩
    | some v =>
      cases v with
      | none => exact ⟨none,rfl,by simp⟩
      | some names =>
        simp only [ite_eq_left_iff,List.cons_ne_nil,imp_false,not_not] at hlabels
        simp only [labelsFit,Bool.and_eq_true,Bool.or_eq_true,decide_eq_true_eq] at hlabels
        obtain ⟨⟨hk,hlen⟩,hn⟩ := hlabels
        refine ⟨some ⟨names,hn⟩,rfl,fun l hl => ?_⟩
        cases hl
        exact ⟨hk,hlen⟩

end FormSketch

namespace FormSketches

/-- A sketch is that of some node, and is at the top level only if the whole is. -/
theorem of_mem_allOf {top : Bool} {n : Node} {f : FormSketch} (h : f ∈ (allOf top n).sketches) :
    (f.top → top) ∧ ∃ t m name kind, f = .ofNode t m name kind := by
  induction n using Node.rec (motive_2 := fun ns => ∀ f ∈ (allOfParts ns).sketches,
    f.top = false ∧ ∃ t m name kind, f = .ofNode t m name kind) generalizing top f with
  | mk tag attrs children ih =>
    rw [allOf_eq] at h
    generalize FormSketch.header ⟨tag,attrs,children⟩ = a at h
    split at h
    · cases h
    · obtain ⟨header,es⟩ := a
      cases header with
      | none => cases h
      | some header =>
        simp only [sketches_append,List.mem_append,List.mem_singleton,List.not_mem_nil,
          or_false] at h
        rcases h with h | rfl
        · split at h
          · cases h
          · obtain ⟨htop,hnode⟩ := ih f h
            exact ⟨by simp [htop],hnode⟩
        · exact ⟨id,_,_,_,_,rfl⟩
  | nil =>
    rename_i h
    cases h
  | cons n ns ihn ihns =>
    rename_i f h
    rw [allOfParts] at h
    split at h
    · rcases List.mem_append.mp h with h | h
      · obtain ⟨htop,hnode⟩ := ihn h
        exact ⟨by simpa using htop,hnode⟩
      · exact ihns f h
    · exact ihns f h

theorem length_top_le_one (n : Node) :
    ((allOf true n).sketches.filter FormSketch.top).length ≤ 1 := by
  have hparts (ns : List Node) : ∀ f ∈ (allOfParts ns).sketches, f.top = false := by
    induction ns with
    | nil => rintro f ⟨⟩
    | cons n ns ih =>
      rw [allOfParts]
      split
      · intro f hf
        rcases List.mem_append.mp hf with hf | hf
        · simpa using (of_mem_allOf hf).1
        · exact ih f hf
      · exact ih
  rw [allOf_eq]
  split
  · exact Nat.zero_le 1
  · obtain ⟨header,es⟩ := FormSketch.header n
    cases header with
    | none => exact Nat.zero_le 1
    | some header =>
      obtain ⟨name,kind⟩ := header
      have hinner : (if kind = .simple then FormSketches.empty
          else allOfParts n.children).sketches.filter FormSketch.top = [] := by
        rw [List.filter_eq_nil_iff]
        split
        · rintro f ⟨⟩
        · intro f hf
          simp [hparts _ f hf]
      simp only [sketches_append,List.filter_append,hinner,List.filter_nil,List.nil_append]
      exact List.length_filter_le _ _

end FormSketches

theorem PlannedPart.ofName?_congr {s s' : FormSketches}
    (h : ∀ name, name ∈ s.names ↔ name ∈ s'.names) (c : Catalogue) :
    ofName? s c = ofName? s' c := by
  funext name
  have hnone : s.named? name = none ↔ s'.named? name = none := by
    rw [FormSketches.named?_eq_none_iff,FormSketches.named?_eq_none_iff,h]
  unfold ofName?
  cases hs : s.named? name <;> cases hs' : s'.named? name <;> simp_all

namespace FormPlan
variable {g h : FormGraph} {l : LeafScope} {c : Catalogue} {s s' : FormSketches}
  {ps qs : List FormPlan}

theorem ofSketch_eq_some {f : FormSketch} {p : FormPlan}
    (hp : (ofSketch l c s f).value? = some p) : f.sound ∧ ∃ m parts,
      (moduleOf l f.module).value? = some m ∧
      List.Forall₂ (fun name t => PlannedPart.ofName? s c name = some t) f.parts parts ∧
      p = ⟨f.name,f.kind,f.tag,m,parts,f.labels⟩ := by
  rw [ofSketch,Attempt.value?_bind] at hp
  obtain ⟨m,hm,hp⟩ := Option.bind_eq_some_iff.mp hp
  split at hp <;> rename_i hsound hparts
  · exact ⟨hsound,m,_,hm,mapM_eq_some_iff.mp hparts,(Option.some.inj hp).symm⟩
  · cases hp

theorem fit_ofSketch {f : FormSketch} {p : FormPlan} (hf : f.sound → f.Fit)
    (hp : (ofSketch l c s f).value? = some p) : p.Fit := by
  obtain ⟨hsound,m,parts,hm,hparts,rfl⟩ := ofSketch_eq_some hp
  obtain ⟨hmodule,hcount,hlabels⟩ := hf hsound
  rw [hparts.length_eq] at hcount hlabels
  refine ⟨fun hk => ?_,hcount,hlabels⟩
  obtain ⟨n,hn⟩ := Option.isSome_iff_exists.mp (hmodule hk)
  rw [hn,moduleOf,Attempt.value?_bind] at hm
  obtain ⟨x,-,hm⟩ := Option.bind_eq_some_iff.mp hm
  cases hm
  rfl

theorem sift_perm (hp : ps.Perm qs) : (sift ps).Perm (sift qs) := by
  have hnames := hp.map FormPlan.name
  have he : sift qs = qs.filter (isComplete (ps.map FormPlan.name)) :=
    List.filter_congr fun p _ => Bool.eq_iff_iff.mpr
      ⟨fun h => isComplete_of_subset h hnames.symm.subset,
        fun h => isComplete_of_subset h hnames.subset⟩
  rw [he]
  exact hp.filter _

theorem prune_perm (hp : ps.Perm qs) : (prune ps).Perm (prune qs) := by
  have hlen {ps qs : List FormPlan} (hp : ps.Perm qs) :
      (sift qs).length < qs.length ↔ (sift ps).length < ps.length := by
    rw [(sift_perm hp).length_eq,hp.length_eq]
  fun_induction prune ps generalizing qs with
  | case1 ps hlt ih =>
    have hq : prune qs = prune (sift qs) := by rw [prune,if_pos ((hlen hp).mpr hlt)]
    rw [hq]
    exact ih (sift_perm hp)
  | case2 ps hlt =>
    have hq : prune qs = qs := by rw [prune,if_neg (mt (hlen hp).mp hlt)]
    rw [hq]
    exact hp

/-- Plans that all become forms: they need nothing but each other and what has been issued. -/
structure Closed (g : FormGraph) (ps : List FormPlan) : Prop where
  names : (ps.map FormPlan.name).Nodup
  fit : ∀ p ∈ ps, p.Fit
  parts : ∀ p ∈ ps, ∀ t ∈ p.parts, (∃ q ∈ ps, t = .sketched q.name) ∨
    ∃ id, t = .catalogued id ∧ g.contains id

theorem Closed.perm (hc : Closed g ps) (hp : ps.Perm qs) : Closed g qs where
  names := (hp.map _).nodup_iff.mp hc.names
  fit p h := hc.fit p (hp.mem_iff.mpr h)
  parts p h t ht := (hc.parts p (hp.mem_iff.mpr h) t ht).imp_left
    fun ⟨q,hq,he⟩ => ⟨q,hp.mem_iff.mp hq,he⟩

theorem Closed.mono (hc : Closed g ps) (hr : g.Retains h) : Closed h ps where
  names := hc.names
  fit := hc.fit
  parts p hp t ht := (hc.parts p hp t ht).imp_right fun ⟨id,he,hid⟩ => ⟨id,he,hr.contains hid⟩

theorem Closed.extended (hc : Closed g ps) :
    FormExtension.Extended g ps (FormExtension.ofPlans g ps) :=
  FormExtension.extended_ofPlans hc.names fun _ hids p hp =>
    (hc.fit p hp).becomes hids (hc.parts p hp)

theorem Closed.sound_eq (hc : Closed g ps) :
    (FormExtension.ofPlans g ps).sound ps = ps.map FormPlan.name := by
  have hprune : prune ps = ps := by
    refine prune_eq_self fun p hp => ?_
    rw [isComplete,List.all_eq_true]
    intro t ht
    rcases hc.parts p hp t ht with ⟨q,hq,rfl⟩ | ⟨id,rfl,-⟩
    · exact decide_eq_true (List.mem_map_of_mem hq)
    · rfl
  simp [FormExtension.sound,hc.extended.failed,hprune]

def ofSketches (l : LeafScope) (c : Catalogue) (s : FormSketches) : List FormPlan :=
  prune ((s.sketches.map (ofSketch l c s)).filterMap Attempt.value?)

theorem mem_ofSketches {p : FormPlan} (hp : p ∈ ofSketches l c s) :
    ∃ f ∈ s.sketches, (ofSketch l c s f).value? = some p := by
  have hm := (prune_sublist _).subset hp
  rw [List.filterMap_map] at hm
  exact List.mem_filterMap.mp hm

theorem closed_ofSketches (hn : s.names.Nodup) (hf : ∀ f ∈ s.sketches, f.sound → f.Fit)
    (hc : ∀ name id, c.forms.get? name = some id → g.contains id) :
    Closed g (ofSketches l c s) where
  names := by
    refine hn.sublist (((prune_sublist _).map _).trans ?_)
    rw [List.filterMap_map]
    refine map_filterMap_sublist (fun f p hp => ?_) s.sketches
    obtain ⟨-,m,parts,-,-,rfl⟩ := ofSketch_eq_some hp
    rfl
  fit p hp := by
    obtain ⟨f,hmem,hfp⟩ := mem_ofSketches hp
    exact fit_ofSketch (hf f hmem) hfp
  parts p hp t ht := by
    obtain ⟨f,-,hfp⟩ := mem_ofSketches hp
    obtain ⟨-,m,parts,-,hparts,rfl⟩ := ofSketch_eq_some hfp
    obtain ⟨name,-,hname⟩ := exists_of_forall₂_right hparts ht
    have hcomplete := List.all_eq_true.mp (isComplete_of_mem_prune hp) t ht
    unfold PlannedPart.ofName? at hname
    split at hname
    · cases hname
      obtain ⟨q,hq,he⟩ := List.mem_map.mp (of_decide_eq_true hcomplete)
      exact .inl ⟨q,hq,by rw [he]⟩
    · obtain ⟨id,hid,rfl⟩ := Option.map_eq_some_iff.mp hname
      exact .inr ⟨id,rfl,hc name id hid⟩

theorem ofSketch_perm (hp : s.sketches.Perm s'.sketches) : ofSketch l c s = ofSketch l c s' := by
  funext f
  rw [ofSketch,ofSketch,PlannedPart.ofName?_congr fun name => (hp.map _).mem_iff]

theorem ofSketches_perm (hp : s.sketches.Perm s'.sketches) :
    (ofSketches l c s).Perm (ofSketches l c s') := by
  rw [ofSketches,ofSketches,ofSketch_perm hp]
  exact prune_perm ((hp.map _).filterMap _)

end FormPlan
end AddressedForms
