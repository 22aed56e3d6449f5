import AddressedForms.Proofs.Document.BuiltDefinitions
import AddressedForms.Proofs.Document.CleanDocuments
set_option autoImplicit false

/-!
The forms of a clean document. All of them are built, and each is what its node says.
-/

namespace AddressedForms

structure Node.DescribesForm (n : Node) (g : FormGraph) (f : Form) : Prop where
  name : n.name? = some f.name
  kind : (n.attr? "type").bind Kind.ofText? = some f.kind
  subForms : f.subForms.map g.name? = FormSketch.partNames n f.kind
  labels : f.labels.map (fun l => l.names.map some) =
    (n.child? "Labels").map fun l => (l.childrenTagged "Label").map Node.name?

theorem Contents.sketches_of_not_form {n : Node} (h : ¬ n.isForm) :
    (ofNode n).forms.sketches = [] := by
  unfold ofNode
  rw [if_neg h]
  unfold ofLeaf
  split_ifs <;> first | rfl | (split <;> rfl)

namespace Definitions
variable {root : Node} {d : Definitions} {v : Vocabulary} {c : Catalogue} {g : FormGraph}

/-- A document that is clean up to its forms. -/
structure CleanForms (root : Node) (d : Definitions) (v : Vocabulary) (c : Catalogue)
    (g : FormGraph) : Prop extends Clean root d where
  drawn : d.Drawn root
  answers : NameSpace.Answers ⟨d,d.denotators,c⟩ root
  leaves : (Leaves.resolve v d).2 = []
  built : (d.built v c g).reports = []
  catalogue : ∀ name id, c.forms.get? name = some id → g.name? id = some name

theorem isSome_ofName?_of_mem {k : String} (hn : k ∈ d.forms.names) :
    (PlannedPart.ofName? d.forms c k).isSome := by
  unfold PlannedPart.ofName?
  split <;> rename_i hnamed
  · rfl
  · exact absurd hn ((FormSketches.named?_eq_none_iff _ _).mp hnamed)

/-- The sketch at the top level of a node gives its form: there is only one, whatever else the node
holds. -/
theorem findSome?_topOf? {b : BuiltForms} {n : Node} {e : FormSketch} {x : String × FormId}
    (he : e ∈ (FormSketches.allOf true n).sketches) (ht : e.top) (hx : b.topOf? e = some x) :
    (FormSketches.allOf true n).sketches.findSome? b.topOf? = some x := by
  obtain ⟨y,hy⟩ : ∃ y, (FormSketches.allOf true n).sketches.findSome? b.topOf? = some y := by
    refine Option.ne_none_iff_exists'.mp fun hnone => ?_
    rw [List.findSome?_eq_none_iff.mp hnone e he] at hx
    cases hx
  obtain ⟨e',he',hy'⟩ := List.exists_of_findSome?_eq_some hy
  have ht' : e'.top := (BuiltForms.topOf?_eq_some.mp hy').1
  have hmem := List.mem_filter.mpr ⟨he,ht⟩
  have hmem' := List.mem_filter.mpr ⟨he',ht'⟩
  obtain ⟨_,hone⟩ := List.length_eq_one_iff.mp
    (Nat.le_antisymm (FormSketches.length_top_le_one n) (List.length_pos_of_mem hmem))
  rw [hone,List.mem_singleton] at hmem hmem'
  rw [hmem',← hmem,hx] at hy'
  exact hy.trans hy'.symm

variable (h : CleanForms root d v c g)
include h

theorem CleanForms.nodup : d.forms.names.Nodup := by
  rw [h.collected.names_forms]
  exact h.distinct .form

theorem CleanForms.contained (name : String) (id : FormId)
    (hid : c.forms.get? name = some id) : g.contains id :=
  FormGraph.contains_iff_name?.mpr ⟨name,h.catalogue name id hid⟩

theorem CleanForms.isSome_of_reference {p : Node} {k : String} (hin : root.Inside p)
    (hp : p.isForm) (hr : p.reference? = some k) : (PlannedPart.ofName? d.forms c k).isSome := by
  have hsymbol : Symbol.ofTag? p.tag = some .form := by
    simp only [Node.isForm,Bool.or_eq_true,decide_eq_true_eq] at hp
    rw [Symbol.ofTag?,if_pos hp]
  have href : (.form,k) ∈ root.references := by
    refine hin.references ?_
    rw [Node.references_eq]
    exact List.mem_append_left _ (by simp [Node.ownReferences,hr,hsymbol])
  rcases (Bool.or_eq_true _ _).mp (h.answers _ href) with hsome | hcat
  · refine isSome_ofName?_of_mem ?_
    by_contra hn
    rw [(FormSketches.named?_eq_none_iff _ _).mpr hn] at hsome
    cases hsome
  · obtain ⟨id,hid⟩ := Table.exists_of_contains hcat
    unfold PlannedPart.ofName?
    split
    · rfl
    · rw [hid]
      rfl

theorem CleanForms.isSome_ofName? {f : FormSketch} (hf : f ∈ d.forms.sketches) {k : String}
    (hk : k ∈ f.parts) : (PlannedPart.ofName? d.forms c k).isSome := by
  obtain ⟨n,hn,hform,t,m,name,kind,hm,hclean,rfl⟩ := h.toClean.exists_form hf
  have hpart : some k ∈ FormSketch.partNames m kind :=
    hclean.partNames ▸ List.mem_map_of_mem hk
  unfold FormSketch.partNames at hpart
  split at hpart <;> rename_i hkind
  · cases hpart
  · obtain ⟨p,hp,hpk⟩ := List.mem_map.mp hpart
    obtain ⟨hp,hpf⟩ := List.mem_filter.mp hp
    unfold FormSketch.partName? at hpk
    cases hr : p.reference? with
    | some target =>
      rw [hr] at hpk
      cases hpk
      exact h.isSome_of_reference ((hm.inside (.child .root hn)).child hp) hpf hr
    | none =>
      rw [hr] at hpk
      have hinner : n.HasForm p := by
        refine hm.trans (.part hm.reference? (fun he => hkind ?_) hp hpf (.self hr))
        exact Option.some.inj (hclean.ofKind.symm.trans he)
      obtain ⟨hreports,hsub⟩ := h.toClean.form hn hform
      obtain ⟨u,key,j,hp,hmem⟩ := FormSketches.exists_sketch hinner hreports
      cases hp.named.symm.trans hpk
      exact isSome_ofName?_of_mem (List.mem_map_of_mem (hsub hmem))

theorem CleanForms.exists_plan {f : FormSketch} (hf : f ∈ d.forms.sketches) :
    ∃ p, (FormPlan.ofSketch (d.scope v) c d.forms f).value? = some p := by
  obtain ⟨n,hn,hform,t,m,name,kind,hm,hclean,rfl⟩ := h.toClean.exists_form hf
  have hplanned : (FormPlan.ofSketch (d.scope v) c d.forms (.ofNode t m name kind)).Honest True :=
    honest_planned h.drawn v c hf fun _ =>
      ⟨h.answers,h.leaves,hclean.sound,fun k hk => h.isSome_ofName? hf hk⟩
  refine Option.ne_none_iff_exists'.mp fun hnone => hplanned.told trivial hnone ?_
  have hreports := h.built
  rw [Definitions.built,BuiltForms.reports_eq,List.append_eq_nil_iff,List.flatMap_map] at hreports
  exact List.flatMap_eq_nil_iff.mp hreports.1 _ hf

theorem CleanForms.mem_plans {f : FormSketch} (hf : f ∈ d.forms.sketches) {p : FormPlan}
    (hp : (FormPlan.ofSketch (d.scope v) c d.forms f).value? = some p) : p ∈ d.plans v c := by
  unfold plans FormPlan.ofSketches
  have hall {f : FormSketch} {p : FormPlan} (hf : f ∈ d.forms.sketches)
      (hp : (FormPlan.ofSketch (d.scope v) c d.forms f).value? = some p) :
      p ∈ (d.forms.sketches.map (FormPlan.ofSketch (d.scope v) c d.forms)).filterMap
        Attempt.value? :=
    List.mem_filterMap.mpr ⟨_,List.mem_map_of_mem hf,hp⟩
  rw [FormPlan.prune_eq_self]
  · exact hall hf hp
  · intro q hq
    rw [List.filterMap_map] at hq
    obtain ⟨e,he,hq⟩ := List.mem_filterMap.mp hq
    obtain ⟨-,m,parts,-,hparts,rfl⟩ := FormPlan.ofSketch_eq_some hq
    refine List.all_eq_true.mpr fun t ht => ?_
    obtain ⟨k,-,hk⟩ := exists_of_forall₂_right hparts ht
    unfold PlannedPart.ofName? at hk
    split at hk
    · rename_i e' hnamed
      cases hk
      have hmem : e' ∈ d.forms.sketches := List.mem_of_find?_eq_some hnamed
      have hname : e'.name = k := by simpa using List.find?_some hnamed
      obtain ⟨u,hu⟩ := h.exists_plan hmem
      obtain ⟨-,_,_,-,-,rfl⟩ := FormPlan.ofSketch_eq_some hu
      exact decide_eq_true (List.mem_map.mpr ⟨_,hall hmem hu,hname⟩)
    · obtain ⟨id,-,rfl⟩ := Option.map_eq_some_iff.mp hk
      rfl

theorem CleanForms.name?_of_catalogued {k : String} {id : FormId}
    (hid : c.forms.get? k = some id) : (d.built v c g).graph.name? id = some k := by
  have hold := (extended h.drawn h.nodup h.contained (v := v)).old id (h.contained k id hid)
  show Option.map Slot.name ((d.extension v c g).graph.slot? id) = some k
  rw [hold]
  exact h.catalogue k id hid

theorem CleanForms.name?_of_built {k : String} {id : FormId}
    (hid : (d.built v c g).table.get? k = some (.value id)) :
    (d.built v c g).graph.name? id = some k := by
  obtain ⟨p,-,rfl,-,f,hf,hb⟩ := Definitions.exists_form h.drawn h.nodup h.contained hid
  rw [FormGraph.name?_of_get? hf,hb.name]

theorem CleanForms.name?_of_form? {k : String} {id : FormId}
    (hid : (d.surroundings v c g).form? k = some id) :
    (d.built v c g).graph.name? id = some k := by
  rcases Resolution.of_value?_lookup hid with hbuilt | ⟨-,hcat⟩
  · exact h.name?_of_built hbuilt
  · exact h.name?_of_catalogued hcat

theorem CleanForms.name?_of_part {p : FormPlan} (hp : p ∈ d.plans v c) {t : PlannedPart}
    (ht : t ∈ p.parts) {k : String} (hk : PlannedPart.ofName? d.forms c k = some t) {id : FormId}
    (hid : t.id? (d.extension v c g).ids = some id) :
    (d.built v c g).graph.name? id = some k := by
  unfold PlannedPart.ofName? at hk
  split at hk
  · cases hk
    have hclosed : FormPlan.Closed g (d.plans v c) := closed_plans h.drawn h.nodup h.contained
    obtain ⟨q,hq,hname⟩ | ⟨_,hne,-⟩ := hclosed.parts p hp _ ht
    · cases hname
      exact h.name?_of_built ((get?_built h.drawn h.nodup h.contained).mpr ⟨q,hq,rfl,hid⟩)
    · cases hne
  · obtain ⟨_,hcat,rfl⟩ := Option.map_eq_some_iff.mp hk
    cases hid
    exact h.name?_of_catalogued hcat

theorem CleanForms.exists_described {t : Bool} {m : Node} {name : String} {kind : Kind}
    (hclean : FormSketches.Clean t m name kind)
    (hf : FormSketch.ofNode t m name kind ∈ d.forms.sketches) :
    ∃ id f, (d.built v c g).table.get? name = some (.value id) ∧
      (d.built v c g).graph.get? id = some f ∧ m.DescribesForm (d.built v c g).graph f := by
  have hclosed : FormPlan.Closed g (d.plans v c) := closed_plans h.drawn h.nodup h.contained
  obtain ⟨p,hp⟩ := h.exists_plan hf
  have hmem := h.mem_plans hf hp
  obtain ⟨id,f,hid,-,hget,hb⟩ := (extended h.drawn h.nodup h.contained).new p hmem
  have hsubs := ((hclosed.fit p hmem).bodyOf hb.body).subForms
  obtain ⟨-,m',parts,-,hparts,rfl⟩ := FormPlan.ofSketch_eq_some hp
  replace hsubs : List.Forall₂ (fun t id => t.id? (d.extension v c g).ids = some id)
    (if kind = .simple then [] else parts) f.subForms := hsubs
  have hkind : f.kind = kind := hb.kind
  refine ⟨id,f,?_,hget,?_,hkind ▸ hclean.ofKind,?_,?_⟩
  · exact (get?_built h.drawn h.nodup h.contained).mpr ⟨_,hmem,rfl,hid⟩
  · exact hclean.named.trans (congrArg some hb.name.symm)
  · rw [hkind]
    by_cases hk : kind = .simple
    · rw [if_pos hk] at hsubs
      rw [FormSketch.partNames,if_pos hk,List.forall₂_nil_left_iff.mp hsubs]
      rfl
    · rw [if_neg hk] at hsubs
      rw [hclean.partNames]
      have hnames := forall₂_of_mem (S := fun t id => ∀ k, PlannedPart.ofName? d.forms c k =
        some t → (d.built v c g).graph.name? id = some k) hsubs fun t ht id _ hid k hk =>
          h.name?_of_part hmem ht hk hid
      refine (map_eq_of_forall₂ (forall₂_comp hparts hnames) ?_).symm
      rintro k id ⟨t,hk,hid⟩
      exact (hid k hk).symm
  · have hlabels := (FormGraph.labelsFor?_eq_ok hb.labels).1
    rw [← hclean.labels,← show f.labels.map Labels.names =
      (FormSketch.ofNode t m name kind).labels from hlabels,Option.map_map]
    rfl

theorem CleanForms.exists_top {n : Node} (hn : n ∈ root.children) (hform : n.isForm)
    (hr : n.reference? = none) :
    ∃ id f, ((Contents.ofNode n).forms.sketches.findSome? fun f =>
        ((d.built v c g).topOf? f).map Prod.snd) = some id ∧
      (d.built v c g).graph.get? id = some f ∧ n.DescribesForm (d.built v c g).graph f := by
  obtain ⟨hreports,hsub⟩ := h.toClean.form hn hform
  obtain ⟨name,kind,hclean⟩ := FormSketches.exists_clean hreports hr
  have he : FormSketch.ofNode true n name kind ∈ (FormSketches.allOf true n).sketches :=
    hclean.sketches ▸ List.mem_append_right _ (List.mem_singleton_self _)
  obtain ⟨id,f,hid,hf,hdescribes⟩ := h.exists_described hclean (hsub he)
  have htop : (d.built v c g).topOf? (.ofNode true n name kind) = some (name,id) :=
    BuiltForms.topOf?_eq_some.mpr ⟨rfl,rfl,hid⟩
  refine ⟨id,f,?_,hf,hdescribes⟩
  rw [Contents.ofNode_of_form hform]
  refine (List.map_findSome? (g := Prod.snd)).symm.trans ?_
  exact congrArg (Option.map Prod.snd) (findSome?_topOf? he rfl htop)

end Definitions
end AddressedForms
