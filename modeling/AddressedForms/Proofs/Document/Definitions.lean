import AddressedForms.Document.Reading
import AddressedForms.Proofs.Document.Entries
set_option autoImplicit false

/-!
The definitions of a written document: sketches of just the forms and denotators that were entered,
and the leaves under their names.
-/

namespace AddressedForms
namespace Manuscript

def definitions (m : Manuscript) : Definitions := m.nodes.foldl Definitions.add .empty

theorem ofRoot_node (m : Manuscript) : Definitions.ofRoot m.node = m.definitions := by
  have hversion : Definitions.versionFaults m.node = [] := by
    have : m.node.attr? "version" = some Node.formatVersion := by simp [node]
    simp [Definitions.versionFaults,this]
  rw [Definitions.ofRoot,hversion,if_pos (by simp [node])]
  rfl

def OutlinedBy (m : Manuscript) (id : FormId) (s : FormSketch) : Prop :=
  ∃ f names, m.forms.get? id = some f ∧ names.Within m.names ∧ s.Outlines m.forms names f

def NodeOf (m : Manuscript) (d : Denotator) (n : Node) : Prop :=
  ∃ names, names.Within m.names ∧ nodeOf m.forms names d = .ok n

def SketchedBy (m : Manuscript) (d : Denotator) (s : DenotatorSketch) : Prop :=
  ∃ n, m.NodeOf d n ∧ s = match d.name with
    | some k => .define k n (DenotatorSketch.partsOf n)
    | none => .inline n (DenotatorSketch.partsOf n)

section Mono
variable {m k : Manuscript} (h : m.Precedes k)
include h

theorem OutlinedBy.mono {id : FormId} {s : FormSketch} (hs : m.OutlinedBy id s) :
    k.OutlinedBy id s := by
  obtain ⟨f,names,hf,hw,ho⟩ := hs
  exact ⟨f,names,by rwa [h.forms],hw.trans h.within,by rwa [h.forms]⟩

theorem NodeOf.mono {d : Denotator} {n : Node} (hn : m.NodeOf d n) : k.NodeOf d n := by
  obtain ⟨names,hw,hn⟩ := hn
  exact ⟨names,hw.trans h.within,by rwa [h.forms]⟩

theorem SketchedBy.mono {d : Denotator} {s : DenotatorSketch} (hs : m.SketchedBy d s) :
    k.SketchedBy d s := by
  obtain ⟨n,hn,he⟩ := hs
  exact ⟨n,hn.mono h,he⟩

end Mono

/-- The definitions of a manuscript that was compiled of some entries. -/
structure Gathered (es : List Entry) (m : Manuscript) (d : Definitions) : Prop where
  reports : d.reports = []
  forms : List.Forall₂ m.OutlinedBy (es.filterMap Entry.form?) d.forms.sketches
  sketches : List.Forall₂ m.SketchedBy (es.filterMap Entry.denotator?) d.sketches
  taken : ∀ k, k ∈ d.taken ↔ m.writtenDenotators.contains k
  modules : LeafTable "Module" Module.body m.names m.names.modules d.modules
  elements : LeafTable "ModuleElement" Element.body m.names m.names.elements d.elements
  morphisms : LeafTable "ModuleMorphism" Morphism.body m.names m.names.morphisms d.morphisms

theorem gathered_empty (g : FormGraph) : Gathered [] (empty g) .empty where
  reports := rfl
  forms := .nil
  sketches := .nil
  taken := by simp [Definitions.empty,empty,Table.contains]
  modules := leafTable_empty
  elements := leafTable_empty
  morphisms := leafTable_empty

section Gathered
variable {g : FormGraph} {es : List Entry} {m : Manuscript} {d : Definitions}

theorem Gathered.isSome_named?_iff (h : Gathered es m d) (hm : Compiled g es m) (name : String) :
    (d.forms.named? name).isSome ↔ m.writtenForms.contains name := by
  rw [FormSketches.named?,List.find?_isSome]
  constructor
  · rintro ⟨s,hs,hname⟩
    obtain ⟨id,hid,f,names,hf,-,ho⟩ := exists_of_forall₂_right h.forms hs
    refine Table.contains_of_get? ((hm.writtenForms_iff name id).mpr
      ⟨Entry.mem_filterMap_form?.mp hid,f,hm.forms_eq ▸ hf,?_⟩)
    simpa [ho.name] using hname
  · intro hc
    obtain ⟨id,hid⟩ := Table.exists_of_contains hc
    obtain ⟨hid,f,hf,hname⟩ := (hm.writtenForms_iff name id).mp hid
    obtain ⟨s,hs,f',names,hf',-,ho⟩ :=
      exists_of_forall₂_left h.forms (Entry.mem_filterMap_form?.mpr hid)
    rw [hm.forms_eq,hf] at hf'
    cases hf'
    exact ⟨s,hs,by simp [ho.name,hname]⟩

theorem Gathered.mem_sketchNames_iff (h : Gathered es m d) (hm : Compiled g es m) (name : String) :
    name ∈ d.forms.sketches.map FormSketch.name ↔ m.writtenForms.contains name := by
  rw [← h.isSome_named?_iff hm,FormSketches.named?,List.find?_isSome]
  simp

theorem Gathered.form (h : Gathered es m d) (hg : g.Sound) (hm : Compiled g es m) {id : FormId}
    {f : Form} {n : Node} (hf : g.get? id = some f) (hnew : m.writtenForms.get? f.name = none)
    (hn : formNode g m.names f = .ok n) :
    Gathered (es ++ [.form id]) {m.push n with writtenForms := m.writtenForms.insert f.name id}
      (d.add n) := by
  have hnone : d.forms.named? f.name = none := by
    rw [← Option.not_isSome_iff_eq_none,h.isSome_named?_iff hm]
    simp [Table.contains,hnew]
  obtain ⟨s,ho,hadd⟩ := add_formNode hn (hg.nonempty id f hf) (fun l => hg.labelled id f l hf) hnone
  have hform : n.isForm := by
    obtain ⟨parts,ks,rfl,-⟩ := formNode_eq_ok hn
    simp [Node.isForm]
  have hp : m.Precedes {m.push n with writtenForms := m.writtenForms.insert f.name id} :=
    (Step.form (hm.forms_eq ▸ hf) hnew (hm.forms_eq ▸ hn)).precedes
  rw [Definitions.add,if_pos hform,hadd]
  refine ⟨h.reports,?_,?_,h.taken,h.modules,h.elements,h.morphisms⟩
  · rw [filterMap_append_single]
    refine forall₂_append_single (h.forms.imp fun _ _ hs => hs.mono hp) ?_
    exact ⟨f,m.names,by simpa [push,hm.forms_eq] using hf,.refl _,
      by simpa [push,hm.forms_eq] using ho⟩
  · rw [filterMap_append_of_none rfl]
    exact h.sketches.imp fun _ _ hs => hs.mono hp

theorem addDenotator_nodeOf {names : NamedLeaves} {x : Denotator} {n : Node}
    (hn : nodeOf g names x = .ok n) (hnew : ∀ k, x.name = some k → k ∉ d.taken) :
    d.add n = {d with
      sketches := d.sketches ++ [match x.name with
        | some k => .define k n (DenotatorSketch.partsOf n)
        | none => .inline n (DenotatorSketch.partsOf n)]
      taken := x.name.toList ++ d.taken} := by
  have hplain := DenotatorSketch.plain_nodeOf hn
  obtain ⟨form,cs,-,-,he⟩ := nodeOf_eq_ok hn
  have htag : n.tag = "Denotator" := by simp [he]
  have href : n.reference? = none := by rw [he]; exact reference?_headed x form
  have hname : n.name? = x.name := by rw [he]; exact name?_headed x form
  have hform : ¬ n.isForm := by simp [Node.isForm,htag]
  rw [Definitions.add,if_neg hform,if_pos htag,Definitions.addDenotator,DenotatorSketch.ofNode_eq]
  simp only [href,hname]
  cases hx : x.name with
  | none =>
    simp [hplain.sketched,DenotatorSketch.duplicates,hname,hx,hplain.duplicates,
      Definitions.reportAll,FormSketches.reportAll]
  | some k =>
    simp [hplain.sketched,DenotatorSketch.duplicates,hnew k hx,hplain.duplicates,
      Definitions.reportAll,FormSketches.reportAll]

/-- A denotator adds its sketch; what it does to the names does not concern the others. -/
theorem Gathered.denotator (h : Gathered es m d) {x : Denotator} {n : Node} {k : Manuscript}
    (hn : nodeOf m.forms m.names x = .ok n) (hp : m.Precedes k) (hnames : k.names = m.names)
    (hnew : ∀ name, x.name = some name → ¬ m.writtenDenotators.contains name)
    (hk : ∀ name, k.writtenDenotators.contains name ↔
      x.name = some name ∨ m.writtenDenotators.contains name) :
    Gathered (es ++ [.denotator x]) k (d.add n) := by
  rw [addDenotator_nodeOf hn fun name hx => mt (h.taken name).mp (hnew name hx)]
  refine ⟨h.reports,?_,?_,fun name => ?_,?_,?_,?_⟩
  · rw [filterMap_append_of_none rfl]
    exact h.forms.imp fun _ _ hs => hs.mono hp
  · rw [filterMap_append_single]
    refine forall₂_append_single (h.sketches.imp fun _ _ hs => hs.mono hp) ?_
    exact ⟨n,⟨m.names,hp.within,by rwa [hp.forms]⟩,rfl⟩
  · simp [h.taken,hk]
  · exact hnames ▸ h.modules
  · exact hnames ▸ h.elements
  · exact hnames ▸ h.morphisms

@[simp] theorem tag_definition (tag name : String) (body : Node) :
    (definition tag name body).tag = tag := rfl

theorem add_module {name : String} {body : Node} (htag : body.tag = "Module")
    (hnew : ¬ d.modules.contains name) : d.add (definition "DefineModule" name body) =
      {d with modules := d.modules.insert name body} := by
  simp [Definitions.add,Node.isForm,addLeaf_definition htag hnew,Definitions.reportAll,
    FormSketches.reportAll]

theorem add_element {name : String} {body : Node} (htag : body.tag = "ModuleElement")
    (hnew : ¬ d.elements.contains name) : d.add (definition "DefineModuleElement" name body) =
      {d with elements := d.elements.insert name body} := by
  simp [Definitions.add,Node.isForm,addLeaf_definition htag hnew,Definitions.reportAll,
    FormSketches.reportAll]

theorem add_morphism {name : String} {body : Node} (htag : body.tag = "ModuleMorphism")
    (hnew : ¬ d.morphisms.contains name) : d.add (definition "DefineModuleMorphism" name body) =
      {d with morphisms := d.morphisms.insert name body} := by
  simp [Definitions.add,Node.isForm,addLeaf_definition htag hnew,Definitions.reportAll,
    FormSketches.reportAll]

theorem Gathered.leaf (h : Gathered es m d) {e : Entry} {k : Manuscript} (hp : m.Precedes k)
    (hf : e.form? = none) (hd : e.denotator? = none)
    (hk : k.writtenDenotators = m.writtenDenotators) {modules elements morphisms : Table Node}
    (hms : LeafTable "Module" Module.body k.names k.names.modules modules)
    (hes : LeafTable "ModuleElement" Element.body k.names k.names.elements elements)
    (hfs : LeafTable "ModuleMorphism" Morphism.body k.names k.names.morphisms morphisms) :
    Gathered (es ++ [e]) k
      {d with modules := modules, elements := elements, morphisms := morphisms} := by
  refine ⟨h.reports,?_,?_,by rw [hk]; exact h.taken,hms,hes,hfs⟩
  · rw [filterMap_append_of_none hf]
    exact h.forms.imp fun _ _ hs => hs.mono hp
  · rw [filterMap_append_of_none hd]
    exact h.sketches.imp fun _ _ hs => hs.mono hp

theorem Gathered.step (h : Gathered es m d) (hg : g.Sound) (hm : Compiled g es m) {e : Entry}
    {k : Manuscript} (hs : Step m e k) :
    ∃ n, k.nodes = m.nodes ++ [n] ∧ Gathered (es ++ [e]) k (d.add n) := by
  have hp := hs.precedes
  have hw := hp.within
  cases hs with
  | form hf hnew hn =>
    rw [hm.forms_eq] at hf hn
    exact ⟨_,rfl,h.form hg hm hf hnew hn⟩
  | @named x name n hname hnew hn hr =>
    refine ⟨n,rfl,h.denotator hn hp rfl (fun k hk => ?_) fun k => ?_⟩
    · rw [hname] at hk
      cases hk
      simp [Table.contains,hnew]
    · rw [Table.contains,Table.get?_insert,hname,Option.some.injEq]
      by_cases hk : k = name
      · simp [hk]
      · simp [hk,Ne.symm hk,Table.contains]
  | @anonymous x n hname hn hr =>
    exact ⟨n,rfl,h.denotator hn hp rfl (by simp [hname]) (by simp [hname,push])⟩
  | @module name x hnew =>
    have hfresh := mt (hm.defined_iff (.module,name)).mpr hnew
    refine ⟨_,rfl,?_⟩
    rw [add_module (Module.tag_body _ _) (mt (h.modules.keys name).mp hfresh)]
    refine h.leaf hp rfl rfl rfl (h.modules.insert hw hfresh fun k hk => ?_)
      (h.elements.mono hw) (h.morphisms.mono hw)
    exact (Module.written_body _ _).has_references _ (Node.mem_references_of_tagged rfl _ hk)
  | @element name x hnew =>
    have hfresh := mt (hm.defined_iff (.element,name)).mpr hnew
    refine ⟨_,rfl,?_⟩
    rw [add_element (Element.tag_body _ _) (mt (h.elements.keys name).mp hfresh)]
    refine h.leaf hp rfl rfl rfl (h.modules.mono hw)
      (h.elements.insert hw hfresh fun k hk => ?_) (h.morphisms.mono hw)
    exact (Element.written_body _ _).has_references _ (Node.mem_references_of_tagged rfl _ hk)
  | @morphism name f hnew =>
    have hfresh := mt (hm.defined_iff (.morphism,name)).mpr hnew
    refine ⟨_,rfl,?_⟩
    rw [add_morphism (Morphism.tag_body _ _) (mt (h.morphisms.keys name).mp hfresh)]
    refine h.leaf hp rfl rfl rfl (h.modules.mono hw) (h.elements.mono hw)
      (h.morphisms.insert hw hfresh fun k hk => ?_)
    exact (Morphism.written_body _ _).has_references _ (Node.mem_references_of_tagged rfl _ hk)

/-- Run lemma: the definitions of a manuscript are those of its entries. -/
theorem Compiled.gathered (hg : g.Sound) (h : Compiled g es m) : Gathered es m m.definitions := by
  induction h with
  | empty => exact gathered_empty g
  | @snoc es m k e hm hs ih =>
    obtain ⟨n,hn,hk⟩ := ih.step hg hm hs
    have he : k.definitions = m.definitions.add n := by
      simp [definitions,hn,List.foldl_append]
    rwa [he]

theorem Gathered.sketchNames (h : Gathered es m d) (hm : Compiled g es m) :
    (d.forms.sketches.map FormSketch.name).map some = (es.filterMap Entry.form?).map g.name? := by
  rw [List.map_map]
  refine (map_eq_of_forall₂ h.forms fun id s hs => ?_).symm
  obtain ⟨f,names,hf,-,ho⟩ := hs
  rw [hm.forms_eq] at hf
  rw [FormGraph.name?_of_get? hf,Function.comp_apply,ho.name]

theorem Gathered.nodup_sketchNames (h : Gathered es m d) (hm : Compiled g es m) :
    (d.forms.sketches.map FormSketch.name).Nodup :=
  List.Nodup.of_map some (h.sketchNames hm ▸ hm.nodup_formNames)

theorem SketchedBy.definitions {x : Denotator} {s : DenotatorSketch} (h : m.SketchedBy x s) :
    ∃ n, m.NodeOf x n ∧
      s.definitions = x.name.toList.map fun k => (k,⟨n,DenotatorSketch.partsOf n⟩) := by
  obtain ⟨n,⟨names,hw,hn⟩,rfl⟩ := h
  have hplain := DenotatorSketch.plain_nodeOf hn
  refine ⟨n,⟨names,hw,hn⟩,?_⟩
  cases x.name <;> simp [DenotatorSketch.definitions,hplain.definitions]

theorem Gathered.mem_definitions (h : Gathered es m d) (hm : Compiled g es m) {k : String}
    {y : DenotatorDefinition} (hd : (k,y) ∈ DenotatorSketch.allDefinitions d.sketches) :
    ∃ x n, m.writtenDenotators.get? k = some x ∧ m.NodeOf x n ∧
      y = ⟨n,DenotatorSketch.partsOf n⟩ := by
  rw [DenotatorSketch.allDefinitions_eq] at hd
  obtain ⟨s,hs,hd⟩ := List.mem_flatMap.mp hd
  obtain ⟨x,hx,hsk⟩ := exists_of_forall₂_right h.sketches hs
  obtain ⟨n,hn,he⟩ := hsk.definitions
  rw [he] at hd
  obtain ⟨k',hk',he'⟩ := List.mem_map.mp hd
  cases he'
  refine ⟨x,n,(hm.writtenDenotators_iff k x).mpr ⟨Entry.mem_filterMap_denotator?.mp hx,?_⟩,hn,rfl⟩
  simpa using hk'

theorem Gathered.get?_denotators (h : Gathered es m d) (hm : Compiled g es m) {k : String}
    {y : DenotatorDefinition} (hd : d.denotators.get? k = some y) :
    ∃ x n, m.writtenDenotators.get? k = some x ∧ m.NodeOf x n ∧
      y = ⟨n,DenotatorSketch.partsOf n⟩ :=
  h.mem_definitions hm (Table.mem_of_get?_ofList hd)

theorem Gathered.contains_denotators_iff (h : Gathered es m d) (hm : Compiled g es m) (k : String) :
    d.denotators.contains k ↔ m.writtenDenotators.contains k := by
  constructor
  · intro hc
    obtain ⟨y,hd⟩ := Table.exists_of_contains hc
    obtain ⟨x,n,hx,-⟩ := h.get?_denotators hm hd
    exact Table.contains_of_get? hx
  · intro hc
    obtain ⟨x,hx⟩ := Table.exists_of_contains hc
    obtain ⟨hmem,hname⟩ := (hm.writtenDenotators_iff k x).mp hx
    obtain ⟨s,hs,hsk⟩ := exists_of_forall₂_left h.sketches (Entry.mem_filterMap_denotator?.mpr hmem)
    obtain ⟨n,-,he⟩ := hsk.definitions
    rw [Definitions.denotators,Table.contains_ofList,DenotatorSketch.allDefinitions_eq]
    refine List.mem_map.mpr ⟨(k,⟨n,DenotatorSketch.partsOf n⟩),List.mem_flatMap.mpr ⟨s,hs,?_⟩,rfl⟩
    simp [he,hname]

/-- The uses of a definition are names below its denotator. -/
theorem Gathered.uses_subset (h : Gathered es m d) (hm : Compiled g es m) (k : String) :
    DenotatorDefinition.uses d.denotators k ⊆ m.namesBelow k := by
  intro j hj
  unfold DenotatorDefinition.uses at hj
  split at hj <;> rename_i hd
  · obtain ⟨x,n,hx,⟨names,-,hn⟩,rfl⟩ := h.get?_denotators hm hd
    obtain ⟨e,he,hname⟩ := (DenotatorSketch.plain_nodeOf hn).uses j hj
    simp only [namesBelow,hx]
    exact List.mem_filterMap.mpr ⟨e,he,hname⟩
  · simp at hj

theorem Gathered.layered_denotators (h : Gathered es m d) (hm : Compiled g es m) :
    Layered (DenotatorDefinition.uses d.denotators) :=
  hm.layered_namesBelow.subset (h.uses_subset hm)

end Gathered

theorem Written.unresolved_eq_nil {g : FormGraph} {asked es : List Entry} {m : Manuscript}
    (h : Written g asked es m) {d : Definitions} (hd : Gathered es m d) (c : Catalogue) :
    NameSpace.unresolved ⟨d,d.denotators,c⟩ (Reading.referencesOf m.node) = [] := by
  have href : Reading.referencesOf m.node = m.node.references := if_pos rfl
  have hall : ∀ r ∈ m.node.references, NameSpace.has ⟨d,d.denotators,c⟩ r.1 r.2 := by
    intro r hr
    have hmeans := h.compiled.means h.complete hr
    obtain ⟨s,name⟩ := r
    cases s with
    | form => simp [NameSpace.has,(hd.isSome_named?_iff h.compiled name).mpr hmeans]
    | denotator => simp [NameSpace.has,(hd.contains_denotators_iff h.compiled name).mpr hmeans]
    | module => exact (hd.modules.keys name).mpr hmeans
    | element => exact (hd.elements.keys name).mpr hmeans
    | morphism => exact (hd.morphisms.keys name).mpr hmeans
  rw [NameSpace.unresolved,href,List.map_eq_nil_iff,List.filter_eq_nil_iff]
  intro r hr
  simp [hall r (List.mem_eraseDups.mp hr)]

end Manuscript
end AddressedForms
