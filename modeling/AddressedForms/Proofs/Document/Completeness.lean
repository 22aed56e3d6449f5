import AddressedForms.Proofs.Document.CleanForms
import AddressedForms.Proofs.Repository.Registration
set_option autoImplicit false

/-!
A document that is read without reports is read as a whole: every form, every denotator and every
leaf definition in it comes to what its node says. So nothing is lost without a report.
-/

namespace AddressedForms

def Symbols.meanings (s : Symbols) : LeafMeanings where
  module name := .ofOption ((Table.ofList s.modules).get? name)
  element name := .ofOption ((Table.ofList s.elements).get? name)
  morphism name := .ofOption ((Table.ofList s.morphisms).get? name)

/-- What a node says of a denotator. -/
structure Node.DescribesDenotator (n : Node) (g : FormGraph) (s : LeafScope) (d : Denotator) :
    Prop where
  name : d.name = n.name?
  form : ∃ name, n.attr? "form" = some name ∧ g.name? d.form = some name
  kind : (n.attr? "type").bind Kind.ofText? = some d.kind
  address : n.child? "Address" = none ∧ d.address = .null ∨
    ∃ a m, n.child? "Address" = some a ∧ a.child? "Module" = some m ∧
      (Module.ofNested s m).value? = some d.address

theorem Attempt.congruence_value : Congruence fun _ a b => a.value? = b.value? where
  success _ := rfl
  malformed _ _ := rfl
  unknown _ _ := rfl
  bind := by
    intro α β a b f g h hf
    rw [value?_bind,value?_bind,← h]
    cases hx : a.value? with
    | none => rfl
    | some x => exact hf x hx
  cons := by
    intro α a b as bs h hs
    simp only [cons,h,hs]

theorem Resolution.value?_lookup {α : Type} (s : Symbol) (t : Table (Resolution α)) (k : String) :
    (lookup s Leaves.nowhere t k).value? = (Table.ofList (values t)).get? k := by
  refine Option.ext fun x => ?_
  rw [Table.get?_ofList_eq_some_iff (nodup_values t)]
  constructor
  · intro hx
    rcases of_value?_lookup hx with hx | ⟨-,hx⟩
    · exact mem_values hx
    · cases hx
  · intro hx
    rw [lookup_of_value (get?_of_mem_values hx)]
    rfl

namespace LeafKind

def definitionTag : LeafKind → String
  | .module => "DefineModule"
  | .element => "DefineModuleElement"
  | .morphism => "DefineModuleMorphism"

end LeafKind

namespace Contents
variable {n : Node}

theorem ofNode_of_denotator (h : n.tag = "Denotator") : ofNode n = ofDenotator n := by
  simp [ofNode,Node.isForm,h]

theorem ofNode_of_leaf {k : LeafKind} (h : n.tag = k.definitionTag) : ofNode n = ofLeaf k n := by
  cases k <;> simp [ofNode,Node.isForm,LeafKind.definitionTag] at h ⊢ <;> simp [h]

theorem sketches_of_not_denotator (h : n.tag ≠ "Denotator") : (ofNode n).sketches = [] := by
  unfold ofNode
  rw [if_neg h]
  unfold ofLeaf
  split_ifs <;> first | rfl | (split <;> rfl)

end Contents

namespace Definitions
variable {root : Node} {d : Definitions} {v : Vocabulary} {c : Catalogue} {g : FormGraph}

structure CleanDocument (root : Node) (d : Definitions) (v : Vocabulary) (c : Catalogue)
    (g : FormGraph) : Prop extends CleanForms root d v c g where
  resolved : (d.resolved v c g).reports = []
  top : (d.sketches.map (d.attempt v c g)).flatMap Attempt.reports = []

def symbols (v : Vocabulary) (c : Catalogue) (g : FormGraph) (d : Definitions) : Symbols :=
  ⟨Resolution.values (d.built v c g).table,Resolution.values (d.resolved v c g).table,
    Resolution.values (Leaves.resolve v d).1.modules,
    Resolution.values (Leaves.resolve v d).1.elements,
    Resolution.values (Leaves.resolve v d).1.morphisms⟩

theorem describes_of_told (hn : ∀ k id, (d.surroundings v c g).form? k = some id →
      (d.built v c g).graph.name? id = some k) {n : Node} {x : Denotator}
    (h : DenotatorSketch.Told (d.surroundings v c g) n x) :
    n.DescribesDenotator (d.built v c g).graph ⟨v,some (d.symbols v c g).meanings⟩ x := by
  obtain ⟨name,hname,hform⟩ := Option.bind_eq_some_iff.mp h.form
  refine ⟨h.name,⟨name,hname,hn name _ hform⟩,h.kind,?_⟩
  have haddress := h.address
  unfold DenotatorSketch.addressOf at haddress
  split at haddress <;> rename_i ha
  · exact .inl ⟨ha,(Option.some.inj haddress).symm⟩
  · split at haddress <;> rename_i hm
    · refine .inr ⟨_,_,ha,hm,haddress ▸ ?_⟩
      have ht := (Node.child?_eq_some hm).2
      exact Attempt.congruence_value.module_ofNested (l := (d.symbols v c g).meanings)
        (u := (Leaves.resolve v d).1.meanings) ht fun k _ => by
          rw [Leaves.meanings,Resolution.value?_lookup,Symbols.meanings,Attempt.value?_ofOption]
          rfl
    · cases haddress

variable (h : CleanDocument root d v c g)
include h

theorem CleanDocument.supplied : d.Supplied v c g root where
  answers := h.answers
  leaves := h.leaves
  forms k hk := by
    show ((Resolution.lookup .form c.forms.get? (d.built v c g).table k).value?).isSome
    by_cases hn : k ∈ d.forms.names
    · obtain ⟨f,hf,rfl⟩ := List.mem_map.mp hn
      obtain ⟨-,-,-,t,m,name,kind,-,hclean,rfl⟩ := h.toClean.exists_form hf
      obtain ⟨id,-,hid,-⟩ := h.exists_described hclean hf
      show (Resolution.lookup .form c.forms.get? (d.built v c g).table name).value?.isSome
      rw [Resolution.lookup_of_value hid]
      rfl
    · have hnone := (FormSketches.named?_eq_none_iff d.forms k).mpr hn
      have htable : (d.built v c g).table.get? k = none := by
        rw [Table.get?_eq_none_iff,← Table.contains_iff_mem_keys,Definitions.built,
          BuiltForms.table_eq,Table.contains_ofList]
        simpa using hn
      have hhas : (d.forms.named? k).isSome || c.forms.contains k := h.answers _ hk
      rw [hnone] at hhas
      rw [Resolution.lookup,htable]
      show (Attempt.ofOption (c.forms.get? k)).value?.isSome
      rw [Attempt.value?_ofOption]
      exact hhas

theorem CleanDocument.exists_defined {name : String} {y : DenotatorDefinition}
    (hy : d.denotators.get? name = some y) :
    ∃ x, (d.resolved v c g).table.get? name = some (.value x) ∧
      y.node.DescribesDenotator (d.built v c g).graph ⟨v,some (d.symbols v c g).meanings⟩ x := by
  have hresolved : Resolution.Honest .denotator _ _ True (d.resolved v c g) :=
    honest_resolved h.drawn v c g fun _ => h.supplied
  obtain ⟨x,hx⟩ := hresolved.told trivial h.resolved name
    ((Table.contains_iff_mem_keys _ _).mp (Table.contains_of_get? hy))
  obtain ⟨y',hy',htold⟩ := exists_told hx
  rw [hy,Option.some.injEq] at hy'
  exact ⟨x,hx,hy' ▸ describes_of_told (fun _ _ => h.name?_of_form?) htold⟩

theorem CleanDocument.get?_denotators {n m : Node} {name : String} (hn : n ∈ root.children)
    (ht : n.tag = "Denotator") (hm : n.HasDenotator m) (hname : m.name? = some name) :
    d.denotators.get? name = some ⟨m,DenotatorSketch.freshParts m.children⟩ := by
  have hnodup : (DenotatorSketch.names d.sketches).Nodup := by
    rw [h.collected.sketches]
    exact h.distinct .denotator
  refine (Table.get?_ofList_eq_some_iff hnodup).mpr ?_
  rw [h.collected.sketches,DenotatorSketch.allDefinitions_eq]
  refine List.mem_flatMap.mpr ⟨_,List.mem_flatMap.mpr ⟨n,hn,?_⟩,
    DenotatorSketch.mem_definitions_fresh hm hname⟩
  rw [Contents.ofNode_of_denotator ht]
  exact List.mem_singleton_self _

theorem CleanDocument.exists_attempt {n : Node} (hn : n ∈ root.children)
    (ht : n.tag = "Denotator") :
    ∃ x, (d.attempt v c g (.fresh n)).value? = some x ∧
      match n.reference? with
      | some k => (k,x) ∈ (d.symbols v c g).denotators ∨ c.denotators.get? k = some x
      | none => n.DescribesDenotator (d.built v c g).graph
          ⟨v,some (d.symbols v c g).meanings⟩ x := by
  have hmem : DenotatorSketch.fresh n ∈ d.sketches := by
    rw [h.collected.sketches]
    refine List.mem_flatMap.mpr ⟨n,hn,?_⟩
    rw [Contents.ofNode_of_denotator ht]
    exact List.mem_singleton_self _
  have hattempt : (d.attempt v c g (.fresh n)).Honest (True ∧ (d.resolved v c g).reports = []) :=
    honest_attempt h.drawn v c g (fun _ => h.supplied) hmem
  obtain ⟨x,hx⟩ : ∃ x, (d.attempt v c g (.fresh n)).value? = some x := by
    refine Option.ne_none_iff_exists'.mp fun hnone => hattempt.told ⟨trivial,h.resolved⟩ hnone ?_
    have htop := h.top
    rw [List.flatMap_map] at htop
    exact List.flatMap_eq_nil_iff.mp htop _ hmem
  refine ⟨x,hx,?_⟩
  rw [DenotatorSketch.fresh_eq] at hx
  cases hr : n.reference? with
  | some k =>
    rw [hr] at hx
    replace hx : (Resolution.lookup .denotator c.denotators.get? (d.resolved v c g).table
      k).value? = some x := hx
    rcases Resolution.of_value?_lookup hx with hx | ⟨-,hx⟩
    · exact .inl (Resolution.mem_values hx)
    · exact .inr hx
  | none =>
    rw [hr] at hx
    cases hname : n.name? with
    | none =>
      rw [hname] at hx
      exact describes_of_told (fun _ _ => h.name?_of_form?) (DenotatorSketch.told_of_assemble hx)
    | some name =>
      rw [hname] at hx
      obtain ⟨y,hy,hdescribes⟩ := h.exists_defined (h.get?_denotators hn ht (.self hr) hname)
      replace hx : (Resolution.lookup .denotator c.denotators.get? (d.resolved v c g).table
        name).value? = some x := hx
      rw [Resolution.lookup_of_value hy] at hx
      cases hx
      exact hdescribes

theorem CleanDocument.mem_names {k : LeafKind} {n : Node} (hn : n ∈ root.children)
    (ht : n.tag = k.definitionTag) :
    ∃ name, n.name? = some name ∧ name ∈ (d.symbols v c g).names k.symbol := by
  have hreports := h.nodes n hn
  have htold := (honest_leafOf k.tag n).told trivial
  have hentry : (Contents.ofNode n).leaves k ⊆ (Contents.ofNodes root.children).leaves k :=
    fun e he => List.mem_flatMap.mpr ⟨n,hn,he⟩
  rw [Contents.ofNode_of_leaf ht] at hreports hentry
  unfold Contents.ofLeaf at hreports hentry
  generalize hleaf : leafOf k.tag n = leaf at hreports hentry htold
  obtain ⟨leaf,es⟩ := leaf
  cases leaf with
  | none => exact absurd hreports (htold rfl)
  | some e =>
    obtain ⟨name,m⟩ := e
    have hname : n.name? = some name := by
      have hvalue := congrArg Attempt.value? hleaf
      rw [leafOf,Attempt.value?_bind,Node.value?_require] at hvalue
      obtain ⟨_,hname,hvalue⟩ := Option.bind_eq_some_iff.mp hvalue
      split at hvalue <;> cases hvalue
      exact hname
    refine ⟨name,hname,?_⟩
    have hmem : name ∈ (d.leaves k).keys := by
      have hone : (name,m) ∈ (Contents.ofEntry k (name,m)).leaves k := by simp [Contents.ofEntry]
      rw [← Table.contains_iff_mem_keys,h.collected.leaves,Table.contains_ofList]
      exact List.mem_map_of_mem (hentry hone)
    have hclean := h.leaves
    simp only [Leaves.resolve,List.append_eq_nil_iff] at hclean
    have hhonest : d.HonestLeaves v True := honestLeaves h.drawn v c fun _ => h.answers
    have hvalues {α : Type} {t : Table (Resolution α)}
        (ht : ∃ x, t.get? name = some (.value x)) : name ∈ (Resolution.values t).map Prod.fst := by
      obtain ⟨x,hx⟩ := ht
      exact List.mem_map_of_mem (Resolution.mem_values hx)
    cases k with
    | module => exact hvalues (hhonest.modules.told trivial hclean.1.1 name hmem)
    | element => exact hvalues (hhonest.elements.told trivial hclean.1.2 name hmem)
    | morphism =>
      exact hvalues (hhonest.morphisms.told ⟨trivial,hclean.1⟩ hclean.2 name hmem)

end Definitions

theorem NameSpace.answers_of_unresolved {n : NameSpace} {root : Node}
    (ht : root.tag = "Document") (h : n.unresolved (Reading.referencesOf root) = []) :
    n.Answers root := by
  intro e he
  unfold unresolved at h
  rw [List.map_eq_nil_iff,List.filter_eq_nil_iff] at h
  have hmem : e ∈ (Reading.referencesOf root).eraseDups := by
    rw [List.mem_eraseDups,Reading.referencesOf,if_pos ht]
    exact he
  simpa using h e hmem

theorem Reading.cleanDocument_of_names {r : Repository} {v : Vocabulary} {c : Catalogue} {root : Node}
    (hc : ∀ name id, c.forms.get? name = some id → r.forms.name? id = some name)
    (h : (ofNode v c root r).reports = []) :
    Definitions.CleanDocument root (.ofRoot root) v c r.forms := by
  rw [ofNode_eq] at h
  simp only [List.append_eq_nil_iff] at h
  obtain ⟨⟨⟨⟨⟨hdefs,hmissing⟩,hleaves⟩,hforms⟩,hresolved⟩,htop⟩ := h
  have hclean := Definitions.clean_ofRoot hdefs
  exact ⟨⟨hclean,Definitions.drawn_ofRoot root,
    NameSpace.answers_of_unresolved hclean.tag hmissing,hleaves,hforms,hc⟩,hresolved,htop⟩

theorem Reading.cleanDocument {r : Repository} (hr : r.Reachable) {v : Vocabulary}
    {consulted : Bool} {root : Node}
    (h : (ofNode v (.ofRepository r consulted) root r).reports = []) :
    Definitions.CleanDocument root (.ofRoot root) v (.ofRepository r consulted) r.forms :=
  cleanDocument_of_names
    (fun _ _ hid => hr.name?_of_form? (Catalogue.form?_of_ofRepository hid)) h

namespace Outcome
variable {v : Vocabulary} {r : Repository} {g h : FormGraph} {root : Node} {o : Outcome}

/-- All that a document holds is in the outcome of reading it: the forms and the denotators at the
top level in their places, and all that is defined, there or further down, in the symbol table. -/
structure Complete (v : Vocabulary) (r : Repository) (g : FormGraph) (root : Node) (o : Outcome) :
    Prop where
  forms : List.Forall₂ (fun n id => ∃ f, g.get? id = some f ∧ n.DescribesForm g f)
    (root.children.filter fun n => n.isForm && n.reference?.isNone) o.forms
  denotators : List.Forall₂ (fun n d => match n.reference? with
      | some k => (k,d) ∈ o.symbols.denotators ∨ r.denotator? k = some d
      | none => n.DescribesDenotator g ⟨v,some o.symbols.meanings⟩ d)
    (root.children.filter fun n => n.tag = "Denotator") o.denotators
  formSymbols : ∀ n ∈ root.children, n.isForm → ∀ m, n.HasForm m → ∃ name id f,
    m.name? = some name ∧ (name,id) ∈ o.symbols.forms ∧ g.get? id = some f ∧ m.DescribesForm g f
  denotatorSymbols : ∀ n ∈ root.children, n.tag = "Denotator" → ∀ m name, n.HasDenotator m →
    m.name? = some name → ∃ d, (name,d) ∈ o.symbols.denotators ∧
      m.DescribesDenotator g ⟨v,some o.symbols.meanings⟩ d
  leafSymbols : ∀ (k : LeafKind), ∀ n ∈ root.children, n.tag = k.definitionTag →
    ∃ name, n.name? = some name ∧ name ∈ o.symbols.names k.symbol

theorem Complete.of_eq {o' : Outcome} (hc : o.Complete v r g root) (hf : o'.forms = o.forms)
    (hd : o'.denotators = o.denotators) (hs : o'.symbols = o.symbols) :
    o'.Complete v r g root := by
  obtain ⟨forms,denotators,errors,symbols⟩ := o'
  cases hf
  cases hd
  cases hs
  exact ⟨hc.forms,hc.denotators,hc.formSymbols,hc.denotatorSymbols,hc.leafSymbols⟩

theorem exists_describesForm {ids : List FormId} (hm : FormGraph.Marks ids g h) {n : Node}
    {id : FormId} (hf : ∃ f, g.get? id = some f ∧ n.DescribesForm g f) :
    ∃ f, h.get? id = some f ∧ n.DescribesForm h f := by
  obtain ⟨f,hf,hn⟩ := hf
  obtain ⟨b,hb⟩ := hm.get? hf
  refine ⟨_,hb,hn.name,hn.kind,?_,hn.labels⟩
  rw [funext hm.name?]
  exact hn.subForms

theorem Complete.marks {ids : List FormId} (hc : o.Complete v r g root)
    (hm : FormGraph.Marks ids g h) : o.Complete v r h root := by
  have hden {n : Node} {d : Denotator} {s : LeafScope} (hd : n.DescribesDenotator g s d) :
      n.DescribesDenotator h s d :=
    ⟨hd.name,by simpa only [hm.name?] using hd.form,hd.kind,hd.address⟩
  refine ⟨hc.forms.imp fun n id hf => exists_describesForm hm hf,
    hc.denotators.imp fun n d hd => ?_,fun n hn hf m hnm => ?_,fun n hn ht m name hnm hname => ?_,
    hc.leafSymbols⟩
  · split <;> rename_i hr <;> rw [hr] at hd
    · exact hd
    · exact hden hd
  · obtain ⟨name,id,f,hname,hid,hf⟩ := hc.formSymbols n hn hf m hnm
    obtain ⟨e,he⟩ := exists_describesForm hm ⟨f,hf⟩
    exact ⟨name,id,e,hname,hid,he⟩
  · obtain ⟨d,hmem,hd⟩ := hc.denotatorSymbols n hn ht m name hnm hname
    exact ⟨d,hmem,hden hd⟩

theorem complete_ofReading (hr : r.Reachable) {consulted : Bool} (limit : Option Nat)
    (hclean : (Reading.ofNode v (.ofRepository r consulted) root r).reports = []) :
    let g := Reading.ofNode v (.ofRepository r consulted) root r
    (ofReading g limit).Complete v r g.repository.forms root := by
  have h := Reading.cleanDocument hr hclean
  have hdenotator (k : String) (x : Denotator)
      (hx : (Catalogue.ofRepository r consulted).denotators.get? k = some x) :
      r.denotator? k = some x := Catalogue.denotator?_of_ofRepository hx
  rw [Reading.ofNode_eq]
  clear hclean
  generalize Definitions.ofRoot root = d at h
  generalize Catalogue.ofRepository r consulted = c at h hdenotator
  refine ⟨?_,?_,fun n hn hf m hnm => ?_,fun n hn ht m name hnm hname => ?_,
    fun k n hn ht => h.mem_names hn ht⟩
  · dsimp only [ofReading]
    rw [Definitions.top_built,h.collected.sketches_forms,BuiltForms.map_top]
    refine forall₂_filter_filterMap (fun n hn hp => ?_) fun n hn hp => ?_
    · simp only [Bool.and_eq_true,Option.isNone_iff_eq_none] at hp
      obtain ⟨id,f,hid,hf⟩ := h.exists_top hn hp.1 hp.2
      exact ⟨id,hid,f,hf⟩
    · by_cases hf : n.isForm
      · have href : n.reference?.isSome := by
          cases hr : n.reference? <;> simp_all
        rw [Contents.ofNode_of_form hf,Contents.ofForm,FormSketches.allOf_eq,if_pos href]
        rfl
      · rw [Contents.sketches_of_not_form hf]
        rfl
  · dsimp only [ofReading]
    rw [h.collected.sketches,Contents.values_attempts]
    refine forall₂_filter_filterMap (fun n hn hp => ?_) fun n hn hp => ?_
    · have ht : n.tag = "Denotator" := of_decide_eq_true hp
      obtain ⟨x,hx,hgives⟩ := h.exists_attempt hn ht
      refine ⟨x,?_,?_⟩
      · rw [Contents.ofNode_of_denotator ht,Contents.ofDenotator,List.findSome?_singleton]
        exact hx
      · split <;> rename_i hr <;> rw [hr] at hgives
        · exact hgives.imp_right (hdenotator _ x)
        · exact hgives
    · rw [Contents.sketches_of_not_denotator (by simpa using hp)]
      rfl
  · obtain ⟨hreports,hsub⟩ := h.toClean.form hn hf
    obtain ⟨t,name,kind,hm,hmem⟩ := FormSketches.exists_sketch hnm hreports
    obtain ⟨id,f,hid,hf⟩ := h.exists_described hm (hsub hmem)
    exact ⟨name,id,f,hm.named,Resolution.mem_values hid,hf⟩
  · obtain ⟨x,hx,hdescribes⟩ := h.exists_defined (h.get?_denotators hn ht hnm hname)
    exact ⟨x,Resolution.mem_values hx,hdescribes⟩

end Outcome

/-- A success has lost nothing, and if anything is lost there are errors, kept or not. -/
theorem Reader.readNode_complete {r : Repository} (hr : r.Reachable) (a : Reader) (root : Node) :
    let o := (a.readNode root r).1
    let s := (a.readNode root r).2.2
    (o.isSuccess → o.Complete a.vocabulary r s.forms root) ∧
    (¬ o.Complete a.vocabulary r s.forms root → o.errors.kept ≠ [] ∨ 0 < o.errors.suppressed) := by
  intro o s
  have hcomplete : o.isSuccess → o.Complete a.vocabulary r s.forms root := by
    intro hsuccess
    obtain ⟨ho,-⟩ := a.readNode_eq root r
    obtain ⟨hforms,hdenotators,hsymbols⟩ := a.readNode_fields root r
    obtain ⟨hyes,hno⟩ := a.readNode_entered root hr
    set g := Reading.ofNode a.vocabulary (.ofRepository r a.settings.catalogFallback) root r
    have hreports : g.reports = [] := by
      rw [show o = _ from ho,Manuscript.isSuccess_ofReading_iff] at hsuccess
      split at hsuccess
      · exact List.prefix_nil.mp (hsuccess ▸ (Reading.registered_register g).reports)
      · exact hsuccess
    have hsame : o.Complete a.vocabulary r g.repository.forms root :=
      (Outcome.complete_ofReading hr a.settings.maxErrors hreports).of_eq hforms hdenotators
        hsymbols
    by_cases hreg : a.Registers (some root) r
    · obtain ⟨hs,hentered⟩ := hyes hreg
      rw [show s = _ from hs]
      exact hsame.marks hentered.marks
    · rw [show s = _ from hno hreg]
      exact hsame
  refine ⟨hcomplete,fun hlost => ?_⟩
  by_contra hnone
  obtain ⟨hkept,hsuppressed⟩ := not_or.mp hnone
  refine hlost (hcomplete ?_)
  show (o.errors.kept.isEmpty && decide (o.errors.suppressed = 0)) = true
  simp [not_not.mp hkept,Nat.eq_zero_of_not_pos hsuppressed]

/-- A song of one note, whose form has a form inside that is over a module of the document. -/
def Node.song : Node :=
  let form (name type : String) := ((leaf "Form").withAttr "name" name).withAttr "type" type
  let denotator (type form : String) :=
    ((leaf "Denotator").withAttr "type" type).withAttr "form" form
  let value := ((leaf "ModuleElement").withAttr "type" "ZElement").withAttr "value" "60"
  let constant := ((leaf "Map").withAttr "type" "ConstantMap").withChildren [value]
  (leaf "Document").withChildren
    [(form "Song" "List").withChildren
        [(form "Note" "Limit").withChildren
          [reference "Form" "Pitch",
            (form "Beat" "Simple").withChildren [reference "Module" "Time"]]],
      ((leaf "DefineModule").withAttr "name" "Time").withChildren
        [(leaf "Module").withAttr "type" "ZRing"],
      (denotator "List" "Song").withChildren
        [((denotator "Limit" "Note").withAttr "name" "First").withChildren
          [(denotator "Simple" "Pitch").withChildren [constant],
            (denotator "Simple" "Beat").withChildren [constant]]]]

theorem Reader.readNode_song :
    let o := (default.readNode .song .pitches).1
    let s := (default.readNode .song .pitches).2.2
    o.isSuccess ∧ o.Complete default.vocabulary .pitches s.forms .song ∧
    o.forms.length = 1 ∧ o.denotators.length = 1 ∧
    o.symbols.forms.map Prod.fst = ["Beat","Note","Song"] ∧
    o.symbols.denotators.map Prod.fst = ["First"] ∧
    o.symbols.modules = [("Time",.z)] := by
  have hread : let o := (default.readNode .song .pitches).1
      o.isSuccess ∧ o.forms.length = 1 ∧ o.denotators.length = 1 ∧
      o.symbols.forms.map Prod.fst = ["Beat","Note","Song"] ∧
      o.symbols.denotators.map Prod.fst = ["First"] ∧
      o.symbols.modules = [("Time",.z)] := by cbv
  obtain ⟨hsuccess,hrest⟩ := hread
  exact ⟨hsuccess,(readNode_complete (r := .pitches) ⟨_,rfl⟩ default .song).1 hsuccess,hrest⟩

end AddressedForms
