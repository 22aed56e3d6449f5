import Mathlib
import AddressedForms.Document.Reader
import AddressedForms.Proofs.Document.Assembly
import AddressedForms.Proofs.Document.FormTwins
import AddressedForms.Proofs.Repository.Sorted
set_option autoImplicit false

/-!
The order of a document does not matter: reading its nodes in another order reports the same errors
and comes to equal definitions, even where the new forms have their numbers in another order.
-/

namespace AddressedForms

/-- Lists of what nodes come to, each node to one entry at most, where the nodes come in two orders
and entries of the same node are related. -/
structure Corresponds {α β : Type} (R : α → β → Prop) (f : Node → Option α) (g : Node → Option β)
    (ns ms : List Node) (xs : List α) (ys : List β) : Prop where
  first : xs = ns.filterMap f
  second : ys = ms.filterMap g
  each : ∀ n ∈ ns, Option.Rel R (f n) (g n)

theorem Corresponds.mono {α β : Type} {R S : α → β → Prop} {f : Node → Option α}
    {g : Node → Option β} {ns ms : List Node} {xs : List α} {ys : List β}
    (h : Corresponds R f g ns ms xs ys) (hs : ∀ x y, R x y → S x y) :
    Corresponds S f g ns ms xs ys := by
  refine ⟨h.first,h.second,fun n hn => ?_⟩
  have hn := h.each n hn
  generalize f n = x, g n = y at hn
  cases hn with
  | none => exact .none
  | some hxy => exact .some (hs _ _ hxy)

theorem Corresponds.forall₂ {α β : Type} {R : α → β → Prop} {f : Node → Option α}
    {g : Node → Option β} {ns : List Node} {xs : List α} {ys : List β}
    (h : Corresponds R f g ns ns xs ys) : List.Forall₂ R xs ys := by
  rw [h.first,h.second]
  have hns : List.Forall₂ (fun n m => n = m ∧ n ∈ ns) ns ns :=
    List.forall₂_same.mpr fun _ hn => ⟨rfl,hn⟩
  refine List.rel_filterMap ?_ hns
  rintro n _ ⟨rfl,hn⟩
  exact h.each n hn

theorem flatMap_eq_filterMap {α : Type} {f : Node → List α} (h : ∀ n, (f n).length ≤ 1)
    (ns : List Node) : ns.flatMap f = ns.filterMap fun n => (f n).head? := by
  rw [List.filterMap_eq_flatMap_toList]
  refine List.flatMap_congr fun n _ => ?_
  have hn := h n
  cases hl : f n with
  | nil => rfl
  | cons x xs =>
    rw [hl,List.length_cons] at hn
    rw [List.eq_nil_of_length_eq_zero (by omega : xs.length = 0)]
    rfl

namespace NameSpace

theorem unresolved_perm {n n' : NameSpace} (h : ∀ s name, n.has s name = n'.has s name)
    {refs refs' : List (Symbol × String)} (hp : refs.Perm refs') :
    (n.unresolved refs).Perm (n'.unresolved refs') := by
  unfold unresolved
  simp only [h]
  exact ((eraseDups_perm hp).filter _).map _

end NameSpace

namespace Reading

theorem referencesOf_perm {root : Node} {children : List Node}
    (hp : children.Perm root.children) :
    (referencesOf root).Perm (referencesOf (root.withChildren children)) := by
  have hown : (root.withChildren children).ownReferences = root.ownReferences := rfl
  unfold referencesOf
  rw [Node.tag_withChildren]
  split
  · rw [Node.references_eq,Node.references_eq,hown,Node.allReferences_eq,Node.allReferences_eq]
    exact (hp.symm.flatMap_right _).append_left _
  · exact .nil

end Reading

namespace Contents

theorem sketches_ofNode (n : Node) :
    (ofNode n).forms.sketches = [] ∨ (ofNode n).forms = .allOf true n := by
  have hleaf (k : LeafKind) : (ofLeaf k n).forms.sketches = [] := by
    unfold ofLeaf
    split <;> rfl
  unfold ofNode
  split_ifs
  · exact .inr rfl
  · exact .inl rfl
  · exact .inl (hleaf .module)
  · exact .inl (hleaf .element)
  · exact .inl (hleaf .morphism)
  · exact .inl rfl

theorem length_top_le_one (n : Node) :
    ((ofNode n).forms.sketches.filter FormSketch.top).length ≤ 1 := by
  rcases sketches_ofNode n with hn | hn
  · simp [hn]
  · rw [hn]
    exact FormSketches.length_top_le_one n

theorem length_sketches_le_one (n : Node) : (ofNode n).sketches.length ≤ 1 := by
  have hleaf (k : LeafKind) : (ofLeaf k n).sketches = [] := by
    unfold ofLeaf
    split <;> rfl
  unfold ofNode
  split_ifs <;> simp [ofForm,ofDenotator,ofFaults,hleaf]

theorem fit_of_mem {ns : List Node} {f : FormSketch} (hf : f ∈ (ofNodes ns).forms.sketches)
    (hs : f.sound) : f.Fit := by
  obtain ⟨n,-,hf⟩ := List.mem_flatMap.mp hf
  rcases sketches_ofNode n with hn | hn
  · rw [hn] at hf
    cases hf
  · rw [hn] at hf
    obtain ⟨-,t,m,name,kind,rfl⟩ := FormSketches.of_mem_allOf hf
    exact FormSketch.fit_ofNode hs

end Contents

/-- A catalogue of issued forms and of sorted denotators of such. -/
structure Catalogue.Sound (c : Catalogue) (g : FormGraph) : Prop where
  forms : ∀ name id, c.forms.get? name = some id → g.contains id
  denotators : ∀ name d, c.denotators.get? name = some d →
    d.IsSorted ∧ ∀ n ∈ d.nodes, g.contains n.form

theorem Catalogue.Sound.rel_denotators {c : Catalogue} {g : FormGraph}
    {R : FormId → FormId → Prop} (h : c.Sound g) (hr : ∀ x, g.contains x → R x x) (name : String) :
    Option.Rel (Denotator.Matches R) (c.denotators.get? name) (c.denotators.get? name) :=
  Denotator.rel_get? (fun name d hd => ⟨(h.denotators name d hd).1,
    fun n hn => hr n.form ((h.denotators name d hd).2 n hn)⟩) name

theorem Repository.Reachable.catalogue {r : Repository} (h : r.Reachable) (consulted : Bool) :
    (Catalogue.ofRepository r consulted).Sound r.forms := by
  have hg := h.forms.sound
  cases consulted with
  | false => exact ⟨nofun,nofun⟩
  | true =>
    refine ⟨fun name id hid => ?_,fun name d hd => ⟨h.sorted name d hd,fun n hn => ?_⟩⟩
    · obtain ⟨f,hf,-⟩ := (hg.held name id).mp hid
      exact FormGraph.contains_of_get? hf
    · have hv := (h.catalogued name d hd).1
      obtain ⟨f,hf,-⟩ := (Denotator.valid_of_validate hg.namesUnique hv n hn).node
      exact FormGraph.contains_of_get? hf

namespace Definitions

section Reading
variable (v : Vocabulary) (c : Catalogue) (g : FormGraph) (d : Definitions)

def scope : LeafScope := ⟨v,some (Leaves.resolve v d).1.meanings⟩

def built : BuiltForms := .ofSketches (d.scope v) c g d.forms

def surroundings : Surroundings where
  graph := (d.built v c g).graph
  form? name := (Resolution.lookup .form c.forms.get? (d.built v c g).table name).value?
  leaves := d.scope v

def resolved : Resolution.Progress Denotator :=
  DenotatorDefinition.resolve (d.surroundings v c g) c.denotators.get? d.denotators

def attempt (s : DenotatorSketch) : Attempt Denotator :=
  s.build (d.surroundings v c g)
    (Resolution.lookup .denotator c.denotators.get? (d.resolved v c g).table)

end Reading

variable {v : Vocabulary} {c : Catalogue} {g : FormGraph} {d d' : Definitions}
  {R : FormId → FormId → Prop}

theorem top_built (v : Vocabulary) (c : Catalogue) (g : FormGraph) (d : Definitions) :
    (d.built v c g).top = d.forms.sketches.filterMap (d.built v c g).topOf? :=
  BuiltForms.top_eq _ _ _ _

theorem Reordered.resolve_leaves (h : Reordered d d') (v : Vocabulary) :
    Leaves.resolve v d = Leaves.resolve v d' := by
  have hm : d.modules = d'.modules := h.leaves .module
  have he : d.elements = d'.elements := h.leaves .element
  have hf : d.morphisms = d'.morphisms := h.leaves .morphism
  simp only [Leaves.resolve,hm,he,hf]

theorem Reordered.scope (h : Reordered d d') (v : Vocabulary) : d.scope v = d'.scope v := by
  rw [Definitions.scope,Definitions.scope,h.resolve_leaves]

theorem Reordered.has (h : Reordered d d') (c : Catalogue) (s : Symbol) (name : String) :
    NameSpace.has ⟨d,d.denotators,c⟩ s name = NameSpace.has ⟨d',d'.denotators,c⟩ s name := by
  cases s with
  | form =>
    have hnone : d.forms.named? name = none ↔ d'.forms.named? name = none := by
      rw [FormSketches.named?_eq_none_iff,FormSketches.named?_eq_none_iff]
      exact not_congr (h.forms.map _).mem_iff
    have hsome : (d.forms.named? name).isSome = (d'.forms.named? name).isSome := by
      rw [Bool.eq_iff_iff,Option.isSome_iff_ne_none,Option.isSome_iff_ne_none]
      exact not_congr hnone
    exact congrArg (· || _) hsome
  | denotator => exact congrArg (fun t => Table.contains t name || _) h.denotators
  | module => exact congrArg (Table.contains · name) (h.leaves .module)
  | element => exact congrArg (Table.contains · name) (h.leaves .element)
  | morphism => exact congrArg (Table.contains · name) (h.leaves .morphism)

theorem Reordered.twice_built (h : Reordered d d') (hg : g.Reachable) (hc : c.Sound g)
    (hf : ∀ f ∈ d.forms.sketches, f.sound → f.Fit) (v : Vocabulary) :
    ∃ R, BuiltForms.Twice g R (d.built v c g) (d'.built v c (d.built v c g).graph) := by
  unfold built
  rw [← h.scope]
  exact BuiltForms.twice_ofSketches hg hc.forms h.names hf h.forms

section Twice
variable (h : Reordered d d') (hc : c.Sound g)
  (ht : BuiltForms.Twice g R (d.built v c g) (d'.built v c (d.built v c g).graph))
include h hc ht

theorem Reordered.rel_surroundings :
    (d.surroundings v c g).Rel R (d'.surroundings v c (d.built v c g).graph) where
  twins := ht.twins
  form? name := by
    refine (Resolution.rel_lookup ht.table .form (fun name => ?_) name).value
    cases hid : c.forms.get? name with
    | none => exact .none
    | some id => exact .some (ht.old id (hc.forms name id hid))
  leaves := h.scope v

theorem Reordered.rel_resolved : (d.resolved v c g).Rel (Denotator.Matches R)
    (d'.resolved v c (d.built v c g).graph) := by
  rw [resolved,resolved,← h.denotators]
  exact DenotatorDefinition.rel_resolve (h.rel_surroundings hc ht) (hc.rel_denotators ht.old) _

theorem Reordered.rel_attempt (s : DenotatorSketch) : Attempt.Rel (Denotator.Matches R)
    (d.attempt v c g s) (d'.attempt v c (d.built v c g).graph s) :=
  DenotatorSketch.rel_build (h.rel_surroundings hc ht)
    (Resolution.rel_lookup (h.rel_resolved hc ht).table .denotator (hc.rel_denotators ht.old)) s

end Twice

end Definitions

theorem Reading.ofNode_eq (v : Vocabulary) (c : Catalogue) (root : Node) (r : Repository) :
    let d := Definitions.ofRoot root
    let top := d.sketches.map (d.attempt v c r.forms)
    Reading.ofNode v c root r =
      { forms := (d.built v c r.forms).top
        denotators := top.filterMap Attempt.value?
        symbols := ⟨Resolution.values (d.built v c r.forms).table,
          Resolution.values (d.resolved v c r.forms).table,
          Resolution.values (Leaves.resolve v d).1.modules,
          Resolution.values (Leaves.resolve v d).1.elements,
          Resolution.values (Leaves.resolve v d).1.morphisms⟩
        repository := {r with forms := (d.built v c r.forms).graph}
        reports := d.reports ++ NameSpace.unresolved ⟨d,d.denotators,c⟩ (referencesOf root) ++
          (Leaves.resolve v d).2 ++ (d.built v c r.forms).reports ++
          (d.resolved v c r.forms).reports ++ top.flatMap Attempt.reports } := by
  intro d top
  have htop : top = DenotatorSketch.buildAll (d.surroundings v c r.forms)
      (Resolution.lookup .denotator c.denotators.get? (d.resolved v c r.forms).table) d.sketches :=
    (DenotatorSketch.buildAll_eq _ _ _).symm
  rw [htop]
  rfl

def Reading.formAt? (v : Vocabulary) (c : Catalogue) (root : Node) (r : Repository) (n : Node) :
    Option FormId :=
  (Contents.ofNode n).forms.sketches.findSome? fun f =>
    (((Definitions.ofRoot root).built v c r.forms).topOf? f).map Prod.snd

def Reading.denotatorAt? (v : Vocabulary) (c : Catalogue) (root : Node) (r : Repository)
    (n : Node) : Option Denotator :=
  (Contents.ofNode n).sketches.findSome? fun s =>
    ((Definitions.ofRoot root).attempt v c r.forms s).value?

/-- What was read of a document, and later on of its nodes in another order. -/
structure Reading.Reordered (R : FormId → FormId → Prop) (p q : Reading) : Prop where
  similar : ∀ x y, R x y → q.repository.forms.Similar x y
  reports : p.reports.Perm q.reports
  modules : p.symbols.modules = q.symbols.modules
  elements : p.symbols.elements = q.symbols.elements
  morphisms : p.symbols.morphisms = q.symbols.morphisms
  forms : List.Forall₂ (fun x y => x.1 = y.1 ∧ R x.2 y.2) p.symbols.forms q.symbols.forms
  denotators : List.Forall₂ (fun x y => x.1 = y.1 ∧ x.2.Matches R y.2)
    p.symbols.denotators q.symbols.denotators

section Top
open Definitions Contents

theorem BuiltForms.map_top (b : BuiltForms) (ns : List Node) :
    ((ofNodes ns).forms.sketches.filterMap b.topOf?).map Prod.snd =
      ns.filterMap fun n =>
        (ofNode n).forms.sketches.findSome? fun f => (b.topOf? f).map Prod.snd := by
  have hlength (n : Node) :
      (((ofNode n).forms.sketches.filterMap b.topOf?).map Prod.snd).length ≤ 1 := by
    have htop : (ofNode n).forms.sketches.filterMap b.topOf? =
        ((ofNode n).forms.sketches.filter FormSketch.top).filterMap b.topOf? := by
      rw [List.filterMap_filter]
      refine List.filterMap_congr fun f _ => ?_
      unfold BuiltForms.topOf?
      split <;> rfl
    rw [List.length_map,htop]
    exact (List.length_filterMap_le _ _).trans (Contents.length_top_le_one n)
  simp only [ofNodes,List.filterMap_flatMap,List.map_flatMap]
  rw [flatMap_eq_filterMap hlength]
  simp only [List.head?_map,List.head?_filterMap,List.map_findSome?]
  rfl

theorem Contents.values_attempts (f : DenotatorSketch → Attempt Denotator) (ns : List Node) :
    ((ofNodes ns).sketches.map f).filterMap Attempt.value? =
      ns.filterMap fun n => (ofNode n).sketches.findSome? fun s => (f s).value? := by
  have hlength (n : Node) :
      (((ofNode n).sketches.map f).filterMap Attempt.value?).length ≤ 1 := by
    refine (List.length_filterMap_le _ _).trans ?_
    rw [List.length_map]
    exact length_sketches_le_one n
  simp only [ofNodes,List.map_flatMap,List.filterMap_flatMap]
  rw [flatMap_eq_filterMap hlength]
  simp only [List.head?_filterMap,List.findSome?_map]
  rfl

end Top

/-- Where no name clashes the order of the nodes does not matter. -/
theorem Reading.reordered_ofNode {v : Vocabulary} {c : Catalogue} {root : Node}
    {children : List Node} {r : Repository} (hg : r.forms.Reachable) (hc : c.Sound r.forms)
    (hp : children.Perm root.children) (hn : ¬ Clashes (Reading.ofNode v c root r).reports) :
    let root' := root.withChildren children
    let p := Reading.ofNode v c root r
    let q := Reading.ofNode v c root' p.repository
    let ns := Definitions.sources root
    let ms := Definitions.sources root'
    ∃ R, Reading.Reordered R p q ∧
      Corresponds R (formAt? v c root r) (formAt? v c root' p.repository) ns ms
        (p.forms.map Prod.snd) (q.forms.map Prod.snd) ∧
      Corresponds (Denotator.Matches R) (denotatorAt? v c root r)
        (denotatorAt? v c root' p.repository) ns ms p.denotators q.denotators := by
  intro root' p q ns ms
  have hdefs : ¬ Clashes (Definitions.ofRoot root).reports := by
    refine fun hclash => hn (hclash.mono ?_)
    rw [Reading.ofNode_eq]
    simp only [List.append_assoc]
    exact List.subset_append_left _ _
  obtain ⟨hd,hd',h⟩ := Definitions.reordered_ofRoot hp hdefs
  have hfit : ∀ f ∈ (Definitions.ofRoot root).forms.sketches, f.sound → f.Fit := by
    rw [hd.sketches_forms]
    exact fun f => Contents.fit_of_mem
  obtain ⟨R,ht⟩ := h.twice_built hg hc hfit v
  have hattempt := h.rel_attempt hc ht
  have hresolved := h.rel_resolved hc ht
  refine ⟨R,?_⟩
  dsimp only [p,q]
  rw [Reading.ofNode_eq v c root,Reading.ofNode_eq v c root']
  refine ⟨⟨ht.similar,?_,?_,?_,?_,Resolution.forall₂_values ht.table,
    Resolution.forall₂_values hresolved.table⟩,⟨?_,?_,fun n _ => rel_findSome? ht.rel_topOf? _⟩,
    ⟨?_,?_,fun n _ => rel_findSome? (fun s => (hattempt s).value) _⟩⟩
  · have hmissing := NameSpace.unresolved_perm (h.has c) (Reading.referencesOf_perm hp)
    have htop := fun s => (hattempt s).reports
    simp only [root',List.flatMap_map,htop,← h.resolve_leaves,hresolved.reports]
    refine ((((h.reports.append hmissing).append_right _).append ht.reports).append_right _).append
      ?_
    rw [hd.sketches,hd'.sketches]
    exact ((Definitions.sources_perm hp).flatMap_right _).flatMap_right _
  · rw [h.resolve_leaves]
  · rw [h.resolve_leaves]
  · rw [h.resolve_leaves]
  · rw [Definitions.top_built,hd.sketches_forms]
    exact BuiltForms.map_top _ _
  · rw [Definitions.top_built,hd'.sketches_forms]
    exact BuiltForms.map_top _ _
  · dsimp only
    rw [hd.sketches]
    exact Contents.values_attempts _ _
  · dsimp only
    rw [hd'.sketches]
    exact Contents.values_attempts _ _

theorem Catalogue.ofRepository_ofNode (v : Vocabulary) (c : Catalogue) (root : Node)
    (r : Repository) (consulted : Bool) :
    ofRepository (Reading.ofNode v c root r).repository consulted = ofRepository r consulted := by
  cases consulted with
  | false => rfl
  | true =>
    have hregistry := FormExtension.registry_ofPlans r.forms (FormPlan.ofSketches
      ((Definitions.ofRoot root).scope v) c (Definitions.ofRoot root).forms)
    exact congrArg (Catalogue.mk · r.denotators) hregistry

theorem Outcome.kept_ofReading (g : Reading) : (ofReading g none).errors.kept = g.reports := by
  simp [ofReading,ErrorLog.empty,ErrorLog.reportAll_of_unlimited]

theorem Reader.readNode_eq_reading {a : Reader} (hs : a.settings.registerDecoded = false)
    (hm : a.settings.maxErrors = none) (root : Node) (r : Repository) :
    let g := Reading.ofNode a.vocabulary (.ofRepository r a.settings.catalogFallback) root r
    (a.readNode root r).1 = Outcome.ofReading g none ∧
      (a.readNode root r).2.2 = g.repository := by
  simp [readNode,Outcome.ofNode,hs,hm]

def Reader.formAt? (a : Reader) (root : Node) (r : Repository) : Node → Option FormId :=
  Reading.formAt? a.vocabulary (.ofRepository r a.settings.catalogFallback) root r

def Reader.denotatorAt? (a : Reader) (root : Node) (r : Repository) : Node → Option Denotator :=
  Reading.denotatorAt? a.vocabulary (.ofRepository r a.settings.catalogFallback) root r

/-- A document whose nodes are read again in another order reports the same errors and defines equal
forms and denotators, with the same ones at the top level. -/
theorem Reader.readNode_reordered {a : Reader} {r : Repository} {root : Node}
    {children : List Node} (hr : r.Reachable) (hs : a.settings.registerDecoded = false)
    (hm : a.settings.maxErrors = none) (hp : children.Perm root.children)
    (hn : ∀ s name, .duplicateName s name ∉ (a.readNode root r).1.errors.kept) :
    let root' := root.withChildren children
    let first := a.readNode root r
    let second := first.2.1.readNode root' first.2.2
    let o := first.1
    let o' := second.1
    let g := second.2.2.forms
    let ns := Definitions.sources root
    let ms := Definitions.sources root'
    o.errors.kept.Perm o'.errors.kept ∧
    o.symbols.modules = o'.symbols.modules ∧ o.symbols.elements = o'.symbols.elements ∧
    o.symbols.morphisms = o'.symbols.morphisms ∧
    List.Forall₂ (fun x y => x.1 = y.1 ∧ g.sameForm x.2 y.2) o.symbols.forms o'.symbols.forms ∧
    List.Forall₂ (fun x y => x.1 = y.1 ∧ x.2.equals g y.2)
      o.symbols.denotators o'.symbols.denotators ∧
    Corresponds (fun x y => g.sameForm x y) (a.formAt? root r)
      (first.2.1.formAt? root' first.2.2) ns ms o.forms o'.forms ∧
    Corresponds (fun x y => x.equals g y) (a.denotatorAt? root r)
      (first.2.1.denotatorAt? root' first.2.2) ns ms o.denotators o'.denotators := by
  intro root' first second o o' g ns ms
  set c := Catalogue.ofRepository r a.settings.catalogFallback
  obtain ⟨ho,hr₁⟩ := readNode_eq_reading hs hm root r
  have hcat : Catalogue.ofRepository first.2.2 a.settings.catalogFallback = c :=
    hr₁ ▸ Catalogue.ofRepository_ofNode a.vocabulary c root r _
  obtain ⟨ho',hr₂⟩ := @readNode_eq_reading first.2.1 hs hm root' first.2.2
  have hclash : ¬ Clashes (Reading.ofNode a.vocabulary c root r).reports := by
    rintro ⟨s,name,hmem⟩
    refine hn s name ?_
    rw [ho,Outcome.kept_ofReading]
    exact hmem
  obtain ⟨R,hre,htop,htops⟩ := Reading.reordered_ofNode hr.forms (hr.catalogue _) hp hclash
  set p := Reading.ofNode a.vocabulary c root r
  set q := Reading.ofNode a.vocabulary c root' p.repository
  have hq : Reading.ofNode a.vocabulary
      (.ofRepository first.2.2 a.settings.catalogFallback) root' first.2.2 = q := by
    rw [hcat,hr₁]
  have hformAt : first.2.1.formAt? root' first.2.2 =
      Reading.formAt? a.vocabulary c root' p.repository := by
    rw [← hr₁,← hcat]
    rfl
  have hdenotatorAt : first.2.1.denotatorAt? root' first.2.2 =
      Reading.denotatorAt? a.vocabulary c root' p.repository := by
    rw [← hr₁,← hcat]
    rfl
  have hu : q.repository.forms.NamesUnique := by
    have hfirst := (Repository.follows_ofNode a.vocabulary c root r).forms.reachable hr.forms
    exact ((Repository.follows_ofNode a.vocabulary c _ p.repository).forms.reachable
      hfirst).sound.namesUnique
  have hform {x y : FormId} (hxy : R x y) : q.repository.forms.sameForm x y :=
    (FormGraph.sameForm_iff_similar hu x y).mpr (hre.similar x y hxy)
  have hden {x y : Denotator} (hxy : x.Matches R y) : x.equals q.repository.forms y :=
    (Denotator.equals_iff_alike hu x y).mpr (hxy.alike hre.similar)
  have ho : o = Outcome.ofReading p none := ho
  have ho' : o' = Outcome.ofReading q none := hq ▸ ho'
  have hg : g = q.repository.forms := congrArg Repository.forms (hq ▸ hr₂)
  clear_value o o' g
  subst ho ho' hg
  rw [hformAt,hdenotatorAt]
  refine ⟨?_,hre.modules,hre.elements,hre.morphisms,
    hre.forms.imp fun _ _ h => ⟨h.1,hform h.2⟩,hre.denotators.imp fun _ _ h => ⟨h.1,hden h.2⟩,
    htop.mono fun _ _ => hform,htops.mono fun _ _ => hden⟩
  rw [Outcome.kept_ofReading,Outcome.kept_ofReading]
  exact hre.reports

/-- A chord before its form and its only member, and a denotator of a form that is nowhere. -/
def Node.chords : Node :=
  let denotator (type form : String) :=
    ((leaf "Denotator").withAttr "type" type).withAttr "form" form
  let value := ((leaf "ModuleElement").withAttr "type" "ZElement").withAttr "value" "60"
  (leaf "Document").withChildren
    [(denotator "Power" "Chord").withChildren [reference "Denotator" "Tonic"],
      ((denotator "Simple" "Pitch").withAttr "name" "Tonic").withChildren
        [((leaf "Map").withAttr "type" "ConstantMap").withChildren [value]],
      (((leaf "Form").withAttr "name" "Chord").withAttr "type" "Power").withChildren
        [reference "Form" "Pitch"],
      denotator "Simple" "Rhythm"]

def Repository.pitches : Repository := empty.run [.add "Pitch" (.simple .z),.registerForm ⟨0⟩]

/-- The other way round the chord comes after its form and its member. -/
theorem Reader.readNode_chords :
    let chords := Node.chords.withChildren Node.chords.children.reverse
    let first := default.readNode .chords .pitches
    let second := first.2.1.readNode chords first.2.2
    let g := second.2.2.forms
    first.1.errors.kept = [.unresolvedReference .form "Rhythm"] ∧
    first.1.errors.kept.Perm second.1.errors.kept ∧
    first.1.symbols.denotators.map Prod.fst = ["Tonic"] ∧
    List.Forall₂ (fun x y => x.1 = y.1 ∧ x.2.equals g y.2)
      first.1.symbols.denotators second.1.symbols.denotators ∧
    first.1.forms.length = 1 ∧
    Corresponds (fun x y => g.sameForm x y) (default.formAt? .chords .pitches)
      (first.2.1.formAt? chords first.2.2) (Definitions.sources .chords)
      (Definitions.sources chords) first.1.forms second.1.forms ∧
    first.1.denotators.length = 2 ∧
    Corresponds (fun x y => x.equals g y) (default.denotatorAt? .chords .pitches)
      (first.2.1.denotatorAt? chords first.2.2) (Definitions.sources .chords)
      (Definitions.sources chords) first.1.denotators second.1.denotators := by
  intro chords first second g
  have hkept : first.1.errors.kept = [.unresolvedReference .form "Rhythm"] := by cbv
  obtain ⟨herrors,-,-,-,-,hdenotators,htop,htops⟩ := @readNode_reordered default .pitches .chords
    Node.chords.children.reverse ⟨_,rfl⟩ rfl rfl (List.reverse_perm _) (by
      intro s name hmem
      have hmem : ReadError.duplicateName s name ∈ first.1.errors.kept := hmem
      rw [hkept] at hmem
      simp at hmem)
  exact ⟨hkept,herrors,by cbv,hdenotators,by cbv,htop,by cbv,htops⟩

end AddressedForms
