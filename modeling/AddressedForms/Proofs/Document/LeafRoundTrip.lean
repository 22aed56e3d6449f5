import AddressedForms.Proofs.Document.DenotatorRoundTrip
import AddressedForms.Proofs.Document.Settling
import AddressedForms.Proofs.Document.Sources
set_option autoImplicit false

/-!
The round trip of leaves. What is defined under distinct names is read without errors, and the names
stand for just what they were given to, although no definition spells out inside it what was named
before.
-/

namespace AddressedForms

def Entry.leafName? : Entry → Option (Symbol × String)
  | .module name _ => some (.module,name)
  | .element name _ => some (.element,name)
  | .morphism name _ => some (.morphism,name)
  | .form _ | .denotator _ => none

/-- A node that gives the value of an entry, and not by its name. -/
def Node.Spells (s : LeafScope) (n : Node) : Entry → Prop
  | .module _ x => n.tag = "Module" ∧ Module.ofNode s n = .success x
  | .element _ x => n.tag = "ModuleElement" ∧ Element.ofNode s n = .success x
  | .morphism _ f => n.tag = "ModuleMorphism" ∧ Morphism.ofNode s n = .success f
  | .form _ | .denotator _ => False

/-- What stands inside a leaf when some names are given: a name, or a value that has none. -/
inductive NamedLeaves.Spares (names : NamedLeaves) : Node → Prop
  | reference (tag name : String) : Spares names (.reference tag name)
  | module {x : Module} (hp : x.isProper) (h : ∀ name, (x,name) ∉ names.modules) :
    Spares names (x.body names)
  | element {x : Element} (hp : x.isProper) (h : ∀ name, (x,name) ∉ names.elements) :
    Spares names (x.body names)
  | morphism {f : Morphism} (hp : f.isProper) (h : ∀ name, (f,name) ∉ names.morphisms) :
    Spares names (f.body names)

section Spares
variable {names : NamedLeaves} {c : Node}

theorem NamedLeaves.Writes.spares {α : Type} {tag : String} {es : List (α × String)} {x : α}
    {body n : Node} (h : Writes tag es x body n)
    (hb : (∀ name, (x,name) ∉ es) → names.Spares body) : names.Spares n := by
  cases h with
  | named => exact .reference _ _
  | spelled hnew => exact hb hnew

theorem Module.spares_node {x : Module} (h : x.isProper) : names.Spares (x.node names) :=
  (writes_node names x).spares (.module h)

theorem Element.spares_node {x : Element} (h : x.isProper) : names.Spares (x.node names) :=
  (writes_node names x).spares (.element h)

theorem Morphism.spares_node {f : Morphism} (h : f.isProper) : names.Spares (f.node names) :=
  (writes_node names f).spares (.morphism h)

theorem Module.spares_nodes {fs : List Module} (h : allProper fs) (hc : c ∈ nodes names fs) :
    names.Spares c := by
  induction fs with
  | nil => simp [nodes] at hc
  | cons f fs ih =>
    simp only [allProper,Bool.and_eq_true] at h
    rcases List.mem_cons.mp hc with rfl | hc
    · exact spares_node h.1
    · exact ih h.2 hc

theorem Element.spares_nodes {xs : List Element} (h : allProper xs) (hc : c ∈ nodes names xs) :
    names.Spares c := by
  induction xs with
  | nil => simp [nodes] at hc
  | cons x xs ih =>
    simp only [allProper,Bool.and_eq_true] at h
    rcases List.mem_cons.mp hc with rfl | hc
    · exact spares_node h.1
    · exact ih h.2 hc

theorem Module.spares_children {x : Module} (h : x.isProper) (hc : c ∈ (x.body names).children) :
    names.Spares c := by
  rw [children_body] at hc
  cases x with
  | product fs => exact spares_nodes h hc
  | _ => simp at hc

theorem Element.spares_children {x : Element} (h : x.isProper)
    (hc : c ∈ (x.body names).children) : names.Spares c := by
  rw [children_body] at hc
  cases x with
  | product xs => exact spares_nodes h hc
  | _ => simp at hc

theorem Morphism.spares_children {f : Morphism} (h : f.isProper)
    (hc : c ∈ (f.body names).children) : names.Spares c := by
  rw [children_body] at hc
  cases f with
  | constant d x =>
    simp only [isProper,Bool.and_eq_true,List.mem_cons,List.not_mem_nil,or_false] at h hc
    rcases hc with rfl | rfl
    · exact Module.spares_node h.1
    · exact Element.spares_node h.2
  | identity m =>
    rw [List.mem_singleton.mp hc]
    exact Module.spares_node h
  | affine k a b =>
    simp only [isProper,Bool.and_eq_true,List.mem_cons,List.not_mem_nil,or_false] at h hc
    rcases hc with rfl | rfl | rfl
    · exact Module.spares_node h.2.1.1
    · exact Element.spares_node h.2.1.2
    · exact Element.spares_node h.2.2
  | embedding d k =>
    simp only [isProper,Bool.and_eq_true,List.mem_cons,List.not_mem_nil,or_false] at h hc
    rcases hc with rfl | rfl
    · exact Module.spares_node h.2.1
    · exact Module.spares_node h.2.2
  | composition f e =>
    simp only [isProper,Bool.and_eq_true,List.mem_cons,List.not_mem_nil,or_false] at h hc
    rcases hc with rfl | rfl
    · exact spares_node h.2.1
    · exact spares_node h.2.2

theorem NamedLeaves.Spares.inside {n : Node} (h : names.Spares c) (hn : c.Inside n) :
    names.Spares n := by
  induction hn with
  | root => exact h
  | child _ hc ih =>
    cases ih with
    | reference => simp at hc
    | module hp => exact Module.spares_children hp hc
    | element hp => exact Element.spares_children hp hc
    | morphism hp => exact Morphism.spares_children hp hc

end Spares

theorem BuiltForms.ofSketches_of_eq_nil (l : LeafScope) (c : Catalogue) (g : FormGraph)
    {s : FormSketches} (h : s.sketches = []) : ofSketches l c g s = ⟨g,.empty,[],[]⟩ := by
  have hprune : FormPlan.prune [] = [] := List.sublist_nil.mp (FormPlan.prune_sublist [])
  simp [ofSketches,h,hprune,FormExtension.ofPlans,Table.ofList]

theorem DenotatorDefinition.resolve_empty (env : Surroundings)
    (outside : String → Option Denotator) : resolve env outside .empty = ⟨.empty,[]⟩ := rfl

theorem Resolution.mem_values_iff {α : Type} {s : Symbol} {t : Table (Resolution α)}
    {named : List (α × String)}
    (hl : ∀ x name, (x,name) ∈ named → lookup s Leaves.nowhere t name = .success x)
    (hk : ∀ name r, t.get? name = some r → name ∈ named.map Prod.snd) (name : String) (x : α) :
    (name,x) ∈ values t ↔ (x,name) ∈ named := by
  refine ⟨fun h => ?_,fun h => mem_values (Leaves.get?_of_lookup (hl x name h))⟩
  have hget := get?_of_mem_values h
  obtain ⟨⟨y,name⟩,hy,rfl⟩ := List.mem_map.mp (hk name _ hget)
  have hy' := Leaves.get?_of_lookup (hl y name hy)
  cases hget.symm.trans hy'
  exact hy

namespace Manuscript
variable {g : FormGraph} {es : List Entry} {m k : Manuscript} {e : Entry}

theorem not_spells_of_spares {l : LeafMeanings} (hl : l.Knows m.names) {n : Node}
    (h : m.names.Spares n) (hr : n.reference? = none) (he : m.Has e) :
    ¬ n.Spells (.builtin l) e := by
  intro hs
  cases h with
  | reference => simp at hr
  | @module x hp hnew =>
    have hread : Module.ofNode (.builtin l) (x.body m.names) = .success x :=
      Module.ofNode_body hp fun y name hy _ => hl.modules y name hy
    cases e with
    | module name y =>
      cases hread.symm.trans hs.2
      exact hnew name he
    | element | morphism => simp [Node.Spells] at hs
    | form | denotator => exact hs
  | @element x hp hnew =>
    have hread : Element.ofNode (.builtin l) (x.body m.names) = .success x :=
      Element.ofNode_body hp fun y name hy _ => hl.elements y name hy
    cases e with
    | element name y =>
      cases hread.symm.trans hs.2
      exact hnew name he
    | module | morphism => simp [Node.Spells] at hs
    | form | denotator => exact hs
  | @morphism f hp hnew =>
    have hread : Morphism.ofNode (.builtin l) (f.body m.names) = .success f :=
      Morphism.ofNode_body hl.modules hl.elements hp fun y name hy _ => hl.morphisms y name hy
    cases e with
    | morphism name y =>
      cases hread.symm.trans hs.2
      exact hnew name he
    | module | element => simp [Node.Spells] at hs
    | form | denotator => exact hs

/-- The definition of a leaf has one child, and inside that all names are used that there are. -/
theorem Step.spares (hs : Step m e k) (hl : e.leafName?.isSome) (hp : e.leafIsProper) {n b c : Node}
    (hn : k.nodes = m.nodes ++ [n]) (hb : b ∈ n.children) (hc : c ∈ b.children) :
    m.names.Spares c := by
  cases hs with
  | form | named | anonymous => simp [Entry.leafName?] at hl
  | module hnew =>
    obtain rfl : definition _ _ _ = n := by simpa [push] using hn
    rw [show b = _ from by simpa [definition] using hb] at hc
    exact Module.spares_children hp hc
  | element hnew =>
    obtain rfl : definition _ _ _ = n := by simpa [push] using hn
    rw [show b = _ from by simpa [definition] using hb] at hc
    exact Element.spares_children hp hc
  | morphism hnew =>
    obtain rfl : definition _ _ _ = n := by simpa [push] using hn
    rw [show b = _ from by simpa [definition] using hb] at hc
    exact Morphism.spares_children hp hc

theorem exists_step_of_leaf {r : Symbol × String} (hl : e.leafName? = some r)
    (hnew : r ∉ m.defined) : ∃ k, m.write e = (.ok (),k) ∧ Step m e k ∧
      k.defined = r :: m.defined := by
  cases e with
  | form | denotator => cases hl
  | module name x =>
    cases hl
    exact ⟨_,by simp [write,Entry.expand,enterAll,enter,enterModule,claimName,hnew]; rfl,
      .module hnew,rfl⟩
  | element name x =>
    cases hl
    exact ⟨_,by simp [write,Entry.expand,enterAll,enter,enterElement,claimName,hnew]; rfl,
      .element hnew,rfl⟩
  | morphism name f =>
    cases hl
    exact ⟨_,by simp [write,Entry.expand,enterAll,enter,enterMorphism,claimName,hnew]; rfl,
      .morphism hnew,rfl⟩

/-- Run lemma: leaves under distinct new names are all written, each once. -/
theorem Compiled.exists_writeAll_leaves (h : Compiled g es m) {asked : List Entry}
    (hl : ∀ e ∈ asked, e.leafName?.isSome) (hn : (asked.map Entry.leafName?).Nodup)
    (hnew : ∀ e ∈ asked, ∀ r, e.leafName? = some r → r ∉ m.defined) :
    ∃ k, m.writeAll asked = .ok k ∧ Compiled g (es ++ asked) k := by
  induction asked generalizing es m with
  | nil => exact ⟨m,rfl,by simpa using h⟩
  | cons e asked ih =>
    obtain ⟨r,hr⟩ := Option.isSome_iff_exists.mp (hl e List.mem_cons_self)
    obtain ⟨j,hj,hs,hdefined⟩ := exists_step_of_leaf hr (hnew e List.mem_cons_self r hr)
    obtain ⟨hfirst,hrest⟩ := List.nodup_cons.mp hn
    obtain ⟨k,hk,hc⟩ := ih (h.snoc hs) (fun a ha => hl a (List.mem_cons_of_mem _ ha)) hrest
      fun a ha q hq => by
        rw [hdefined,List.mem_cons,not_or]
        refine ⟨fun he => hfirst ?_,hnew a (List.mem_cons_of_mem _ ha) q hq⟩
        exact List.mem_map.mpr ⟨a,ha,by rw [hq,hr,he]⟩
    exact ⟨k,by simp [writeAll,hj,hk],by simpa using hc⟩

theorem Compiled.has_leaf_iff (h : Compiled g es m) (hl : e.leafName?.isSome) :
    m.Has e ↔ e ∈ es := by
  refine ⟨fun he => ?_,h.has⟩
  induction h with
  | empty => cases e <;> simp [Has,Manuscript.empty,NamedLeaves.empty,Entry.leafName?] at he hl
  | @snoc es m k a hm hs ih =>
    rw [List.mem_append,List.mem_singleton]
    cases hs with
    | form | named | anonymous =>
      cases e with
      | form | denotator => cases hl
      | module | element | morphism => exact .inl (ih he)
    | module | element | morphism =>
      cases e with
      | form | denotator => cases hl
      | module | element | morphism =>
        first
        | exact .inl (ih he)
        | rcases List.mem_cons.mp he with he | he
          · cases he
            exact .inr rfl
          · exact .inl (ih he)

theorem Compiled.withForms (h : Compiled g es m) (hl : ∀ e ∈ es, e.leafName?.isSome)
    (g' : FormGraph) : Compiled g' es {m with forms := g'} := by
  induction h with
  | empty => exact .empty
  | @snoc es m k e hm hs ih =>
    have ih := ih fun a ha => hl a (List.mem_append_left _ ha)
    have he := hl e (by simp)
    refine ih.snoc ?_
    cases hs with
    | form | named | anonymous => cases he
    | module hnew => exact .module hnew
    | element hnew => exact .element hnew
    | morphism hnew => exact .morphism hnew

theorem Compiled.written (h : Compiled g es m) (hl : ∀ e ∈ es, e.leafName?.isSome) :
    Written g es es m where
  compiled := h
  complete := {
    forms := fun id hid => by cases hl _ hid
    denotators := fun d hd => by cases hl _ hd }
  due e he := ⟨e,he,by
    have := hl e he
    cases e with
    | form | denotator => cases this
    | module | element | morphism => simp [Entry.expand]⟩
  has a ha e he := by
    have := hl a ha
    cases a with
    | form | denotator => cases this
    | module | element | morphism => exact h.has (List.mem_singleton.mp he ▸ ha)
  anonymous := rfl

theorem Compiled.reading_leaves (h : Compiled g es m) (hg : g.Sound)
    (hl : ∀ e ∈ es, e.leafName?.isSome) (hp : ∀ e ∈ es, e.leafIsProper) (c : Catalogue)
    (r : Repository) : Reading.ofNode .builtins c m.node r =
      ⟨[],[],⟨[],[],Resolution.values m.leaves.modules,Resolution.values m.leaves.elements,
        Resolution.values m.leaves.morphisms⟩,r,[]⟩ := by
  have hd := h.gathered hg
  have hw := h.written hl
  have hforms : es.filterMap Entry.form? = [] := by
    rw [List.filterMap_eq_nil_iff]
    intro e he
    have := hl e he
    cases e <;> first | rfl | cases this
  have hdenotators : es.filterMap Entry.denotator? = [] := by
    rw [List.filterMap_eq_nil_iff]
    intro e he
    have := hl e he
    cases e <;> first | rfl | cases this
  have hsketches : m.definitions.forms.sketches = [] :=
    List.forall₂_nil_left_iff.mp (hforms ▸ hd.forms)
  have htop : m.definitions.sketches = [] :=
    List.forall₂_nil_left_iff.mp (hdenotators ▸ hd.sketches)
  have hnamed : m.definitions.denotators = .empty := by
    rw [Definitions.denotators,htop]
    rfl
  have hmissing := hw.unresolved_eq_nil hd c
  rw [hnamed] at hmissing
  have hleaves := (hd.resolve (hw.proper hp)).1
  rw [Reading.ofNode,ofRoot_node]
  simp only [BuiltForms.ofSketches_of_eq_nil _ _ _ hsketches,htop,hnamed,
    DenotatorDefinition.resolve_empty,hmissing,hd.reports,hleaves]
  rfl

theorem Gathered.mem_values_iff (h : Gathered es m m.definitions) (hp : m.names.Proper) :
    (∀ name x, (name,x) ∈ Resolution.values m.leaves.modules ↔ (x,name) ∈ m.names.modules) ∧
    (∀ name x, (name,x) ∈ Resolution.values m.leaves.elements ↔ (x,name) ∈ m.names.elements) ∧
    ∀ name f, (name,f) ∈ Resolution.values m.leaves.morphisms ↔ (f,name) ∈ m.names.morphisms := by
  have hknows := (h.resolve hp).2
  have keys {α : Type} {t : Table Node} {named : List (α × String)}
      (ht : ∀ name, t.contains name ↔ name ∈ named.map Prod.snd) {s : Symbol}
      {next : String → List String} {build : Table (Resolution α) → String → Attempt α}
      (name : String) (r : Resolution α)
      (hr : (Resolution.settleAll s t.keys next build).table.get? name = some r) :
      name ∈ named.map Prod.snd := by
    rw [← ht,Table.contains_iff_mem_keys]
    exact (Resolution.through_settleAll s).mem_names hr
  exact ⟨Resolution.mem_values_iff hknows.modules (keys h.modules.keys),
    Resolution.mem_values_iff hknows.elements (keys h.elements.keys),
    Resolution.mem_values_iff hknows.morphisms (keys h.morphisms.keys)⟩

end Manuscript

/-- Leaves of distinct names in each family are written and read back without errors: the names then
stand for just the values that they were given to, although no definition spells out inside it a
value that was named before. -/
theorem Reader.readNode_leafDefinitions {a : Reader} {r : Repository} {g : FormGraph}
    {asked : List Entry} (ha : a.vocabulary = .builtins) (hl : ∀ e ∈ asked, e.leafName?.isSome)
    (hn : (asked.map Entry.leafName?).Nodup) (hp : ∀ e ∈ asked, e.leafIsProper) :
    ∃ m, (Manuscript.empty g).writeAll asked = .ok m ∧
    let o := (a.readNode m.node r).1
    o.isSuccess ∧
    (∀ name x, (name,x) ∈ o.symbols.modules ↔ .module name x ∈ asked) ∧
    (∀ name x, (name,x) ∈ o.symbols.elements ↔ .element name x ∈ asked) ∧
    (∀ name f, (name,f) ∈ o.symbols.morphisms ↔ .morphism name f ∈ asked) ∧
    (o.symbols.modules.map Prod.fst).Nodup ∧ (o.symbols.elements.map Prod.fst).Nodup ∧
    (o.symbols.morphisms.map Prod.fst).Nodup ∧
    ∀ before n after, m.nodes = before ++ n :: after → ∀ b ∈ n.children, ∀ c ∈ b.children,
      ∀ d, c.Inside d → d.reference? = none → ∀ e ∈ asked.take before.length,
        ¬ d.Spells (.builtin m.leaves.meanings) e := by
  obtain ⟨m,hw,hm⟩ := Manuscript.Compiled.empty.exists_writeAll_leaves (g := g) hl hn
    (by simp [Manuscript.empty])
  rw [List.nil_append] at hm
  refine ⟨m,hw,?_⟩
  -- Forms play no part, so the manuscript is the one over no forms at all.
  have hsound := FormGraph.sound_empty
  have hfree := hm.withForms hl .empty
  have hgathered := hfree.gathered hsound
  have hproper := hfree.proper hp
  have hknows : m.leaves.meanings.Knows m.names := (hgathered.resolve hproper).2
  obtain ⟨hmodules,helements,hmorphisms⟩ := hgathered.mem_values_iff hproper
  have hread : Reading.ofNode .builtins (.ofRepository r a.settings.catalogFallback) m.node r = _ :=
    hfree.reading_leaves hsound hl hp _ r
  have ho : (a.readNode m.node r).1 = .ofReading ⟨[],[],⟨[],[],Resolution.values m.leaves.modules,
      Resolution.values m.leaves.elements,Resolution.values m.leaves.morphisms⟩,r,[]⟩
      a.settings.maxErrors := by
    simp only [Reader.readNode,Outcome.ofNode,ha,hread]
    split <;> rfl
  rw [ho]
  refine ⟨(Manuscript.isSuccess_ofReading_iff _ _).mpr rfl,
    fun name x => (hmodules name x).trans (hm.has_leaf_iff (e := .module name x) rfl),
    fun name x => (helements name x).trans (hm.has_leaf_iff (e := .element name x) rfl),
    fun name f => (hmorphisms name f).trans (hm.has_leaf_iff (e := .morphism name f) rfl),
    Resolution.nodup_values _,Resolution.nodup_values _,Resolution.nodup_values _,?_⟩
  intro before n after hnodes b hb c hc d hd href e he
  obtain ⟨as,x,bs,j,k,rfl,hj,hs,rfl,hk,hprecedes⟩ := hm.split hnodes
  have hx : x ∈ as ++ x :: bs := by simp
  have hspares := (hs.spares (hl x hx) (hp x hx) hk hb hc).inside hd
  rw [hj.length_nodes,List.take_left' rfl] at he
  exact Manuscript.not_spells_of_spares
    (hknows.mono (hs.precedes.within.trans hprecedes.within)) hspares href (hj.has he)

def Entry.fifths : List Entry :=
  let step := .affine (.zn 12) (.zn 1 12) (.zn 7 12)
  [.module "Tones" (.zn 12),.element "Fifth" (.zn 7 12),.morphism "Step" step,
    .module "Pairs" (.product [.zn 12,.zn 12]),.morphism "Twice" (.composition step step)]

/-- The second step of the circle is read back, although it is written by the name of the first. -/
theorem Reader.readNode_fifths : ∃ m, (Manuscript.empty .scores).writeAll Entry.fifths = .ok m ∧
    let o := (default.readNode m.node ⟨.empty,.empty⟩).1
    let step := .affine (.zn 12) (.zn 1 12) (.zn 7 12)
    o.isSuccess ∧ ("Pairs",.product [.zn 12,.zn 12]) ∈ o.symbols.modules ∧
    ("Twice",.composition step step) ∈ o.symbols.morphisms := by
  obtain ⟨m,hw,hclean,hmodules,-,hmorphisms,-⟩ := @readNode_leafDefinitions default
    ⟨.empty,.empty⟩ .scores Entry.fifths rfl (by simp [Entry.fifths,Entry.leafName?])
    (by simp [Entry.fifths,Entry.leafName?]) (by decide)
  exact ⟨m,hw,hclean,(hmodules _ _).mpr (by simp [Entry.fifths]),
    (hmorphisms _ _).mpr (by simp [Entry.fifths])⟩

end AddressedForms
