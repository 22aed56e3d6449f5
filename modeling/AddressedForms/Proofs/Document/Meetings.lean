import AddressedForms.Document.Reader
import AddressedForms.Proofs.Document.Congruence
import AddressedForms.Proofs.Document.Settling
import AddressedForms.Proofs.Document.Sources
set_option autoImplicit false

/-!
Building never meets a definition that is not settled. What such a meeting would come to is left
open here: it may be taken for a circle, or the definition may be built on the spot. Reading comes
to the same, so there are no meetings.
-/

namespace AddressedForms

/-- What looking up a name comes to when its definition is being built, or has not been begun. -/
structure Meeting where
  module : Table (Resolution Module) → String → Attempt Module
  element : Table (Resolution Element) → String → Attempt Element
  morphism : Table (Resolution Morphism) → String → Attempt Morphism
  denotator : Table (Resolution Denotator) → String → Attempt Denotator

namespace Meeting

/-- A definition that is met is taken for a circle. -/
def circle : Meeting where
  module _ name := .failure (.cyclic .module name)
  element _ name := .failure (.cyclic .element name)
  morphism _ name := .failure (.cyclic .morphism name)
  denotator _ name := .failure (.cyclic .denotator name)

end Meeting

namespace Resolution
variable {α : Type}

def lookupOr (meet : Table (Resolution α) → String → Attempt α) (outside : String → Option α)
    (t : Table (Resolution α)) (name : String) : Attempt α :=
  match t.get? name with
  | none => .ofOption (outside name)
  | some (.value x) => .success x
  | some .failed => .silent
  | some .pending => meet t name

theorem lookupOr_eq {meet : Table (Resolution α) → String → Attempt α} {t : Table (Resolution α)}
    {name : String} (h : t.get? name ≠ some .pending) (s : Symbol)
    (outside : String → Option α) : lookupOr meet outside t name = lookup s outside t name := by
  unfold lookupOr lookup
  generalize t.get? name = x at h
  cases x with
  | none => rfl
  | some x =>
    cases x with
    | pending => exact absurd rfl h
    | failed | value => rfl

end Resolution

section
variable (m : Meeting)

namespace Leaves

def meaningsOr (l : Leaves) : LeafMeanings where
  module := Resolution.lookupOr m.module nowhere l.modules
  element := Resolution.lookupOr m.element nowhere l.elements
  morphism := Resolution.lookupOr m.morphism nowhere l.morphisms

def resolveModulesOr (v : Vocabulary) (defs : Table Node) : Resolution.Progress Module :=
  Resolution.settleAll .module defs.keys (uses "Module" defs) fun t =>
    let l := meaningsOr m ⟨t,.empty,.empty⟩
    build defs l.module (Module.ofNode ⟨v,some l⟩)

def resolveElementsOr (v : Vocabulary) (defs : Table Node)
    (modules : Table (Resolution Module)) : Resolution.Progress Element :=
  Resolution.settleAll .element defs.keys (uses "ModuleElement" defs) fun t =>
    let l := meaningsOr m ⟨modules,t,.empty⟩
    build defs l.element (Element.ofNode ⟨v,some l⟩)

def resolveMorphismsOr (v : Vocabulary) (defs : Table Node)
    (modules : Table (Resolution Module)) (elements : Table (Resolution Element)) :
    Resolution.Progress Morphism :=
  Resolution.settleAll .morphism defs.keys (uses "ModuleMorphism" defs) fun t =>
    let l := meaningsOr m ⟨modules,elements,t⟩
    build defs l.morphism (Morphism.ofNode ⟨v,some l⟩)

def resolveOr (v : Vocabulary) (defs : Definitions) : Leaves × List ReadError :=
  let ms := resolveModulesOr m v defs.modules
  let es := resolveElementsOr m v defs.elements ms.table
  let fs := resolveMorphismsOr m v defs.morphisms ms.table es.table
  (⟨ms.table,es.table,fs.table⟩,ms.reports ++ es.reports ++ fs.reports)

end Leaves

def DenotatorDefinition.resolveOr (env : Surroundings) (outside : String → Option Denotator)
    (defs : Table DenotatorDefinition) : Resolution.Progress Denotator :=
  Resolution.settleAll .denotator defs.keys (uses defs) fun t =>
    build env (Resolution.lookupOr m.denotator outside t) defs

def Reading.ofNodeOr (v : Vocabulary) (c : Catalogue) (root : Node) (r : Repository) : Reading :=
  let defs := Definitions.ofRoot root
  let dens := defs.denotators
  let missing := NameSpace.unresolved ⟨defs,dens,c⟩ (referencesOf root)
  let (leaves,leafReports) := Leaves.resolveOr m v defs
  let scope : LeafScope := ⟨v,some (leaves.meaningsOr m)⟩
  let forms := BuiltForms.ofSketches scope c r.forms defs.forms
  let form? (name : String) : Option FormId :=
    (Resolution.lookup .form c.forms.get? forms.table name).value?
  let env : Surroundings := ⟨forms.graph,form?,scope⟩
  let named := DenotatorDefinition.resolveOr m env c.denotators.get? dens
  let top := DenotatorSketch.buildAll env
    (Resolution.lookupOr m.denotator c.denotators.get? named.table) defs.sketches
  { forms := forms.top
    denotators := top.filterMap Attempt.value?
    symbols := ⟨Resolution.values forms.table,Resolution.values named.table,
      Resolution.values leaves.modules,Resolution.values leaves.elements,
      Resolution.values leaves.morphisms⟩
    repository := {r with forms := forms.graph}
    reports := defs.reports ++ missing ++ leafReports ++ forms.reports ++ named.reports ++
      top.flatMap Attempt.reports }

def Outcome.ofNodeOr (v : Vocabulary) (s : Settings) (root : Node) (r : Repository) :
    Outcome × Repository :=
  let g := Reading.ofNodeOr m v (.ofRepository r s.catalogFallback) root r
  let h := if s.registerDecoded && g.reports.isEmpty then g.register else g
  (ofReading h s.maxErrors,h.repository)

def Reader.readNodeOr (a : Reader) (root : Node) (r : Repository) :
    Outcome × Reader × Repository :=
  let (o,r) := Outcome.ofNodeOr m a.vocabulary a.settings root r
  (o,{a with status := .ofOutcome o},r)

end

example (a : Reader) (root : Node) (r : Repository) :
    a.readNodeOr .circle root r = a.readNode root r := rfl

namespace Leaves
variable {α : Type} {m : Meeting} {v : Vocabulary} {d : Definitions}

/-- Leaves are resolved alike if nodes are read alike where settled names are looked up alike. -/
theorem resolve_congr (s : Symbol) {tag : String} {defs : Table Node}
    (hd : ∀ name n, defs.get? name = some n → n.tag = tag)
    {look look' : Table (Resolution α) → String → Attempt α}
    {read read' : Table (Resolution α) → Node → Attempt α}
    (hl : ∀ t k, t.get? k ≠ some .pending → look t k = look' t k)
    (hr : ∀ t n, (∀ k ∈ Node.allReferencesTagged tag n.children, look t k = look' t k) →
      read t n = read' t n) :
    Resolution.settleAll s defs.keys (uses tag defs) (fun t => build defs (look t) (read t)) =
      Resolution.settleAll s defs.keys (uses tag defs)
        fun t => build defs (look' t) (read' t) := by
  refine Resolution.settleAll_congr s fun t name hp => ?_
  obtain ⟨n,hn⟩ := Table.exists_of_contains ((Table.contains_iff_mem_keys _ _).mpr hp.mem)
  exact Attempt.Congruence.leaf (R := fun _ a b => a = b) (look' t) (read' t) hn (hd name n hn)
    (fun k hk => hl t k (hp.settled k hk)) fun _ hbelow => hr t n hbelow

theorem meaningsOr_eq {l : Leaves} (hm : ∀ k, l.modules.get? k ≠ some .pending)
    (he : ∀ k, l.elements.get? k ≠ some .pending)
    (hf : ∀ k, l.morphisms.get? k ≠ some .pending) : l.meaningsOr m = l.meanings := by
  unfold meaningsOr meanings
  congr 1 <;> funext k
  · exact Resolution.lookupOr_eq (hm k) .module nowhere
  · exact Resolution.lookupOr_eq (he k) .element nowhere
  · exact Resolution.lookupOr_eq (hf k) .morphism nowhere

theorem resolveModules_ne_pending (defs : Table Node) (k : String) :
    (resolveModules v defs).table.get? k ≠ some .pending :=
  Resolution.get?_settleAll_ne_pending .module k

theorem resolveElements_ne_pending (defs : Table Node) (ms : Table (Resolution Module))
    (k : String) : (resolveElements v defs ms).table.get? k ≠ some .pending :=
  Resolution.get?_settleAll_ne_pending .element k

theorem resolveMorphisms_ne_pending (defs : Table Node) (ms : Table (Resolution Module))
    (es : Table (Resolution Element)) (k : String) :
    (resolveMorphisms v defs ms es).table.get? k ≠ some .pending :=
  Resolution.get?_settleAll_ne_pending .morphism k

theorem resolveOr_eq {root : Node} (hd : d.Drawn root) : resolveOr m v d = resolve v d := by
  have hmodules : resolveModulesOr m v d.modules = resolveModules v d.modules :=
    resolve_congr .module (fun name n hn => (hd.leaves .module name n hn).2)
      (fun t k hk => Resolution.lookupOr_eq hk .module nowhere) fun t n hk =>
        Attempt.congruence_eq.module_ofNode n hk
  have helements : resolveElementsOr m v d.elements (resolveModules v d.modules).table =
      resolveElements v d.elements (resolveModules v d.modules).table :=
    resolve_congr .element (fun name n hn => (hd.leaves .element name n hn).2)
      (fun t k hk => Resolution.lookupOr_eq hk .element nowhere) fun t n hk =>
        Attempt.congruence_eq.element_ofNode n hk
  have hmorphisms : resolveMorphismsOr m v d.morphisms (resolveModules v d.modules).table
        (resolveElements v d.elements (resolveModules v d.modules).table).table =
      resolveMorphisms v d.morphisms (resolveModules v d.modules).table
        (resolveElements v d.elements (resolveModules v d.modules).table).table := by
    refine resolve_congr .morphism (fun name n hn => (hd.leaves .morphism name n hn).2)
      (fun t k hk => Resolution.lookupOr_eq hk .morphism nowhere) fun t n hk =>
        Attempt.congruence_eq.morphism_ofNode n ⟨fun k _ => ?_,fun k _ => ?_,hk⟩
    · exact Resolution.lookupOr_eq (resolveModules_ne_pending _ k) .module nowhere
    · exact Resolution.lookupOr_eq (resolveElements_ne_pending _ _ k) .element nowhere
  rw [resolveOr,hmodules,helements,hmorphisms]
  rfl

theorem meaningsOr_resolve : (resolve v d).1.meaningsOr m = (resolve v d).1.meanings :=
  meaningsOr_eq (resolveModules_ne_pending _) (resolveElements_ne_pending _ _)
    (resolveMorphisms_ne_pending _ _ _)

end Leaves

section
variable {m : Meeting} {outside : String → Option Denotator} {defs : Table DenotatorDefinition}

theorem DenotatorDefinition.resolveOr_eq (g : FormGraph) (form? : String → Option FormId)
    (v : Vocabulary) (l : LeafMeanings) :
    resolveOr m ⟨g,form?,⟨v,some l⟩⟩ outside defs = resolve ⟨g,form?,⟨v,some l⟩⟩ outside defs := by
  refine Resolution.settleAll_congr .denotator fun t name hp => ?_
  obtain ⟨d,hd⟩ := Table.exists_of_contains ((Table.contains_iff_mem_keys _ _).mpr hp.mem)
  refine Attempt.congruence_eq.definition _ hd
    (fun n _ => ⟨⟨fun _ _ => rfl,fun _ _ => rfl,fun _ _ => rfl⟩,fun _ _ => rfl⟩) fun k hk => ?_
  exact Resolution.lookupOr_eq (hp.settled k hk) .denotator outside

theorem DenotatorDefinition.lookupOr_resolve (env : Surroundings) :
    Resolution.lookupOr m.denotator outside (resolve env outside defs).table =
      Resolution.lookup .denotator outside (resolve env outside defs).table := by
  funext k
  exact Resolution.lookupOr_eq (Resolution.get?_settleAll_ne_pending .denotator k) .denotator
    outside

/-- A document is read without meetings. -/
theorem Reading.ofNodeOr_eq (m : Meeting) (v : Vocabulary) (c : Catalogue) (root : Node)
    (r : Repository) : ofNodeOr m v c root r = ofNode v c root r := by
  unfold ofNodeOr ofNode
  simp only [Leaves.resolveOr_eq (Definitions.drawn_ofRoot root),Leaves.meaningsOr_resolve,
    DenotatorDefinition.resolveOr_eq,DenotatorDefinition.lookupOr_resolve]

theorem Reader.readNodeOr_eq (m : Meeting) (a : Reader) (root : Node) (r : Repository) :
    a.readNodeOr m root r = a.readNode root r := by
  rw [readNodeOr,Outcome.ofNodeOr,Reading.ofNodeOr_eq]
  rfl

end
end AddressedForms
