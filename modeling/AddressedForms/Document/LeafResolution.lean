import AddressedForms.Document.Definitions
import AddressedForms.Document.LeafReading
import AddressedForms.Document.Resolution
set_option autoImplicit false

/-!
The leaf definitions of a document: modules, then elements, then morphisms, which may refer to both.
-/

namespace AddressedForms

structure Leaves where
  modules : Table (Resolution Module)
  elements : Table (Resolution Element)
  morphisms : Table (Resolution Morphism)

namespace Leaves

def nowhere {α : Type} : String → Option α := fun _ => none

/-- Names of leaves mean what the document defines them to be. -/
def meanings (l : Leaves) : LeafMeanings where
  module := Resolution.lookup .module nowhere l.modules
  element := Resolution.lookup .element nowhere l.elements
  morphism := Resolution.lookup .morphism nowhere l.morphisms

/-- A definition is an alias of another one, or has a value of its own. -/
def build {α : Type} (defs : Table Node) (look : String → Attempt α) (read : Node → Attempt α)
    (name : String) : Attempt α :=
  match defs.get? name with
  | none => .silent
  | some n => match n.reference? with
    | some target => look target
    | none => read n

def uses (tag : String) (defs : Table Node) (name : String) : List String :=
  match defs.get? name with
  | some n => n.referencesTagged tag
  | none => []

def resolveModules (d : Vocabulary) (defs : Table Node) : Resolution.Progress Module :=
  Resolution.settleAll .module defs.keys (uses "Module" defs) fun t =>
    let l := meanings ⟨t,.empty,.empty⟩
    build defs l.module (Module.ofNode ⟨d,some l⟩)

def resolveElements (d : Vocabulary) (defs : Table Node) (modules : Table (Resolution Module)) :
    Resolution.Progress Element :=
  Resolution.settleAll .element defs.keys (uses "ModuleElement" defs) fun t =>
    let l := meanings ⟨modules,t,.empty⟩
    build defs l.element (Element.ofNode ⟨d,some l⟩)

def resolveMorphisms (d : Vocabulary) (defs : Table Node) (modules : Table (Resolution Module))
    (elements : Table (Resolution Element)) : Resolution.Progress Morphism :=
  Resolution.settleAll .morphism defs.keys (uses "ModuleMorphism" defs) fun t =>
    let l := meanings ⟨modules,elements,t⟩
    build defs l.morphism (Morphism.ofNode ⟨d,some l⟩)

def resolve (d : Vocabulary) (defs : Definitions) : Leaves × List ReadError :=
  let ms := resolveModules d defs.modules
  let es := resolveElements d defs.elements ms.table
  let fs := resolveMorphisms d defs.morphisms ms.table es.table
  (⟨ms.table,es.table,fs.table⟩,ms.reports ++ es.reports ++ fs.reports)

end Leaves
end AddressedForms
