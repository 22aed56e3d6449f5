import AddressedForms.Document.Assembly
import AddressedForms.Document.BuiltForms
import AddressedForms.Document.LeafResolution
set_option autoImplicit false

/-!
Reading of documents. Errors do not end it: a definition that cannot be built is dropped with all
that depends on it, and everything else is kept. All errors are reported, in the order of the
stages: definitions, references, leaves, forms, denotators.
-/

namespace AddressedForms

structure Symbols where
  forms : List (String × FormId)
  denotators : List (String × Denotator)
  modules : List (String × Module)
  elements : List (String × Element)
  morphisms : List (String × Morphism)

def Symbols.empty : Symbols := ⟨[],[],[],[],[]⟩

/-- The names that a document defines or may leave open. -/
structure NameSpace where
  definitions : Definitions
  denotators : Table DenotatorDefinition
  catalogue : Catalogue

namespace NameSpace

def has (n : NameSpace) : Symbol → String → Bool
  | .form, name =>
    (n.definitions.forms.named? name).isSome || n.catalogue.forms.contains name
  | .denotator, name => n.denotators.contains name || n.catalogue.denotators.contains name
  | .module, name => n.definitions.modules.contains name
  | .element, name => n.definitions.elements.contains name
  | .morphism, name => n.definitions.morphisms.contains name

/-- References to nothing, each reported once. -/
def unresolved (n : NameSpace) (refs : List (Symbol × String)) : List ReadError :=
  (refs.eraseDups.filter fun r => !n.has r.1 r.2).map fun r => .unresolvedReference r.1 r.2

end NameSpace

structure Reading where
  /-- The forms at the top level of the document. -/
  forms : List (String × FormId)
  /-- The denotators at the top level of the document. -/
  denotators : List Denotator
  symbols : Symbols
  repository : Repository
  reports : List ReadError

namespace Reading

/-- References count only in documents. -/
def referencesOf (root : Node) : List (Symbol × String) :=
  if root.tag = "Document" then root.references else []

def ofNode (v : Vocabulary) (c : Catalogue) (root : Node) (r : Repository) : Reading :=
  let defs := Definitions.ofRoot root
  let dens := defs.denotators
  let missing := NameSpace.unresolved ⟨defs,dens,c⟩ (referencesOf root)
  let (leaves,leafReports) := Leaves.resolve v defs
  let scope : LeafScope := ⟨v,some leaves.meanings⟩
  let forms := BuiltForms.ofSketches scope c r.forms defs.forms
  let form? (name : String) : Option FormId :=
    (Resolution.lookup .form c.forms.get? forms.table name).value?
  let env : Surroundings := ⟨forms.graph,form?,scope⟩
  let named := DenotatorDefinition.resolve env c.denotators.get? dens
  let top := DenotatorSketch.buildAll env
    (Resolution.lookup .denotator c.denotators.get? named.table) defs.sketches
  { forms := forms.top
    denotators := top.filterMap Attempt.value?
    symbols := ⟨Resolution.values forms.table,Resolution.values named.table,
      Resolution.values leaves.modules,Resolution.values leaves.elements,
      Resolution.values leaves.morphisms⟩
    repository := {r with forms := forms.graph}
    reports := defs.reports ++ missing ++ leafReports ++ forms.reports ++ named.reports ++
      top.flatMap Attempt.reports }

def registerForm (g : Reading) (name : String) (id : FormId) : Reading :=
  match g.repository.registerForm id with
  | .ok (_,r) => {g with repository := r}
  | .error _ => {g with reports := g.reports ++ [.duplicateName .form name]}

def registerDenotator (g : Reading) (name : String) (d : Denotator) : Reading :=
  match g.repository.registerDenotator d with
  | .ok r => {g with repository := r}
  | .error (.duplicateName _) => {g with reports := g.reports ++ [.duplicateName .denotator name]}
  | .error e => {g with reports := g.reports ++ [.malformed "Denotator" e.message]}

/-- The forms at the top level are registered, and all named denotators. An entry that is refused is
reported, and does not undo the others. -/
def register (g : Reading) : Reading :=
  let h := g.forms.foldl (fun h e => h.registerForm e.1 e.2) g
  g.symbols.denotators.foldl (fun h e => h.registerDenotator e.1 e.2) h

end Reading
end AddressedForms
