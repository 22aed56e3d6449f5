import AddressedForms.Document.FormSketch
import AddressedForms.Document.Reference
import AddressedForms.Document.DenotatorSketch
set_option autoImplicit false

/-!
What a document defines, by name, before any name is resolved. The first definition of a name
counts; later ones are reported.
-/

namespace AddressedForms

structure Definitions where
  forms : FormSketches
  /-- The denotators at the top level of the document. -/
  sketches : List DenotatorSketch
  /-- Names of denotators. -/
  taken : List String
  modules : Table Node
  elements : Table Node
  morphisms : Table Node

namespace Definitions

def empty : Definitions := ⟨.empty,[],[],.empty,.empty,.empty⟩

def reports (d : Definitions) : List ReadError := d.forms.reports

def reportAll (d : Definitions) (es : List ReadError) : Definitions :=
  {d with forms := d.forms.reportAll es}

def denotators (d : Definitions) : Table DenotatorDefinition :=
  .ofList (DenotatorSketch.allDefinitions d.sketches)

def leafOf (tag : String) (n : Node) : Attempt (String × Node) := do
  let name ← n.require "name"
  match n.child? tag with
  | some c => .success (name,c)
  | none => .malformed n.tag ("missing " ++ tag ++ " child")

def addLeaf (s : Symbol) (tag : String) (n : Node) (t : Table Node) : Table Node × List ReadError :=
  match leafOf tag n with
  | ⟨none,es⟩ => (t,es)
  | ⟨some (name,c),_⟩ =>
    if t.contains name then (t,[.duplicateName s name]) else (t.insert name c,[])

def addDenotator (d : Definitions) (n : Node) : Definitions :=
  let (s,taken) := DenotatorSketch.ofNode d.taken n
  {d with sketches := d.sketches ++ [s], taken := taken}.reportAll
    (s.duplicates.map (.duplicateName .denotator))

def add (d : Definitions) (n : Node) : Definitions :=
  if n.isForm then {d with forms := d.forms.add true n}
  else if n.tag = "Denotator" then d.addDenotator n
  else if n.tag = "DefineModule" then
    let (t,es) := addLeaf .module "Module" n d.modules
    {d with modules := t}.reportAll es
  else if n.tag = "DefineModuleElement" then
    let (t,es) := addLeaf .element "ModuleElement" n d.elements
    {d with elements := t}.reportAll es
  else if n.tag = "DefineModuleMorphism" then
    let (t,es) := addLeaf .morphism "ModuleMorphism" n d.morphisms
    {d with morphisms := t}.reportAll es
  else d.reportAll [.malformed n.tag "unexpected top-level node"]

def versionFaults (root : Node) : List ReadError :=
  match root.attr? "version" with
  | some v =>
    if v = Node.formatVersion then []
    else [.malformed root.tag ("unsupported version '" ++ v ++ "'")]
  | none => []

/-- The definitions of a document; of what is no document, none. -/
def ofRoot (root : Node) : Definitions :=
  if root.tag = "Document" then root.children.foldl add (empty.reportAll (versionFaults root))
  else empty.reportAll [.malformed root.tag "expected a Document root"]

end Definitions
end AddressedForms
