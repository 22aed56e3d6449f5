import AddressedForms.Document.Error
import AddressedForms.Document.Node
set_option autoImplicit false

/-!
References by name. A node with a ref attribute stands for a definition in the name space that its
tag belongs to, and every denotator refers to a form as well.
-/

namespace AddressedForms

namespace Symbol

def ofTag? (tag : String) : Option Symbol :=
  if tag = "Form" ∨ tag = "DefineForm" then some .form
  else if tag = "Denotator" then some .denotator
  else if tag = "Module" then some .module
  else if tag = "ModuleElement" then some .element
  else if tag = "ModuleMorphism" then some .morphism
  else none

end Symbol

namespace Node

def ownReferences (n : Node) : List (Symbol × String) :=
  (match n.reference?, Symbol.ofTag? n.tag with
    | some name, some s => [(s,name)]
    | _, _ => []) ++
  (match n.attr? "form" with
    | some form => if n.tag = "Denotator" then [(.form,form)] else []
    | none => [])

mutual
def references : Node → List (Symbol × String)
  | ⟨tag,attrs,children⟩ => ownReferences ⟨tag,attrs,children⟩ ++ allReferences children
def allReferences : List Node → List (Symbol × String)
  | [] => []
  | n :: ns => n.references ++ allReferences ns
end

mutual
/-- The names that a tree refers to in nodes of a given tag; such a node is not searched further. -/
def referencesTagged (target : String) : Node → List String
  | ⟨tag,attrs,children⟩ =>
    match attrs.get? "ref" with
    | some name => if tag = target then [name] else allReferencesTagged target children
    | none => allReferencesTagged target children
def allReferencesTagged (target : String) : List Node → List String
  | [] => []
  | n :: ns => n.referencesTagged target ++ allReferencesTagged target ns
end

end Node
end AddressedForms
