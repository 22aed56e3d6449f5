import AddressedForms.Table
set_option autoImplicit false

/-!
Documents are trees of tagged nodes with text attributes.
-/

namespace AddressedForms

structure Node where
  tag : String
  attrs : Table String
  children : List Node

namespace Node

instance : Inhabited Node := ⟨⟨"",.empty,[]⟩⟩

def leaf (tag : String) : Node := ⟨tag,.empty,[]⟩

def withAttr (n : Node) (key value : String) : Node := {n with attrs := n.attrs.insert key value}

def withChildren (n : Node) (children : List Node) : Node := {n with children := children}

/-- A node that stands for the definition of a name. -/
def reference (tag name : String) : Node := (leaf tag).withAttr "ref" name

def attr? (n : Node) (key : String) : Option String := n.attrs.get? key

def reference? (n : Node) : Option String := n.attr? "ref"

def name? (n : Node) : Option String := n.attr? "name"

def child? (n : Node) (tag : String) : Option Node := n.children.find? (fun c => c.tag = tag)

def childrenTagged (n : Node) (tag : String) : List Node := n.children.filter (fun c => c.tag = tag)

/-- The version of the format, which the root of a document may state. -/
def formatVersion : String := "1"

theorem attr?_withAttr (n : Node) (key k value : String) :
    (n.withAttr key value).attr? k = if k = key then some value else n.attr? k :=
  Table.get?_insert n.attrs key k value

@[simp] theorem attr?_leaf (tag key : String) : (leaf tag).attr? key = none := rfl

@[simp] theorem reference?_reference (tag name : String) :
    (reference tag name).reference? = some name := by simp [reference,reference?,attr?_withAttr]

/-- Two tags define forms. -/
def isForm (n : Node) : Bool := n.tag = "Form" || n.tag = "DefineForm"

end Node
end AddressedForms
