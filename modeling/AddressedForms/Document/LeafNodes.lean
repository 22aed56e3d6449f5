import AddressedForms.Address.Morphism
import AddressedForms.Document.Node
set_option autoImplicit false

/-!
Nodes of modules, elements, morphisms and coordinates. A nested value that has a name is written as
a reference to it.
-/

namespace AddressedForms

/-- Values with names, the latest name of a value first. -/
structure NamedLeaves where
  modules : List (Module × String)
  elements : List (Element × String)
  morphisms : List (Morphism × String)

namespace NamedLeaves

def empty : NamedLeaves := ⟨[],[],[]⟩

def nameOf? {α : Type} [DecidableEq α] (x : α) : List (α × String) → Option String
  | [] => none
  | e :: es => if x = e.1 then some e.2 else nameOf? x es

end NamedLeaves

namespace Module

def bodyNode (m : Module) (children : List Node) : Node :=
  let n := ((Node.leaf "Module").withAttr "type" m.tag).withChildren children
  match m with
  | .zn k => n.withAttr "modulus" (toString k)
  | _ => n

mutual
/-- The node of a module that is not abbreviated itself. -/
def body (names : NamedLeaves) : Module → Node
  | .product fs => bodyNode (.product fs) (nodes names fs)
  | m => bodyNode m []
def nodes (names : NamedLeaves) : List Module → List Node
  | [] => []
  | f :: fs =>
    (match NamedLeaves.nameOf? f names.modules with
      | some name => Node.reference "Module" name
      | none => f.body names) :: nodes names fs
end

def node (names : NamedLeaves) (m : Module) : Node :=
  match NamedLeaves.nameOf? m names.modules with
  | some name => Node.reference "Module" name
  | none => m.body names

end Module

namespace Element

def valueNode (x : Element) (value : String) : Node :=
  ((Node.leaf "ModuleElement").withAttr "type" x.tag).withAttr "value" value

mutual
def body (names : NamedLeaves) : Element → Node
  | .null => (Node.leaf "ModuleElement").withAttr "type" "NullElement"
  | .z v => valueNode (.z v) (toString v.toInt)
  | .zn v n => (valueNode (.zn v n) (toString v.toInt)).withAttr "modulus" (toString n)
  | .q v => valueNode (.q v) v.text
  | .r v => valueNode (.r v) v.text
  | .product xs =>
    ((Node.leaf "ModuleElement").withAttr "type" "ProductElement").withChildren (nodes names xs)
def nodes (names : NamedLeaves) : List Element → List Node
  | [] => []
  | x :: xs =>
    (match NamedLeaves.nameOf? x names.elements with
      | some name => Node.reference "ModuleElement" name
      | none => x.body names) :: nodes names xs
end

def node (names : NamedLeaves) (x : Element) : Node :=
  match NamedLeaves.nameOf? x names.elements with
  | some name => Node.reference "ModuleElement" name
  | none => x.body names

end Element

namespace Morphism

def typed (f : Morphism) (children : List Node) : Node :=
  ((Node.leaf "ModuleMorphism").withAttr "type" f.tag).withChildren children

def body (names : NamedLeaves) : Morphism → Node
  | .constant d x => typed (.constant d x) [d.node names,x.node names]
  | .identity m => typed (.identity m) [m.node names]
  | .affine k a b => typed (.affine k a b) [k.node names,a.node names,b.node names]
  | .embedding d c => typed (.embedding d c) [d.node names,c.node names]
  | .composition f g =>
    typed (.composition f g)
      [match NamedLeaves.nameOf? f names.morphisms with
        | some name => Node.reference "ModuleMorphism" name
        | none => f.body names,
       match NamedLeaves.nameOf? g names.morphisms with
        | some name => Node.reference "ModuleMorphism" name
        | none => g.body names]

def node (names : NamedLeaves) (f : Morphism) : Node :=
  match NamedLeaves.nameOf? f names.morphisms with
  | some name => Node.reference "ModuleMorphism" name
  | none => f.body names

/-- The coordinate of a simple denotator; a constant over its very address is written by its value.
-/
def coordinateNode (names : NamedLeaves) (address : Module) (f : Morphism) : Node :=
  let general := ((Node.leaf "Map").withAttr "type" "MorphismMap").withChildren [f.node names]
  match f with
  | .constant d x =>
    if d = address then
      ((Node.leaf "Map").withAttr "type" "ConstantMap").withChildren [x.node names]
    else general
  | _ => general

end Morphism
end AddressedForms
