import AddressedForms.Address.Morphism
import AddressedForms.Document.Vocabulary
set_option autoImplicit false

/-!
Modules, elements, morphisms and coordinates of nodes. A nested node may refer to a definition by
name; in a scope without definitions it is read like any other node.
-/

namespace AddressedForms

/-- What the names of leaf definitions stand for. -/
structure LeafMeanings where
  module : String → Attempt Module
  element : String → Attempt Element
  morphism : String → Attempt Morphism

structure LeafScope where
  vocabulary : Vocabulary
  meanings : Option LeafMeanings

namespace LeafScope

/-- The name that a node refers to, where names count. -/
def nameIn (s : LeafScope) (n : Node) : Option (LeafMeanings × String) := do
  let l ← s.meanings
  let name ← n.reference?
  some (l,name)

end LeafScope

namespace Node

def parsedInt64 (n : Node) (key : String) : Attempt Int64 :=
  n.parsed key Integer.readInt64 IntegerError.message

def parsedUInt64 (n : Node) (key : String) : Attempt UInt64 :=
  n.parsed key Integer.readUInt64 IntegerError.message

def modulus (n : Node) : Attempt UInt64 := do
  let m ← n.parsedUInt64 "modulus"
  if m = 0 then .malformed n.tag "modulus must be positive"
  else if Module.maxModulus < m then
    .malformed n.tag ("modulus " ++ toString m ++ " exceeds " ++ toString Module.maxModulus)
  else .success m

end Node

namespace Module

mutual
def ofNode (s : LeafScope) : Node → Attempt Module
  | ⟨tag,attrs,children⟩ => do
    match ← Node.shape .module s.vocabulary.modules ⟨tag,attrs,children⟩ with
    | .null => .success .null
    | .z => .success .z
    | .q => .success .q
    | .r => .success .r
    | .zn => do
      let n ← Node.modulus ⟨tag,attrs,children⟩
      .success (.zn n)
    | .product => do
      let fs ← ofNodes s children
      .success (.product fs)
/-- All modules among the children, so that every error among them is reported. -/
def ofNodes (s : LeafScope) : List Node → Attempt (List Module)
  | [] => .success []
  | c :: cs =>
    if c.tag = "Module" then
      Attempt.cons (match s.nameIn c with
        | some (l,name) => l.module name
        | none => ofNode s c) (ofNodes s cs)
    else ofNodes s cs
end

def ofNested (s : LeafScope) (n : Node) : Attempt Module :=
  match s.nameIn n with
  | some (l,name) => l.module name
  | none => ofNode s n

def ofChild (s : LeafScope) (n : Node) (i : Nat) : Attempt Module := do
  let c ← n.nthChild "Module" i
  ofNested s c

end Module

namespace Element

mutual
def ofNode (s : LeafScope) : Node → Attempt Element
  | ⟨tag,attrs,children⟩ => do
    match ← Node.shape .element s.vocabulary.elements ⟨tag,attrs,children⟩ with
    | .null => .success .null
    | .z => do
      let v ← Node.parsedInt64 ⟨tag,attrs,children⟩ "value"
      .success (.z v)
    | .zn => do
      let v ← Node.parsedInt64 ⟨tag,attrs,children⟩ "value"
      let n ← Node.modulus ⟨tag,attrs,children⟩
      .success (.residue v n)
    | .q => do
      let v ← Node.parsed ⟨tag,attrs,children⟩ "value" Fraction.read FractionError.message
      .success (.q v)
    | .r => do
      let v ← Node.parsed ⟨tag,attrs,children⟩ "value" Binary64.read DecimalError.message
      .success (.r v)
    | .product => do
      let xs ← ofNodes s children
      .success (.product xs)
def ofNodes (s : LeafScope) : List Node → Attempt (List Element)
  | [] => .success []
  | c :: cs =>
    if c.tag = "ModuleElement" then
      Attempt.cons (match s.nameIn c with
        | some (l,name) => l.element name
        | none => ofNode s c) (ofNodes s cs)
    else ofNodes s cs
end

def ofNested (s : LeafScope) (n : Node) : Attempt Element :=
  match s.nameIn n with
  | some (l,name) => l.element name
  | none => ofNode s n

def ofChild (s : LeafScope) (n : Node) (i : Nat) : Attempt Element := do
  let c ← n.nthChild "ModuleElement" i
  ofNested s c

end Element

namespace Morphism

def checkedIn (n : Node) (r : Except MappingError Morphism) : Attempt Morphism :=
  match r with
  | .ok f => .success f
  | .error e => .malformed n.tag e.message

mutual
def ofNode (s : LeafScope) : Node → Attempt Morphism
  | ⟨tag,attrs,children⟩ => do
    match ← Node.shape .morphism s.vocabulary.morphisms ⟨tag,attrs,children⟩ with
    | .constant => do
      let m ← Module.ofChild s ⟨tag,attrs,children⟩ 0
      let x ← Element.ofChild s ⟨tag,attrs,children⟩ 0
      .success (.constant m x)
    | .identity => do
      let m ← Module.ofChild s ⟨tag,attrs,children⟩ 0
      .success (.identity m)
    | .affine => do
      let m ← Module.ofChild s ⟨tag,attrs,children⟩ 0
      let a ← Element.ofChild s ⟨tag,attrs,children⟩ 0
      let b ← Element.ofChild s ⟨tag,attrs,children⟩ 1
      checkedIn ⟨tag,attrs,children⟩ (affine? m a b)
    | .embedding => do
      let m ← Module.ofChild s ⟨tag,attrs,children⟩ 0
      let c ← Module.ofChild s ⟨tag,attrs,children⟩ 1
      checkedIn ⟨tag,attrs,children⟩ (embedding? m c)
    | .composition => do
      let f ← ofChildren s tag 0 0 children
      let g ← ofChildren s tag 1 1 children
      if f.domain = g.codomain then .success (.composition f g)
      else .malformed tag ("cannot compose " ++ f.domain.text ++ " after " ++ g.codomain.text)
/-- The morphism at a position among those of the children; `i` of them are still to be skipped. -/
def ofChildren (s : LeafScope) (parent : String) (position : Nat) :
    Nat → List Node → Attempt Morphism
  | _, [] => .malformed parent ("missing ModuleMorphism child #" ++ toString position)
  | i, c :: cs =>
    if c.tag = "ModuleMorphism" then
      match i with
      | 0 => match s.nameIn c with
        | some (l,name) => l.morphism name
        | none => ofNode s c
      | i+1 => ofChildren s parent position i cs
    else ofChildren s parent position i cs
end

def ofCoordinate (s : LeafScope) (address : Module) (n : Node) : Attempt Morphism := do
  match ← n.shape .map s.vocabulary.maps with
  | .constant => do
    let x ← Element.ofChild s n 0
    .success (.constant address x)
  | .morphism => ofChildren s n.tag 0 0 n.children

end Morphism
end AddressedForms
