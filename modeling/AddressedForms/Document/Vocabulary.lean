import AddressedForms.Document.Error
import AddressedForms.Document.Node
set_option autoImplicit false

/-!
Vocabularies: which shape the nodes of a type tag have, family by family. A shape says which
attributes and children a value is read from.
-/

namespace AddressedForms

inductive ModuleShape where
  | null
  | z
  | zn
  | q
  | r
  | product
  deriving DecidableEq, Repr

inductive ElementShape where
  | null
  | z
  | zn
  | q
  | r
  | product
  deriving DecidableEq, Repr

inductive MorphismShape where
  | constant
  | identity
  | affine
  | embedding
  | composition
  deriving DecidableEq, Repr

inductive MapShape where
  | constant
  | morphism
  deriving DecidableEq, Repr

structure Vocabulary where
  modules : Table ModuleShape
  elements : Table ElementShape
  morphisms : Table MorphismShape
  maps : Table MapShape

namespace Vocabulary

def empty : Vocabulary := ⟨.empty,.empty,.empty,.empty⟩

def builtins : Vocabulary where
  modules := .ofList [("NullModule",.null),("ZRing",.z),("ZnRing",.zn),("QRing",.q),("RRing",.r),
    ("ProductRing",.product)]
  elements := .ofList [("NullElement",.null),("ZElement",.z),("ZnElement",.zn),("QElement",.q),
    ("RElement",.r),("ProductElement",.product)]
  morphisms := .ofList [("ConstantMorphism",.constant),("IdentityMorphism",.identity),
    ("AffineMorphism",.affine),("EmbeddingMorphism",.embedding),
    ("CompositionMorphism",.composition)]
  maps := .ofList [("ConstantMap",.constant),("MorphismMap",.morphism)]

/-- Gives a tag the shape of a built-in one. -/
def withTagIn {α : Type} (builtin t : Table α) (tag old : String) : Table α :=
  match builtin.get? old with
  | some x => t.insert tag x
  | none => t

def withTag (d : Vocabulary) (family : Family) (tag old : String) : Vocabulary :=
  match family with
  | .module => {d with modules := withTagIn builtins.modules d.modules tag old}
  | .element => {d with elements := withTagIn builtins.elements d.elements tag old}
  | .morphism => {d with morphisms := withTagIn builtins.morphisms d.morphisms tag old}
  | .map => {d with maps := withTagIn builtins.maps d.maps tag old}
  | .form | .denotator => d

/-- Forms and denotators have no tags of their own. -/
def tags (d : Vocabulary) : Family → List String
  | .form | .denotator => []
  | .module => d.modules.keys
  | .element => d.elements.keys
  | .morphism => d.morphisms.keys
  | .map => d.maps.keys

end Vocabulary

namespace Node

def require (n : Node) (key : String) : Attempt String :=
  match n.attr? key with
  | some v => .success v
  | none => .malformed n.tag ("missing attribute '" ++ key ++ "'")

def shape {α : Type} (family : Family) (table : Table α) (n : Node) : Attempt α := do
  let tag ← n.require "type"
  match table.get? tag with
  | some d => .success d
  | none => .failure (.unknownTypeTag family tag)

def parsed {α ε : Type} (n : Node) (key : String) (read : String → Except ε α)
    (message : ε → String) : Attempt α := do
  let raw ← n.require key
  match read raw with
  | .ok v => .success v
  | .error e => .malformed n.tag ("bad " ++ key ++ " '" ++ raw ++ "': " ++ message e)

def nthChild (n : Node) (tag : String) (i : Nat) : Attempt Node :=
  match (n.childrenTagged tag)[i]? with
  | some c => .success c
  | none => .malformed n.tag ("missing " ++ tag ++ " child #" ++ toString i)

end Node
end AddressedForms
