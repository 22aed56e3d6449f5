import AddressedForms.Address.Element
set_option autoImplicit false

/-!
Morphisms between modules: constants, identities, affine ring maps, canonical embeddings and
compositions. A morphism value may be ill-typed; evaluation checks its argument at every stage.
-/

namespace AddressedForms

inductive Morphism where
  | constant (domain : Module) (value : Element)
  | identity (module : Module)
  | affine (ring : Module) (factor shift : Element)
  | embedding (domain codomain : Module)
  | composition (outer inner : Morphism)
  deriving DecidableEq

namespace Morphism

instance : Inhabited Morphism := ⟨.identity .null⟩

def tag : Morphism → String
  | .constant _ _ => "ConstantMorphism"
  | .identity _ => "IdentityMorphism"
  | .affine _ _ _ => "AffineMorphism"
  | .embedding _ _ => "EmbeddingMorphism"
  | .composition _ _ => "CompositionMorphism"

def rank : Morphism → Nat
  | .constant _ _ => 0
  | .identity _ => 1
  | .affine _ _ _ => 2
  | .embedding _ _ => 3
  | .composition _ _ => 4

protected def compare : Morphism → Morphism → Ordering
  | .constant d x, .constant e y => (compare d e).then (compare x y)
  | .identity m, .identity n => compare m n
  | .affine k a b, .affine l c d => (compare k l).then ((compare a c).then (compare b d))
  | .embedding d c, .embedding e b => (compare d e).then (compare c b)
  | .composition f g, .composition h k => (f.compare h).then (g.compare k)
  | f, g => compare f.rank g.rank

instance : Ord Morphism := ⟨Morphism.compare⟩

theorem compare_eq_iff (f g : Morphism) : f.compare g = .eq ↔ f = g := by
  have hm (x y : Module) : compare x y = .eq ↔ x = y := Module.compare_eq_iff x y
  have he (x y : Element) : compare x y = .eq ↔ x = y := Element.compare_eq_iff x y
  induction f generalizing g <;> cases g <;>
    simp_all [Morphism.compare,rank,Ordering.then_eq_eq]

def domain : Morphism → Module
  | .constant d _ => d
  | .identity m => m
  | .affine k _ _ => k
  | .embedding d _ => d
  | .composition _ g => g.domain

def codomain : Morphism → Module
  | .constant _ x => x.module
  | .identity m => m
  | .affine k _ _ => k
  | .embedding _ c => c
  | .composition f _ => f.codomain

def affine? (ring : Module) (factor shift : Element) : Except MappingError Morphism :=
  if !ring.isRing then .error (.unsupported ring)
  else if !ring.contains factor then .error (.outsideDomain ring factor)
  else if !ring.contains shift then .error (.outsideDomain ring shift)
  else .ok (.affine ring factor shift)

def shifting? (ring : Module) (shift : Element) : Except MappingError Morphism :=
  match ring.one? with
  | some one => affine? ring one shift
  | none => .error (.unsupported ring)

def embedding? (domain codomain : Module) : Except MappingError Morphism :=
  if domain.embeds codomain then .ok (.embedding domain codomain)
  else .error (.notComposable codomain domain)

/-- The identity, the zero map, or an embedding; nothing leads out of the zero module. -/
def canonical? (source target : Module) : Option Morphism :=
  if source = target then some (.identity source)
  else if target.isNull then some (.constant source .null)
  else if source.embeds target then some (.embedding source target)
  else none

/-- Whether the argument is ignored; over the zero module there is only one argument. -/
def isConstant : Morphism → Bool
  | .constant _ _ => true
  | .identity m => m.isNull
  | .affine k a _ => k.isNull || a.isZero
  | .embedding d c => d.isNull || c.isNull
  | .composition f g => g.domain.isNull || f.isConstant || g.isConstant

def embed : Element → Module → Except MappingError Element
  | _, .null => .ok .null
  | .z v, .q => .ok (.q (.ofInt64 v))
  | .z v, .r => .ok (.r (.ofInt64 v))
  | .z v, .zn n => .ok (.residue v n)
  | .zn v _, .zn n => .ok (.residue v n)
  | .q v, .r => .ok (.r (.ofFraction v))
  | x, c => .error (.notComposable c x.module)

def requireIn (domain : Module) (x : Element) : Except MappingError Unit :=
  if domain.contains x then .ok () else .error (.outsideDomain domain x)

def apply : Morphism → Element → Except MappingError Element
  | .constant d v, x => do requireIn d x; .ok v
  | .identity m, x => do requireIn m x; .ok x
  | .affine k a b, x => do
    requireIn k x
    let y ← a.mul x
    y.add b
  | .embedding d c, x => do requireIn d x; embed x c
  | .composition f g, x => do
    requireIn g.domain x
    let y ← g.apply x
    f.apply y

/-- The one value of a constant morphism, where it can be evaluated. -/
def constantValue? : Morphism → Option Element
  | .constant _ v => some v
  | f => if f.isConstant then (f.apply f.domain.zero).toOption else none

/-- `compose f g` applies `g` first. Constants, identities and pairs of affine maps are folded. -/
def compose (f g : Morphism) : Except MappingError Morphism :=
  if g.codomain ≠ f.domain then .error (.notComposable g.codomain f.domain)
  else match f, g with
    | .constant _ v, g => .ok (.constant g.domain v)
    | .identity _, g => .ok g
    | f, .identity _ => .ok f
    | f, .constant d v => do
      let w ← f.apply v
      .ok (.constant d w)
    | .affine k a b, .affine _ c d => do
      let factor ← a.mul c
      let e ← a.mul d
      let shift ← e.add b
      .ok (.affine k factor shift)
    | f, g => .ok (.composition f g)

def text : Morphism → String
  | .constant d x => "const[" ++ d.text ++ "](" ++ x.text ++ ")"
  | .identity m => "id[" ++ m.text ++ "]"
  | .affine k a b => "[" ++ k.text ++ "] x -> " ++ a.text ++ "*x + " ++ b.text
  | .embedding d c => d.text ++ " -> " ++ c.text
  | .composition f g => "(" ++ f.text ++ ") o (" ++ g.text ++ ")"

end Morphism
end AddressedForms
