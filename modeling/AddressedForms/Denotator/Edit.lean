import AddressedForms.Denotator.Path
set_option autoImplicit false

/-!
Edits of single factors.
-/

namespace AddressedForms
namespace Denotator

/-- A sum has as many positions as its form has variants. -/
def positions (f : Form) : Denotator → Except PathError Nat
  | .simple _ _ => .error (.pastLeaf 0)
  | .colimit _ _ _ => .ok f.count
  | .limit _ fs | .power _ fs | .list _ fs => .ok fs.length

def setFactor (g : FormGraph) (d : Denotator) (index : Nat) (new : Denotator) :
    Except DenotatorError Denotator := do
  let f ← requireForm g d.form
  let length ← fromPath (positions f d)
  if length ≤ index then .error (.path (.indexOutOfRange 0 index length))
  else
    let new ← accept g f index 0 new
    let (new,address) ← fitUnder d.address new
    .ok (d.withFactor index address new)

def withNewFactor (d : Denotator) (address : Module) (f : Denotator) : Denotator :=
  match d with
  | .power h fs => .power (movedTo h address) (asSet (fs ++ [f]))
  | .list h fs => .list (movedTo h address) (fs ++ [f])
  | d => d.withHead (movedTo d.head address)

/-- Only sets and lists grow. -/
def pushFactor (g : FormGraph) (d : Denotator) (new : Denotator) :
    Except DenotatorError Denotator := do
  let f ← requireForm g d.form
  if d.kind ≠ .power ∧ d.kind ≠ .list then .error (.wrongKind f.name .list d.kind)
  else
    let new ← accept g f 0 0 new
    let (new,address) ← fitUnder d.address new
    .ok (d.withNewFactor address new)

end Denotator
end AddressedForms
