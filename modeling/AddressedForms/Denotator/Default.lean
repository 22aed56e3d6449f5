import AddressedForms.Denotator.Construct
set_option autoImplicit false

/-!
Default denotators: the zero of a module, the product of defaults, the first variant that has a
default, and the empty set or list. A form that only leads back to itself has none.
-/

namespace AddressedForms
namespace Denotator

def moveEmpty (f : Form) (address : Module) (d : Denotator) : Except DenotatorError Denotator :=
  match d.readdressTo? address with
  | some e => .ok e
  | none => .error (.noDefault f.name)

def firstDefault (default : FormId → Except DenotatorError Denotator) :
    Nat → List FormId → Option (Nat × Denotator)
  | _, [] => none
  | i, id :: ids =>
    match default id with
    | .ok d => some (i,d)
    | .error _ => firstDefault default (i+1) ids

/-- The fuel bounds the number of forms that are open at once. -/
def defaultWithin (g : FormGraph) (address : Module) :
    Nat → List FormId → FormId → Except DenotatorError Denotator
  | 0, _, id => .error (.noDefault (g.nameOrId id))
  | fuel+1, opened, id => do
    let f ← requireForm g id
    if id ∈ opened then .error (.noDefault f.name)
    else
      let default := defaultWithin g address fuel (id :: opened)
      match f.body with
      | .simple m => ofMorphism g id (.constant address m.zero)
      | .limit subs => do
        let ds ← subs.mapM default
        ofLimit g id ds
      | .colimit subs =>
        match firstDefault default 0 subs with
        | some (i,d) => ofVariant g id i d
        | none => .error (.noDefault f.name)
      | .power _ => do
        let d ← ofSet g id []
        moveEmpty f address d
      | .list _ => do
        let d ← ofList g id []
        moveEmpty f address d

def default (g : FormGraph) (id : FormId) (address : Module) : Except DenotatorError Denotator :=
  defaultWithin g address (g.size+2) [] id

end Denotator
end AddressedForms
