import AddressedForms.Denotator.Order
import AddressedForms.Form.Equality
set_option autoImplicit false

/-!
Equality of denotators up to equality of their forms. Sets are compared as multisets: every factor
takes away the first equal factor that is left on the other side.
-/

namespace AddressedForms
namespace Denotator

def sameHead (g : FormGraph) (h k : Head) : Bool :=
  h.name = k.name && h.address = k.address && g.equalForms h.form k.form

/-- The list without its first member that satisfies the test. -/
def takeOut? (p : Denotator → Bool) : List Denotator → Option (List Denotator)
  | [] => none
  | y :: ys => if p y then some ys else (takeOut? p ys).map (y :: ·)

mutual
def equals (g : FormGraph) : Denotator → Denotator → Bool
  | .simple h m, .simple k n => sameHead g h k && m = n
  | .limit h xs, .limit k ys => sameHead g h k && equalLists g xs ys
  | .colimit h i x, .colimit k j y => sameHead g h k && (i = j && x.equals g y)
  | .power h xs, .power k ys => sameHead g h k && (xs.length = ys.length && matched g xs ys)
  | .list h xs, .list k ys => sameHead g h k && equalLists g xs ys
  | _, _ => false
def equalLists (g : FormGraph) : List Denotator → List Denotator → Bool
  | [], [] => true
  | x :: xs, y :: ys => x.equals g y && equalLists g xs ys
  | _, _ => false
def matched (g : FormGraph) : List Denotator → List Denotator → Bool
  | [], _ => true
  | x :: xs, ys =>
    match takeOut? (fun y => x.equals g y) ys with
    | some rest => matched g xs rest
    | none => false
end

end Denotator
end AddressedForms
