import AddressedForms.Form.Graph
set_option autoImplicit false

/-!
Equality of forms. Two forms are the same when their names, kinds, modules and diagrams agree; a
pair that is already being compared counts as the same, so cyclic graphs are compared in finitely
many steps. Two registered forms are compared by their names alone.
-/

namespace AddressedForms
namespace FormGraph

/-- The pairs that must be the same for two distinct numbers to denote the same form, or none if
they cannot. -/
def obligations? (g : FormGraph) (a b : FormId) : Option (List (FormId × FormId)) := do
  let x ← g.get? a
  let y ← g.get? b
  if x.name ≠ y.name ∨ x.kind ≠ y.kind then none
  else if x.registered && y.registered then some []
  else match x.body, y.body with
    | .simple m, .simple n => if m = n then some [] else none
    | c, d =>
      if c.subForms.length = d.subForms.length then some (c.subForms.zip d.subForms) else none

/-- The fuel bounds the number of pairs that are newly assumed. -/
def allSame (g : FormGraph) (fuel : Nat) (assumed : List (FormId × FormId)) :
    List (FormId × FormId) → Bool
  | [] => true
  | (a,b) :: work =>
    if a = b ∨ (a,b) ∈ assumed then g.allSame fuel assumed work
    else match fuel with
    | 0 => false
    | fuel+1 => match g.obligations? a b with
      | none => false
      | some pairs => g.allSame fuel ((a,b) :: assumed) (pairs ++ work)
termination_by work => (fuel,work.length)

/-- Structural equality; there are no more distinct pairs than pairs of slots. -/
def sameForm (g : FormGraph) (a b : FormId) : Bool := g.allSame (g.size*g.size+1) [] [(a,b)]

def equalForms (g : FormGraph) (a b : FormId) : Bool :=
  if a = b then true
  else match g.get? a, g.get? b with
    | some x, some y => if x.registered && y.registered then x.name = y.name else g.sameForm a b
    | _, _ => g.sameForm a b

end FormGraph
end AddressedForms
