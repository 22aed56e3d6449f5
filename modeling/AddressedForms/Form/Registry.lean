import AddressedForms.Form.Equality
set_option autoImplicit false

/-!
Registration gives a form its name for good. A second form of that name is taken for the first one
if the two are the same, and is refused otherwise.
-/

namespace AddressedForms
namespace FormGraph

def enter (g : FormGraph) (id : FormId) (f : Form) : FormGraph :=
  {g.store id {f with registered := true} with registry := g.registry.insert f.name id}

/-- The id that holds the name afterwards. -/
def register (g : FormGraph) (id : FormId) : Except FormError (FormId × FormGraph) := do
  let f ← g.require id
  match g.lookup? f.name with
  | some held =>
    if held = id ∨ g.sameForm held id then .ok (held,g) else .error (.duplicateName f.name)
  | none => .ok (id,g.enter id f)

def relabel (g : FormGraph) (id : FormId) (labels : Labels) : FormGraph :=
  match g.get? id with
  | some f => g.store id {f with labels := some labels}
  | none => g

/-- The labels go to the form that holds the name. -/
def registerLabelled (g : FormGraph) (id : FormId) (labels : List String) :
    Except FormError (FormId × FormGraph) := do
  let f ← g.require id
  let l ← labelsFor f.name f.body labels
  let (held,h) ← g.register id
  .ok (held,h.relabel held l)

end FormGraph
end AddressedForms
