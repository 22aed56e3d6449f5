import AddressedForms.Denotator.Equality
import AddressedForms.Denotator.Validate
import AddressedForms.Form.Registry
set_option autoImplicit false

/-!
Repositories: a form graph with its registered forms, and a catalogue of named denotators.
-/

namespace AddressedForms

structure Repository where
  forms : FormGraph
  denotators : Table Denotator

namespace Repository

def empty : Repository := ⟨.empty,.empty⟩

instance : Inhabited Repository := ⟨empty⟩

def form? (r : Repository) (name : String) : Option FormId := r.forms.lookup? name

def denotator? (r : Repository) (name : String) : Option Denotator := r.denotators.get? name

def registerForm (r : Repository) (id : FormId) : Except FormError (FormId × Repository) := do
  let (held,g) ← r.forms.register id
  .ok (held,{r with forms := g})

def registerFormLabelled (r : Repository) (id : FormId) (labels : List String) :
    Except FormError (FormId × Repository) := do
  let (held,g) ← r.forms.registerLabelled id labels
  .ok (held,{r with forms := g})

/-- An equal denotator under the same name is already there; a different one is refused. -/
def registerDenotator (r : Repository) (d : Denotator) : Except DenotatorError Repository :=
  match d.name with
  | none => .error .unnamed
  | some name => do
    d.validate r.forms
    match r.denotators.get? name with
    | some held =>
      if held.equals r.forms d then .ok r else .error (.duplicateName name)
    | none => .ok {r with denotators := r.denotators.insert name d}

end Repository
end AddressedForms
