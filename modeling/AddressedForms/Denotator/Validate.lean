import AddressedForms.Denotator.Construct
set_option autoImplicit false

/-!
Validation of denotators against a form graph: kinds, forms and number of factors, addresses, and
domain and codomain of every morphism. The first violation on the way down is reported.
-/

namespace AddressedForms
namespace Denotator

def checkMorphism (address module : Module) (m : Morphism) : Except DenotatorError Unit :=
  if m.domain ≠ address then .error (.addressMismatch address m.domain)
  else if m.codomain ≠ module then .error (.mapping (.moduleMismatch module m.codomain))
  else .ok ()

/-- All that concerns the node itself and the forms of its factors. -/
def checkNode (g : FormGraph) (d : Denotator) : Except DenotatorError Unit := do
  let f ← requireForm g d.form
  match f.body, d with
  | .simple module, .simple h m => checkMorphism h.address module m
  | .limit subs, .limit _ ds =>
    if subs.length ≠ ds.length then .error (.factorCount f.name subs.length ds.length)
    else checkForms g subs ds
  | .colimit _, .colimit _ i e => do
    let expected ← fromPath (f.subForm i)
    checkForm g expected e
  | .power base, .power _ ds => checkAll g base ds
  | .list base, .list _ ds => checkAll g base ds
  | body, d => .error (.wrongKind f.name body.kind d.kind)

def checkAddress (parent : Module) (d : Denotator) : Except DenotatorError Unit :=
  if d.address.isNull ∨ d.address = parent then .ok ()
  else .error (.addressMismatch parent d.address)

mutual
def validate (g : FormGraph) : Denotator → Except DenotatorError Unit
  | .simple h m => checkNode g (.simple h m)
  | .limit h ds => do
    checkNode g (.limit h ds)
    validateAll g h.address ds
  | .colimit h i d => do
    checkNode g (.colimit h i d)
    checkAddress h.address d
    d.validate g
  | .power h ds => do
    checkNode g (.power h ds)
    validateAll g h.address ds
  | .list h ds => do
    checkNode g (.list h ds)
    validateAll g h.address ds
def validateAll (g : FormGraph) (address : Module) : List Denotator → Except DenotatorError Unit
  | [] => .ok ()
  | d :: ds => do
    checkAddress address d
    d.validate g
    validateAll g address ds
end

def isValid (g : FormGraph) (d : Denotator) : Bool := (d.validate g).toOption.isSome

end Denotator
end AddressedForms
