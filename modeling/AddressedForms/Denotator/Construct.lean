import AddressedForms.Denotator.Readdress
import AddressedForms.Form.Equality
set_option autoImplicit false

/-!
Checked construction of denotators. A composite takes the address that its factors share, where
null-addressed factors go with every address.
-/

namespace AddressedForms
namespace Denotator

def requireForm (g : FormGraph) (id : FormId) : Except DenotatorError Form :=
  match g.get? id with
  | some f => .ok f
  | none => .error (.unknownForm id)

def requireKind (g : FormGraph) (id : FormId) (kind : Kind) : Except DenotatorError Form := do
  let f ← requireForm g id
  if f.kind = kind then .ok f else .error (.wrongKind f.name kind f.kind)

def checkForm (g : FormGraph) (expected : FormId) (d : Denotator) : Except DenotatorError Unit :=
  if g.equalForms expected d.form then .ok ()
  else .error (.formMismatch (g.nameOrId expected) (g.nameOrId d.form))

def checkForms (g : FormGraph) : List FormId → List Denotator → Except DenotatorError Unit
  | id :: ids, d :: ds => do
    checkForm g id d
    checkForms g ids ds
  | _, _ => .ok ()

def checkAll (g : FormGraph) (base : FormId) : List Denotator → Except DenotatorError Unit
  | [] => .ok ()
  | d :: ds => do
    checkForm g base d
    checkAll g base ds

/-- The one address of all factors that have one, given the address found so far. -/
def sharedAddressFrom : Module → List Denotator → Except DenotatorError Module
  | found, [] => .ok found
  | found, d :: ds =>
    if d.address.isNull then sharedAddressFrom found ds
    else if found.isNull then sharedAddressFrom d.address ds
    else if found = d.address then sharedAddressFrom found ds
    else .error (.addressMismatch found d.address)

def sharedAddress (ds : List Denotator) : Except DenotatorError Module := sharedAddressFrom .null ds

/-- Fits a factor under an address: the pair of the factor to store and the address to store it
under. A null address gives way to that of the factor. -/
def fitUnder (parent : Module) (child : Denotator) : Except DenotatorError (Denotator × Module) :=
  if child.address.isNull ∨ child.address = parent then .ok (child,parent)
  else if parent.isNull then .ok (child,child.address)
  else match child.readdressTo? parent with
    | some moved => .ok (moved,parent)
    | none => .error (.addressMismatch parent child.address)

/-- A value of another module is moved into the form's module where a canonical morphism leads. -/
def ofElement (g : FormGraph) (form : FormId) (x : Element) : Except DenotatorError Denotator := do
  let f ← requireKind g form .simple
  let m := f.module?.getD .null
  let v ← if m.contains x then .ok x
    else match Morphism.canonical? x.module m with
      | some c => fromMapping (c.apply x)
      | none => .error (.mapping (.moduleMismatch m x.module))
  .ok (.simple ⟨form,none,.null⟩ (.constant .null v))

def ofMorphism (g : FormGraph) (form : FormId) (c : Morphism) :
    Except DenotatorError Denotator := do
  let f ← requireKind g form .simple
  let m := f.module?.getD .null
  if c.codomain = m then .ok (.simple ⟨form,none,c.domain⟩ c)
  else .error (.mapping (.moduleMismatch m c.codomain))

def ofLimit (g : FormGraph) (form : FormId) (ds : List Denotator) :
    Except DenotatorError Denotator := do
  let f ← requireKind g form .limit
  if ds.length ≠ f.count then .error (.factorCount f.name f.count ds.length)
  else
    checkForms g f.subForms ds
    let address ← sharedAddress ds
    .ok (.limit ⟨form,none,address⟩ ds)

def ofVariant (g : FormGraph) (form : FormId) (index : Nat) (d : Denotator) :
    Except DenotatorError Denotator := do
  let f ← requireKind g form .colimit
  let expected ← fromPath (f.subForm index)
  checkForm g expected d
  .ok (.colimit ⟨form,none,d.address⟩ index d)

def ofSet (g : FormGraph) (form : FormId) (ds : List Denotator) :
    Except DenotatorError Denotator := do
  let f ← requireKind g form .power
  let base ← fromPath (f.subForm 0)
  checkAll g base ds
  let address ← sharedAddress ds
  .ok (.power ⟨form,none,address⟩ (asSet ds))

def ofList (g : FormGraph) (form : FormId) (ds : List Denotator) :
    Except DenotatorError Denotator := do
  let f ← requireKind g form .list
  let base ← fromPath (f.subForm 0)
  checkAll g base ds
  let address ← sharedAddress ds
  .ok (.list ⟨form,none,address⟩ ds)

end Denotator
end AddressedForms
