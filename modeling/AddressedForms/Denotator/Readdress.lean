import AddressedForms.Denotator.Order
set_option autoImplicit false

/-!
Evaluation at an element of the address, and change of the address along a morphism. Null-addressed
parts are left as they are by both.
-/

namespace AddressedForms
namespace Denotator

def movedTo (h : Head) (address : Module) : Head := {h with address := address}

mutual
def evaluate (x : Element) : Denotator → Except MappingError Denotator
  | .simple h m =>
    if h.address.isNull then .ok (.simple h m)
    else do
      let v ← m.apply x
      .ok (.simple (movedTo h .null) (.constant .null v))
  | .limit h fs =>
    if h.address.isNull then .ok (.limit h fs)
    else do
      let es ← evaluateAll x fs
      .ok (.limit (movedTo h .null) es)
  | .colimit h i f =>
    if h.address.isNull then .ok (.colimit h i f)
    else do
      let e ← f.evaluate x
      .ok (.colimit (movedTo h .null) i e)
  | .power h fs =>
    if h.address.isNull then .ok (.power h fs)
    else do
      let es ← evaluateAll x fs
      .ok (.power (movedTo h .null) (asSet es))
  | .list h fs =>
    if h.address.isNull then .ok (.list h fs)
    else do
      let es ← evaluateAll x fs
      .ok (.list (movedTo h .null) es)
def evaluateAll (x : Element) : List Denotator → Except MappingError (List Denotator)
  | [] => .ok []
  | f :: fs => do
    let e ← f.evaluate x
    let es ← evaluateAll x fs
    .ok (e :: es)
end

/-- The value at an element of the address; what has no address is its own value everywhere. -/
def valueAt (d : Denotator) (x : Element) : Except MappingError Denotator :=
  if d.address.isNull then .ok d
  else if d.address.contains x then d.evaluate x
  else .error (.outsideDomain d.address x)

mutual
/-- Every part over the old address is composed with a morphism from the new one. -/
def readdress (old new : Module) (m : Morphism) : Denotator → Except MappingError Denotator
  | .simple h f => do
    let g ← f.compose m
    .ok (.simple (movedTo h new) g)
  | .limit h fs => do
    let es ← readdressAll old new m fs
    .ok (.limit (movedTo h new) es)
  | .colimit h i f => do
    let e ← if f.address = old then f.readdress old new m else .ok f
    .ok (.colimit (movedTo h new) i e)
  | .power h fs => do
    let es ← readdressAll old new m fs
    .ok (.power (movedTo h new) (asSet es))
  | .list h fs => do
    let es ← readdressAll old new m fs
    .ok (.list (movedTo h new) es)
def readdressAll (old new : Module) (m : Morphism) :
    List Denotator → Except MappingError (List Denotator)
  | [] => .ok []
  | f :: fs => do
    let e ← if f.address = old then f.readdress old new m else .ok f
    let es ← readdressAll old new m fs
    .ok (e :: es)
end

def readdressTo? (d : Denotator) (address : Module) : Option Denotator :=
  if d.address = address then some d
  else (Morphism.canonical? address d.address).bind fun m =>
    (d.readdress d.address address m).toOption

def readdressAlong (d : Denotator) (m : Morphism) : Except DenotatorError Denotator :=
  if d.address.isNull then
    match d.readdressTo? m.domain with
    | some e => .ok e
    | none => .error (.addressMismatch m.domain d.address)
  else if m.codomain ≠ d.address then .error (.mapping (.notComposable m.codomain d.address))
  else fromMapping (d.readdress d.address m.domain m)

end Denotator
end AddressedForms
