import AddressedForms.Form.Graph
import AddressedForms.Address.Morphism
set_option autoImplicit false

/-!
Denotators: values of forms, parameterised over an address. The coordinate is a morphism for a
simple form, and otherwise one factor for each sub-form, an active variant, a set, or a sequence.
-/

namespace AddressedForms

structure Head where
  form : FormId
  name : Option String
  address : Module
  deriving DecidableEq

inductive Denotator where
  | simple (head : Head) (morphism : Morphism)
  | limit (head : Head) (factors : List Denotator)
  | colimit (head : Head) (index : Nat) (factor : Denotator)
  | power (head : Head) (factors : List Denotator)
  | list (head : Head) (factors : List Denotator)

inductive DenotatorError where
  | formMismatch (expected found : String)
  | addressMismatch (expected found : Module)
  | factorCount (form : String) (expected found : Nat)
  | wrongKind (form : String) (expected found : Kind)
  | unknownForm (id : FormId)
  | noDefault (form : String)
  | unnamed
  | duplicateName (name : String)
  | path (error : PathError)
  | mapping (error : MappingError)
  deriving DecidableEq

namespace DenotatorError

def message : DenotatorError → String
  | .formMismatch expected found =>
    "form mismatch: expected '" ++ expected ++ "', found '" ++ found ++ "'"
  | .addressMismatch expected found =>
    "address mismatch: expected " ++ expected.text ++ ", found " ++ found.text
  | .factorCount form expected found =>
    "form '" ++ form ++ "' expects " ++ toString expected ++ " factors, found " ++ toString found
  | .wrongKind form expected found =>
    "form '" ++ form ++ "' is " ++ found.text ++ ", expected " ++ expected.text
  | .unknownForm id => "unknown form id " ++ id.text
  | .noDefault form => "form '" ++ form ++ "' has no default denotator"
  | .unnamed => "denotator has no name"
  | .duplicateName name => "a different denotator named '" ++ name ++ "' is already registered"
  | .path e => e.message
  | .mapping e => e.message

end DenotatorError

namespace Denotator
variable {α : Type}

instance : Inhabited Denotator := ⟨.simple ⟨⟨0⟩,none,.null⟩ default⟩

def fromPath (r : Except PathError α) : Except DenotatorError α := r.mapError .path

def fromMapping (r : Except MappingError α) : Except DenotatorError α := r.mapError .mapping

def head : Denotator → Head
  | .simple h _ | .limit h _ | .colimit h _ _ | .power h _ | .list h _ => h

def withHead (h : Head) : Denotator → Denotator
  | .simple _ m => .simple h m
  | .limit _ fs => .limit h fs
  | .colimit _ i f => .colimit h i f
  | .power _ fs => .power h fs
  | .list _ fs => .list h fs

def form (d : Denotator) : FormId := d.head.form

def name (d : Denotator) : Option String := d.head.name

def address (d : Denotator) : Module := d.head.address

def kind : Denotator → Kind
  | .simple _ _ => .simple
  | .limit _ _ => .limit
  | .colimit _ _ _ => .colimit
  | .power _ _ => .power
  | .list _ _ => .list

/-- A sum has its active variant for a factor. -/
def factors : Denotator → List Denotator
  | .simple _ _ => []
  | .colimit _ _ f => [f]
  | .limit _ fs | .power _ fs | .list _ fs => fs

def index? : Denotator → Option Nat
  | .colimit _ i _ => some i
  | _ => none

def morphism? : Denotator → Option Morphism
  | .simple _ m => some m
  | _ => none

def element? (d : Denotator) : Option Element := d.morphism?.bind Morphism.constantValue?

def named (d : Denotator) (name : String) : Denotator := d.withHead {d.head with name := some name}

def anonymous (d : Denotator) : Denotator := d.withHead {d.head with name := none}

mutual
/-- Whether the value is the same at every element of the address. -/
def isConstant : Denotator → Bool
  | .simple _ m => m.isConstant
  | .colimit _ _ f => f.isConstant
  | .limit _ fs | .power _ fs | .list _ fs => allConstant fs
def allConstant : List Denotator → Bool
  | [] => true
  | f :: fs => f.isConstant && allConstant fs
end

@[simp] theorem head_withHead (d : Denotator) (h : Head) : (d.withHead h).head = h := by
  cases d <;> rfl

@[simp] theorem kind_withHead (d : Denotator) (h : Head) : (d.withHead h).kind = d.kind := by
  cases d <;> rfl

@[simp] theorem factors_withHead (d : Denotator) (h : Head) :
    (d.withHead h).factors = d.factors := by cases d <;> rfl

@[simp] theorem withHead_head (d : Denotator) : d.withHead d.head = d := by cases d <;> rfl

end Denotator
end AddressedForms
