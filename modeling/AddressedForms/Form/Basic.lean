import AddressedForms.Address.Module
set_option autoImplicit false

/-!
Forms: named type descriptors of five kinds, which refer to their sub-forms by number. A descent
through factors or sub-forms fails at a depth.
-/

namespace AddressedForms

inductive Kind where
  | simple
  | limit
  | colimit
  | power
  | list
  deriving DecidableEq, Repr

namespace Kind

def all : List Kind := [.simple,.limit,.colimit,.power,.list]

/-- Ordinals enter fingerprints. -/
def ordinal : Kind → Nat
  | .simple => 0
  | .limit => 1
  | .colimit => 2
  | .power => 3
  | .list => 4

def text : Kind → String
  | .simple => "Simple"
  | .limit => "Limit"
  | .colimit => "Colimit"
  | .power => "Power"
  | .list => "List"

def ofText? (s : String) : Option Kind := all.find? (fun k => k.text = s)

@[simp] theorem ofText?_text (k : Kind) : ofText? k.text = some k := by cases k <;> decide

end Kind

structure FormId where
  index : Nat
  deriving DecidableEq, Repr

namespace FormId

protected def compare (a b : FormId) : Ordering := compare a.index b.index

instance : Ord FormId := ⟨FormId.compare⟩

theorem compare_eq_iff (a b : FormId) : a.compare b = .eq ↔ a = b := by
  cases a; cases b; simp [FormId.compare]

def text (a : FormId) : String := "FormId(" ++ toString a.index ++ ")"

end FormId

inductive PathError where
  | indexOutOfRange (depth index length : Nat)
  | inactiveVariant (depth requested active : Nat)
  | pastLeaf (depth : Nat)
  | notSimple (depth : Nat)
  | unknownLabel (label : String)
  deriving DecidableEq, Repr

namespace PathError

def message : PathError → String
  | .indexOutOfRange depth index length =>
    "index " ++ toString index ++ " out of range at depth " ++ toString depth ++
      " (length " ++ toString length ++ ")"
  | .inactiveVariant depth requested active =>
    "variant " ++ toString requested ++ " is not active at depth " ++ toString depth ++
      " (active: " ++ toString active ++ ")"
  | .pastLeaf depth => "path continues past a simple denotator at depth " ++ toString depth
  | .notSimple depth => "path does not end at a simple denotator (depth " ++ toString depth ++ ")"
  | .unknownLabel label => "unknown label '" ++ label ++ "'"

def below (depth : Nat) : PathError → PathError
  | .indexOutOfRange _ index length => .indexOutOfRange depth index length
  | .inactiveVariant _ requested active => .inactiveVariant depth requested active
  | .pastLeaf _ => .pastLeaf depth
  | .notSimple _ => .notSimple depth
  | .unknownLabel label => .unknownLabel label

end PathError

inductive Body where
  | simple (module : Module)
  | limit (factors : List FormId)
  | colimit (variants : List FormId)
  | power (base : FormId)
  | list (base : FormId)
  deriving DecidableEq

namespace Body

def kind : Body → Kind
  | .simple _ => .simple
  | .limit _ => .limit
  | .colimit _ => .colimit
  | .power _ => .power
  | .list _ => .list

def subForms : Body → List FormId
  | .simple _ => []
  | .limit fs | .colimit fs => fs
  | .power f | .list f => [f]

end Body

/-- Distinct names for the positions of sub-forms. -/
structure Labels where
  names : List String
  distinct : names.Nodup

namespace Labels

def ofList? (names : List String) : Option Labels :=
  if h : names.Nodup then some ⟨names,h⟩ else none

def indexOf? (l : Labels) (name : String) : Option Nat := l.names.findIdx? (· = name)

def at? (l : Labels) (index : Nat) : Option String := l.names[index]?

end Labels

inductive FormError where
  | emptyDiagram (name : String)
  | invalidLabels (name : String)
  | unknownForm (id : FormId)
  | notDefined (name : String)
  | alreadyDefined (name : String)
  | kindMismatch (name : String) (declared defined : Kind)
  | duplicateName (name : String)
  | unknownKind (text : String)
  deriving DecidableEq, Repr

namespace FormError

def message : FormError → String
  | .emptyDiagram name => "form '" ++ name ++ "' has an empty diagram"
  | .invalidLabels name => "labels of form '" ++ name ++ "' are not a bijection onto its sub-forms"
  | .unknownForm id => "unknown form id " ++ id.text
  | .notDefined name => "form '" ++ name ++ "' is declared but not defined"
  | .alreadyDefined name => "form '" ++ name ++ "' is already defined"
  | .kindMismatch name declared defined =>
    "form '" ++ name ++ "' was declared as " ++ declared.text ++ " but defined as " ++ defined.text
  | .duplicateName name => "a different form named '" ++ name ++ "' is already registered"
  | .unknownKind text => "unknown form kind '" ++ text ++ "'"

end FormError

structure Form where
  name : String
  body : Body
  labels : Option Labels
  registered : Bool

namespace Form

def kind (f : Form) : Kind := f.body.kind

def subForms (f : Form) : List FormId := f.body.subForms

def module? (f : Form) : Option Module :=
  match f.body with
  | .simple m => some m
  | _ => none

def count (f : Form) : Nat := f.subForms.length

/-- A form with a single sub-form has it at every position. -/
def subForm (f : Form) (index : Nat) : Except PathError FormId :=
  match f.body with
  | .simple _ => .error (.pastLeaf 0)
  | .power base | .list base => .ok base
  | .limit fs | .colimit fs =>
    match fs[index]? with
    | some id => .ok id
    | none => .error (.indexOutOfRange 0 index fs.length)

end Form
end AddressedForms
