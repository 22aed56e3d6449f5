import AddressedForms.DepthFirst
import AddressedForms.Form.Basic
import AddressedForms.Number.Integer
import AddressedForms.Table
set_option autoImplicit false

/-!
Form graphs. A form is first declared under the next free number and may then be referred to, by
itself too; later it is defined, once. The registered forms have their names to themselves. What a
form depends on is listed once, and after its sub-forms unless these lead back to it.
-/

namespace AddressedForms

inductive Slot where
  | declared (name : String) (kind : Kind)
  | defined (form : Form)

namespace Slot

def name : Slot → String
  | .declared name _ => name
  | .defined f => f.name

def kind : Slot → Kind
  | .declared _ kind => kind
  | .defined f => f.kind

def form? : Slot → Option Form
  | .declared _ _ => none
  | .defined f => some f

end Slot

structure FormGraph where
  slots : List Slot
  registry : Table FormId

namespace FormGraph

def empty : FormGraph := ⟨[],.empty⟩

instance : Inhabited FormGraph := ⟨empty⟩

def size (g : FormGraph) : Nat := g.slots.length

def slot? (g : FormGraph) (id : FormId) : Option Slot := g.slots[id.index]?

def get? (g : FormGraph) (id : FormId) : Option Form := (g.slot? id).bind Slot.form?

def name? (g : FormGraph) (id : FormId) : Option String := (g.slot? id).map Slot.name

def kind? (g : FormGraph) (id : FormId) : Option Kind := (g.slot? id).map Slot.kind

def contains (g : FormGraph) (id : FormId) : Bool := id.index < g.size

def isPending (g : FormGraph) (id : FormId) : Bool :=
  match g.slot? id with
  | some (.declared _ _) => true
  | _ => false

def ids (g : FormGraph) : List FormId := (List.range g.size).map FormId.mk

def definedIds (g : FormGraph) : List FormId := g.ids.filter (fun id => (g.get? id).isSome)

def lookup? (g : FormGraph) (name : String) : Option FormId := g.registry.get? name

def subForms (g : FormGraph) (id : FormId) : List FormId :=
  match g.get? id with
  | some f => f.subForms
  | none => []

def declare (g : FormGraph) (name : String) (kind : Kind) : FormId × FormGraph :=
  (⟨g.size⟩,{g with slots := g.slots ++ [.declared name kind]})

def store (g : FormGraph) (id : FormId) (f : Form) : FormGraph :=
  {g with slots := g.slots.set id.index (.defined f)}

def require (g : FormGraph) (id : FormId) : Except FormError Form :=
  match g.slot? id with
  | some (.defined f) => .ok f
  | some (.declared name _) => .error (.notDefined name)
  | none => .error (.unknownForm id)

/-- Only products and sums are labelled, with one label for each sub-form. -/
def labelsFor (name : String) (body : Body) (labels : List String) : Except FormError Labels :=
  match body with
  | .limit fs | .colimit fs =>
    if fs.length = labels.length then
      match Labels.ofList? labels with
      | some l => .ok l
      | none => .error (.invalidLabels name)
    else .error (.invalidLabels name)
  | _ => .error (.invalidLabels name)

def labelsFor? (name : String) (body : Body) :
    Option (List String) → Except FormError (Option Labels)
  | none => .ok none
  | some labels => (labelsFor name body labels).map some

def define (g : FormGraph) (id : FormId) (body : Body) (labels : Option (List String)) :
    Except FormError FormGraph :=
  match g.slot? id with
  | none => .error (.unknownForm id)
  | some (.defined f) => .error (.alreadyDefined f.name)
  | some (.declared name kind) =>
    if body.kind ≠ kind then .error (.kindMismatch name kind body.kind)
    else if body.subForms = [] ∧ kind ≠ .simple then .error (.emptyDiagram name)
    else match body.subForms.find? (fun sub => !g.contains sub) with
    | some sub => .error (.unknownForm sub)
    | none => do
      let labels ← labelsFor? name body labels
      .ok (g.store id ⟨name,body,labels,false⟩)

/-- Declares and defines a form; the declaration stays where the definition fails. -/
def add (g : FormGraph) (name : String) (body : Body) : Except FormError FormId × FormGraph :=
  let (id,h) := g.declare name body.kind
  match h.define id body none with
  | .ok k => (.ok id,k)
  | .error e => (.error e,h)

/-- Without labels of its own a form has the decimals of its positions for labels. -/
def positionOf? (g : FormGraph) (id : FormId) (label : String) : Option Nat := do
  let f ← g.get? id
  match f.labels with
  | some l => l.indexOf? label
  | none => (Integer.readIndex label).toOption.filter (· < f.count)

def labelAt? (g : FormGraph) (id : FormId) (index : Nat) : Option String := do
  let f ← g.get? id
  match f.labels with
  | some l => l.at? index
  | none => if index < f.count then some (toString index) else none

def nameOrId (g : FormGraph) (id : FormId) : String := (g.name? id).getD id.text

/-- Extends a list by the forms that are reachable around its members, sub-forms first. -/
def dependencies (g : FormGraph) (id : FormId) (known : List FormId) : List FormId :=
  (Walk.visit g.subForms (g.size+2) [] id ⟨known,[]⟩).finished

end FormGraph
end AddressedForms
