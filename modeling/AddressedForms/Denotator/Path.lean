import AddressedForms.Denotator.Construct
set_option autoImplicit false

/-!
Descent by positions or labels, and replacement along a path, which rebuilds the nodes above the
replaced one and fits each rebuilt factor under its parent.
-/

namespace AddressedForms
namespace Denotator

/-- At a sum only the active variant can be entered. -/
def step (d : Denotator) (index depth : Nat) : Except PathError Denotator :=
  match d with
  | .simple _ _ => .error (.pastLeaf depth)
  | .colimit _ active f =>
    if index = active then .ok f else .error (.inactiveVariant depth index active)
  | .limit _ fs | .power _ fs | .list _ fs =>
    match fs[index]? with
    | some f => .ok f
    | none => .error (.indexOutOfRange depth index fs.length)

def getFrom (depth : Nat) : List Nat → Denotator → Except PathError Denotator
  | [], d => .ok d
  | i :: path, d => do
    let f ← d.step i depth
    getFrom (depth+1) path f

def get (d : Denotator) (path : List Nat) : Except PathError Denotator := getFrom 0 path d

/-- Sets and lists have the decimals of their positions for labels. -/
def positionOf? (g : FormGraph) (d : Denotator) (label : String) : Option Nat :=
  match d.kind with
  | .power | .list => (Integer.readIndex label).toOption
  | .simple | .limit | .colimit => g.positionOf? d.form label

def getLabelledFrom (g : FormGraph) (depth : Nat) :
    List String → Denotator → Except PathError Denotator
  | [], d => .ok d
  | label :: labels, d =>
    match positionOf? g d label with
    | none => .error (.unknownLabel label)
    | some i => do
      let f ← d.step i depth
      getLabelledFrom g (depth+1) labels f

def getLabelled (g : FormGraph) (d : Denotator) (labels : List String) :
    Except PathError Denotator := getLabelledFrom g 0 labels d

/-- Stores a factor at a position; a sum changes to that variant. -/
def withFactor (d : Denotator) (index : Nat) (address : Module) (f : Denotator) : Denotator :=
  match d with
  | .simple h m => .simple (movedTo h address) m
  | .limit h fs => .limit (movedTo h address) (fs.set index f)
  | .colimit h _ _ => .colimit (movedTo h address) index f
  | .power h fs => .power (movedTo h address) (asSet (fs.set index f))
  | .list h fs => .list (movedTo h address) (fs.set index f)

def accept (g : FormGraph) (f : Form) (index depth : Nat) (new : Denotator) :
    Except DenotatorError Denotator := do
  let expected ← fromPath ((f.subForm index).mapError (PathError.below depth))
  checkForm g expected new
  .ok new

/-- At the end of the path a sum may change its variant. -/
def replaceFrom (g : FormGraph) (new : Denotator) :
    Nat → List Nat → Denotator → Except DenotatorError Denotator
  | _, [], _ => .ok new
  | depth, i :: path, d => do
    let f ← requireForm g d.form
    let child ← match d, path with
      | .simple _ _, _ => .error (.path (.pastLeaf depth))
      | .colimit _ _ _, [] => accept g f i depth new
      | d, [] => do
        let _ ← fromPath (d.step i depth)
        accept g f i depth new
      | d, _ :: _ => do
        let current ← fromPath (d.step i depth)
        replaceFrom g new (depth+1) path current
    let (child,address) ← fitUnder d.address child
    .ok (d.withFactor i address child)

def replace (g : FormGraph) (d : Denotator) (path : List Nat) (new : Denotator) :
    Except DenotatorError Denotator :=
  match path with
  | [] => do
    checkForm g d.form new
    .ok new
  | _ :: _ => replaceFrom g new 0 path d

/-- Follows the coordinate of a simple node by an endomorphism of its module. -/
def map (g : FormGraph) (d : Denotator) (path : List Nat) (m : Morphism) :
    Except DenotatorError Denotator := do
  let target ← fromPath (d.get path)
  match target.morphism? with
  | none => .error (.path (.notSimple path.length))
  | some current =>
    if m.domain ≠ current.codomain ∨ m.codomain ≠ current.codomain then
      .error (.mapping (.notComposable current.codomain m.domain))
    else
      let composed ← fromMapping (m.compose current)
      d.replace g path (.simple target.head composed)

end Denotator
end AddressedForms
