import AddressedForms.Document.Vocabulary
set_option autoImplicit false

/-!
Sketches of forms, as a document gives them: with names for sub-forms and nothing resolved. The
sub-forms that are defined on the spot are sketched first. A sketch with a fault of its own still
takes its name, and is marked as unsound.
-/

namespace AddressedForms

structure FormSketch where
  name : String
  kind : Kind
  tag : String
  parts : List String
  labels : Option (List String)
  module : Option Node
  /-- Whether the definition stands at the top level of the document. -/
  top : Bool
  sound : Bool

namespace FormSketch

def header (n : Node) : Attempt (String × Kind) := do
  let name ← n.require "name"
  let tag ← n.require "type"
  match Kind.ofText? tag with
  | some k => .success (name,k)
  | none => .failure (.unknownTypeTag .form tag)

/-- The name of a sub-form, whether it is referred to or defined on the spot. -/
def partName? (n : Node) : Option String :=
  match n.reference? with
  | some name => some name
  | none => n.name?

def partNames (n : Node) (kind : Kind) : List (Option String) :=
  if kind = .simple then [] else (n.children.filter Node.isForm).map partName?

def countFits (kind : Kind) (count : Nat) : Bool :=
  match kind with
  | .simple => true
  | .limit | .colimit => count ≠ 0
  | .power | .list => count = 1

def contentFaults (n : Node) (name : String) (kind : Kind) (count : Nat) : List ReadError :=
  if kind = .simple ∧ (n.child? "Module").isNone then
    [.malformed n.tag ("form '" ++ name ++ "' has no module")]
  else if !countFits kind count then
    [.malformed n.tag
      (kind.text ++ " form '" ++ name ++ "' has " ++ toString count ++ " sub-forms")]
  else []

def labelNames (n : Node) : Attempt (Option (List String)) :=
  match n.child? "Labels" with
  | none => .success none
  | some l => match (l.childrenTagged "Label").mapM Node.name? with
    | some names => .success (some names)
    | none => .malformed l.tag "label without a name"

def labelsFit (kind : Kind) (count : Nat) (names : List String) : Bool :=
  (kind = .limit || kind = .colimit) && names.length = count && decide names.Nodup

def labelFaults (n : Node) (name : String) (kind : Kind) (count : Nat) : List ReadError :=
  match labelNames n with
  | ⟨none,es⟩ => es
  | ⟨some none,_⟩ => []
  | ⟨some (some names),_⟩ =>
    if labelsFit kind count names then []
    else [.malformed n.tag ("labels of form '" ++ name ++ "' do not match its sub-forms")]

/-- What is wrong with a definition by itself. -/
def faults (n : Node) (name : String) (kind : Kind) : List ReadError :=
  let count := ((partNames n kind).filterMap id).length
  contentFaults n name kind count ++ labelFaults n name kind count

def ofNode (top : Bool) (n : Node) (name : String) (kind : Kind) : FormSketch where
  name := name
  kind := kind
  tag := n.tag
  parts := (partNames n kind).filterMap id
  labels := (labelNames n).value?.bind id
  module := if kind = .simple then n.child? "Module" else none
  top := top
  sound := (faults n name kind).isEmpty && (partNames n kind).all Option.isSome

end FormSketch

structure FormSketches where
  sketches : List FormSketch
  reports : List ReadError

namespace FormSketches

def empty : FormSketches := ⟨[],[]⟩

def named? (s : FormSketches) (name : String) : Option FormSketch :=
  s.sketches.find? (fun f => f.name = name)

def reportAll (s : FormSketches) (es : List ReadError) : FormSketches :=
  {s with reports := s.reports ++ es}

/-- The first sketch of a name keeps it. -/
def push (s : FormSketches) (f : FormSketch) : FormSketches :=
  match s.named? f.name with
  | some _ => s.reportAll [.duplicateName .form f.name]
  | none => {s with sketches := s.sketches ++ [f]}

mutual
def add (top : Bool) : Node → FormSketches → FormSketches
  | ⟨tag,attrs,children⟩, s =>
    if (attrs.get? "ref").isSome then s
    else match FormSketch.header ⟨tag,attrs,children⟩ with
    | ⟨none,es⟩ => s.reportAll es
    | ⟨some (name,kind),_⟩ =>
      let inner := if kind = .simple then s else addParts children s
      (inner.reportAll (FormSketch.faults ⟨tag,attrs,children⟩ name kind)).push
        (FormSketch.ofNode top ⟨tag,attrs,children⟩ name kind)
def addParts : List Node → FormSketches → FormSketches
  | [], s => s
  | n :: ns, s => if n.isForm then addParts ns (add false n s) else addParts ns s
end

end FormSketches
end AddressedForms
