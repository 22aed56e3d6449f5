import AddressedForms.Denotator.Construct
import AddressedForms.Document.DenotatorSketch
import AddressedForms.Document.LeafReading
import AddressedForms.Document.Resolution
set_option autoImplicit false

/-!
Assembly of denotators from their sketches. Every factor is assembled, so that all errors among
factors are reported; the value is moved to the address that the document gives.
-/

namespace AddressedForms

/-- What the names in a denotator stand for. -/
structure Surroundings where
  graph : FormGraph
  form? : String → Option FormId
  leaves : LeafScope

namespace DenotatorSketch

def kindOf (n : Node) : Attempt Kind := do
  let tag ← n.require "type"
  match Kind.ofText? tag with
  | some k => .success k
  | none => .failure (.unknownTypeTag .denotator tag)

def formOf (env : Surroundings) (n : Node) (kind : Kind) : Attempt FormId := do
  let name ← n.require "form"
  let form ← .ofOption (env.form? name)
  if env.graph.kind? form = some kind then .success form
  else .malformed n.tag ("form '" ++ name ++ "' is not " ++ kind.text)

def addressOf (env : Surroundings) (n : Node) : Attempt Module :=
  match n.child? "Address" with
  | none => .success .null
  | some a => match a.child? "Module" with
    | some m => Module.ofNested env.leaves m
    | none => .malformed a.tag "missing Module child"

def checkedAt (n : Node) (r : Except DenotatorError Denotator) : Attempt Denotator :=
  match r with
  | .ok d => .success d
  | .error e => .malformed n.tag e.message

def valueOf (env : Surroundings) (n : Node) (kind : Kind) (form : FormId) (address : Module)
    (parts : List (Attempt Denotator)) : Attempt Denotator :=
  match kind with
  | .simple =>
    match n.child? "Map" with
    | none => .malformed n.tag "missing Map child"
    | some c => do
      let f ← Morphism.ofCoordinate env.leaves address c
      checkedAt n (Denotator.ofMorphism env.graph form f)
  | .colimit => do
    let i ← n.parsed "index" Integer.readIndex IntegerError.message
    match parts with
    | [] => .malformed n.tag "missing Denotator child"
    | part :: _ => do
      let d ← part
      checkedAt n (Denotator.ofVariant env.graph form i d)
  | .limit => do
    let ds ← Attempt.all parts
    checkedAt n (Denotator.ofLimit env.graph form ds)
  | .power => do
    let ds ← Attempt.all parts
    checkedAt n (Denotator.ofSet env.graph form ds)
  | .list => do
    let ds ← Attempt.all parts
    checkedAt n (Denotator.ofList env.graph form ds)

def movedTo (n : Node) (address : Module) (d : Denotator) : Attempt Denotator :=
  if d.address = address then .success d
  else match d.readdressTo? address with
    | some e => .success e
    | none => .malformed n.tag ("cannot move to address " ++ address.text)

def assemble (env : Surroundings) (n : Node) (parts : List (Attempt Denotator)) :
    Attempt Denotator := do
  let kind ← kindOf n
  let form ← formOf env n kind
  let address ← addressOf env n
  let d ← valueOf env n kind form address parts
  let e ← movedTo n address d
  .success (match n.name? with
    | some name => e.named name
    | none => e)

mutual
/-- Named parts are looked up, all others are assembled in their places. -/
def build (env : Surroundings) (look : String → Attempt Denotator) :
    DenotatorSketch → Attempt Denotator
  | .use name => look name
  | .define name _ _ => look name
  | .inline n parts => assemble env n (buildAll env look parts)
def buildAll (env : Surroundings) (look : String → Attempt Denotator) :
    List DenotatorSketch → List (Attempt Denotator)
  | [] => []
  | s :: ss => s.build env look :: buildAll env look ss
end

end DenotatorSketch

namespace DenotatorDefinition

def uses (defs : Table DenotatorDefinition) (name : String) : List String :=
  match defs.get? name with
  | some d => DenotatorSketch.allUses d.parts
  | none => []

def build (env : Surroundings) (look : String → Attempt Denotator)
    (defs : Table DenotatorDefinition) (name : String) : Attempt Denotator :=
  match defs.get? name with
  | some d => DenotatorSketch.assemble env d.node (DenotatorSketch.buildAll env look d.parts)
  | none => .silent

def resolve (env : Surroundings) (outside : String → Option Denotator)
    (defs : Table DenotatorDefinition) : Resolution.Progress Denotator :=
  Resolution.settleAll .denotator defs.keys (uses defs) fun t =>
    build env (Resolution.lookup .denotator outside t) defs

end DenotatorDefinition
end AddressedForms
