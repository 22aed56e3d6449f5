import AddressedForms.Form.Graph
set_option autoImplicit false

/-!
Outlines of forms: a name, a kind and a list of parts, each with or without a label, which become a
definition once every part has its label or none has.
-/

namespace AddressedForms

structure Outline where
  name : String
  kind : Kind
  module : Module
  parts : List (Option String × FormId)

namespace Outline

def simple (name : String) (module : Module) : Outline := ⟨name,.simple,module,[]⟩
def limit (name : String) : Outline := ⟨name,.limit,.null,[]⟩
def colimit (name : String) : Outline := ⟨name,.colimit,.null,[]⟩
def power (name : String) (base : FormId) : Outline := ⟨name,.power,.null,[(none,base)]⟩
def list (name : String) (base : FormId) : Outline := ⟨name,.list,.null,[(none,base)]⟩

def factor (o : Outline) (id : FormId) : Outline := {o with parts := o.parts ++ [(none,id)]}

def labelled (o : Outline) (label : String) (id : FormId) : Outline :=
  {o with parts := o.parts ++ [(some label,id)]}

def base (o : Outline) : Except FormError FormId :=
  match o.parts with
  | [(_,id)] => .ok id
  | [] => .error (.emptyDiagram o.name)
  | _ => .error (.invalidLabels o.name)

def body (o : Outline) : Except FormError Body :=
  match o.kind with
  | .simple => .ok (.simple o.module)
  | .limit => .ok (.limit (o.parts.map Prod.snd))
  | .colimit => .ok (.colimit (o.parts.map Prod.snd))
  | .power => o.base.map .power
  | .list => o.base.map .list

def labels (o : Outline) : Except FormError (Option (List String)) :=
  if o.parts.all (fun p => p.1.isNone) then .ok none
  else match o.parts.mapM Prod.fst with
    | some names => .ok (some names)
    | none => .error (.invalidLabels o.name)

def define (o : Outline) (g : FormGraph) (id : FormId) : Except FormError FormGraph := do
  let body ← o.body
  let labels ← o.labels
  g.define id body labels

def build (o : Outline) (g : FormGraph) : Except FormError FormId × FormGraph :=
  let (id,h) := g.declare o.name o.kind
  match o.define h id with
  | .ok k => (.ok id,k)
  | .error e => (.error e,h)

end Outline
end AddressedForms
