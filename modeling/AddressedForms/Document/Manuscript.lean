import AddressedForms.Denotator.Dependencies
import AddressedForms.Denotator.Equality
import AddressedForms.Document.Cbor
import AddressedForms.Document.Error
import AddressedForms.Document.LeafNodes
import AddressedForms.Document.Settings
set_option autoImplicit false

/-!
Manuscripts: documents as they are being written. A form or a named denotator is entered once, after
all it refers to, and is referred to by its name from then on. An entry that is refused leaves the
manuscript as it is, and what was to follow it for the same request is not tried.
-/

namespace AddressedForms

structure Manuscript where
  forms : FormGraph
  nodes : List Node
  writtenForms : Table FormId
  writtenDenotators : Table Denotator
  names : NamedLeaves
  defined : List (Symbol × String)

/-- What a single node of a document is written for. -/
inductive Entry where
  | form (id : FormId)
  | denotator (d : Denotator)
  | module (name : String) (value : Module)
  | element (name : String) (value : Element)
  | morphism (name : String) (value : Morphism)

namespace Entry

/-- The entries to make for one that is asked for: what it depends on, and then the entry itself. A
named denotator is the last of its own dependencies; an anonymous one is written each time. -/
def expand (g : FormGraph) : Entry → List Entry
  | .form id => (g.dependencies id []).map .form
  | .denotator d =>
    (d.formDependencies g []).map .form ++ (d.dependencies []).map .denotator ++
      (if d.name.isNone then [.denotator d] else [])
  | e => [e]

end Entry

namespace Manuscript

def empty (g : FormGraph) : Manuscript := ⟨g,[],.empty,.empty,.empty,[]⟩

instance : Inhabited Manuscript := ⟨empty .empty⟩

def push (m : Manuscript) (n : Node) : Manuscript := {m with nodes := m.nodes ++ [n]}

def formName (g : FormGraph) (id : FormId) : Except WriteError String :=
  match g.name? id with
  | some name => .ok name
  | none => .error (.unknownForm id)

def formReference (g : FormGraph) (id : FormId) : Except WriteError Node := do
  let name ← formName g id
  .ok (.reference "Form" name)

def labelNode (name : String) : Node := (Node.leaf "Label").withAttr "name" name

def labelsNode (l : Labels) : Node := (Node.leaf "Labels").withChildren (l.names.map labelNode)

def formNode (g : FormGraph) (names : NamedLeaves) (f : Form) : Except WriteError Node := do
  let parts ← match f.body with
    | .simple m => .ok [m.node names]
    | b => b.subForms.mapM (formReference g)
  let labels := match f.labels with
    | some l => [labelsNode l]
    | none => []
  .ok ((((Node.leaf "Form").withAttr "name" f.name).withAttr "type" f.kind.text).withChildren
    (parts ++ labels))

def headNode (g : FormGraph) (d : Denotator) : Except WriteError Node := do
  let form ← formName g d.form
  let n := ((Node.leaf "Denotator").withAttr "type" d.kind.text).withAttr "form" form
  .ok (match d.name with
    | some name => n.withAttr "name" name
    | none => n)

/-- A null address is left out. -/
def addressNodes (names : NamedLeaves) (address : Module) : List Node :=
  if address.isNull then [] else [(Node.leaf "Address").withChildren [address.node names]]

mutual
def nodeOf (g : FormGraph) (names : NamedLeaves) : Denotator → Except WriteError Node
  | .simple h f => do
    let n ← headNode g (.simple h f)
    .ok (n.withChildren (addressNodes names h.address ++ [f.coordinateNode names h.address]))
  | .colimit h i d => do
    let n ← headNode g (.colimit h i d)
    let c ← match d.name with
      | some name => .ok (.reference "Denotator" name)
      | none => nodeOf g names d
    .ok ((n.withAttr "index" (toString i)).withChildren (addressNodes names h.address ++ [c]))
  | .limit h ds => do
    let n ← headNode g (.limit h ds)
    let cs ← nodesOf g names ds
    .ok (n.withChildren (addressNodes names h.address ++ cs))
  | .power h ds => do
    let n ← headNode g (.power h ds)
    let cs ← nodesOf g names ds
    .ok (n.withChildren (addressNodes names h.address ++ cs))
  | .list h ds => do
    let n ← headNode g (.list h ds)
    let cs ← nodesOf g names ds
    .ok (n.withChildren (addressNodes names h.address ++ cs))
def nodesOf (g : FormGraph) (names : NamedLeaves) :
    List Denotator → Except WriteError (List Node)
  | [] => .ok []
  | d :: ds => do
    let c ← match d.name with
      | some name => .ok (.reference "Denotator" name)
      | none => nodeOf g names d
    let cs ← nodesOf g names ds
    .ok (c :: cs)
end

/-- A second form under a name must be equal to the first, and is then not written again. -/
def enterForm (m : Manuscript) (id : FormId) : Except WriteError Manuscript :=
  match m.forms.get? id with
  | none => .error (.unknownForm id)
  | some f =>
    match m.writtenForms.get? f.name with
    | some held =>
      if held = id ∨ m.forms.equalForms held id then .ok m else .error (.nameClash .form f.name)
    | none => do
      let n ← formNode m.forms m.names f
      .ok {m.push n with writtenForms := m.writtenForms.insert f.name id}

def enterDenotator (m : Manuscript) (d : Denotator) : Except WriteError Manuscript :=
  match d.name with
  | none => do
    let n ← nodeOf m.forms m.names d
    .ok (m.push n)
  | some name =>
    match m.writtenDenotators.get? name with
    | some held =>
      if held = d ∨ held.equals m.forms d then .ok m else .error (.nameClash .denotator name)
    | none => do
      let n ← nodeOf m.forms m.names d
      .ok {m.push n with writtenDenotators := m.writtenDenotators.insert name d}

/-- Definitions of one kind have different names. -/
def claimName (m : Manuscript) (s : Symbol) (name : String) : Except WriteError Manuscript :=
  if (s,name) ∈ m.defined then .error (.nameClash s name)
  else .ok {m with defined := (s,name) :: m.defined}

def definition (tag name : String) (body : Node) : Node :=
  ((Node.leaf tag).withAttr "name" name).withChildren [body]

def enterModule (m : Manuscript) (name : String) (x : Module) : Except WriteError Manuscript := do
  let m ← m.claimName .module name
  .ok {m.push (definition "DefineModule" name (x.body m.names)) with
    names := {m.names with modules := (x,name) :: m.names.modules}}

def enterElement (m : Manuscript) (name : String) (x : Element) : Except WriteError Manuscript := do
  let m ← m.claimName .element name
  .ok {m.push (definition "DefineModuleElement" name (x.body m.names)) with
    names := {m.names with elements := (x,name) :: m.names.elements}}

def enterMorphism (m : Manuscript) (name : String) (f : Morphism) :
    Except WriteError Manuscript := do
  let m ← m.claimName .morphism name
  .ok {m.push (definition "DefineModuleMorphism" name (f.body m.names)) with
    names := {m.names with morphisms := (f,name) :: m.names.morphisms}}

def enter (m : Manuscript) : Entry → Except WriteError Manuscript
  | .form id => m.enterForm id
  | .denotator d => m.enterDenotator d
  | .module name x => m.enterModule name x
  | .element name x => m.enterElement name x
  | .morphism name f => m.enterMorphism name f

/-- What was entered before a refusal stays. -/
def enterAll (m : Manuscript) : List Entry → Except WriteError Unit × Manuscript
  | [] => (.ok (),m)
  | e :: es => match m.enter e with
    | .ok k => k.enterAll es
    | .error err => (.error err,m)

def write (m : Manuscript) (e : Entry) : Except WriteError Unit × Manuscript :=
  m.enterAll (e.expand m.forms)

def writeAll (m : Manuscript) : List Entry → Except WriteError Manuscript
  | [] => .ok m
  | e :: es => match m.write e with
    | (.ok _,k) => k.writeAll es
    | (.error err,_) => .error err

def node (m : Manuscript) : Node :=
  ((Node.leaf "Document").withAttr "version" Node.formatVersion).withChildren m.nodes

def jsonText (m : Manuscript) (s : Settings) : String :=
  if s.pretty then m.node.prettyText else m.node.compactText

def bytes (m : Manuscript) (s : Settings) : List UInt8 :=
  match s.format with
  | .json => (m.jsonText s).toByteArray.data.toList
  | .cbor => m.node.cbor

/-- The document of some forms and then some denotators, with all that they depend on. -/
def ofForms (g : FormGraph) (ids : List FormId) (ds : List Denotator) :
    Except WriteError Manuscript :=
  (empty g).writeAll (ids.map .form ++ ds.map .denotator)

end Manuscript
end AddressedForms
