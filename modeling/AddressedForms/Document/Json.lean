import AddressedForms.Document.Node
import AddressedForms.Json.Parse
import AddressedForms.Json.Print
set_option autoImplicit false

/-!
Nodes as JSON: an object of a tag, attributes and children, the latter two left out when empty. An
array of the three in order is read as well, and unknown keys are passed over.
-/

namespace AddressedForms

namespace Json

def unique? (key : String) (ms : List (Option String × Json)) : Option (Option Json) :=
  match ms.filter (fun m => m.1 = some key) with
  | [] => some none
  | [m] => some (some m.2)
  | _ => none

def text? : Json → Option String
  | .string s => s
  | _ => none

def keysAreTexts (ms : List (Option String × Json)) : Bool := ms.all (fun m => m.1.isSome)

end Json

namespace Node

def attrsJson (t : Table String) : Json :=
  .object (t.entries.map (fun e => (some e.1,.string (some e.2))))

mutual
def json : Node → Json
  | ⟨tag,attrs,children⟩ =>
    .object ((some "tag",.string (some tag)) ::
      ((if attrs.isEmpty then [] else [(some "attrs",attrsJson attrs)]) ++
        (if children.isEmpty then [] else [(some "children",.array (jsons children))])))
def jsons : List Node → List Json
  | [] => []
  | n :: ns => n.json :: jsons ns
end

def compactText (n : Node) : String := n.json.compact

def prettyText (n : Node) : String := n.json.pretty

/-- Of a repeated attribute the last value counts. -/
def attrsOfMembers? : List (Option String × Json) → Table String → Option (Table String)
  | [], t => some t
  | (some k,.string (some v)) :: ms, t => attrsOfMembers? ms (t.insert k v)
  | _, _ => none

def attrsOfJson? : Json → Option (Table String)
  | .object ms => attrsOfMembers? ms .empty
  | _ => none

mutual
/-- The depth is the number of containers that may still be opened, the one at hand included. -/
def ofJson? : Nat → Json → Option Node
  | 0, _ => none
  | depth+1, .object ms => do
    if !Json.keysAreTexts ms then none
    let tag ← (← Json.unique? "tag" ms).bind Json.text?
    let attrs ← match ← Json.unique? "attrs" ms with
      | none => some .empty
      | some a => if depth = 0 then none else attrsOfJson? a
    let children ← match ← Json.unique? "children" ms with
      | none => some []
      | some c => ofArray? depth c
    some ⟨tag,attrs,children⟩
  | _+1, .array [t] => do
    let tag ← t.text?
    some ⟨tag,.empty,[]⟩
  | depth+1, .array [t,a] => do
    let tag ← t.text?
    let attrs ← if depth = 0 then none else attrsOfJson? a
    some ⟨tag,attrs,[]⟩
  | depth+1, .array [t,a,c] => do
    let tag ← t.text?
    let attrs ← if depth = 0 then none else attrsOfJson? a
    let children ← ofArray? depth c
    some ⟨tag,attrs,children⟩
  | _+1, _ => none
def ofArray? : Nat → Json → Option (List Node)
  | depth+1, .array xs => xs.mapM (fun x => ofJson? depth x)
  | _, _ => none
end

/-- Containers nest to this depth; what is passed over is not counted. -/
def maxJsonDepth : Nat := 127

def ofJsonBytes? (bs : List UInt8) : Option Node := (Json.parse? bs).bind (ofJson? maxJsonDepth)

end Node
end AddressedForms
