import AddressedForms.Cbor.Item
import AddressedForms.Document.Node
set_option autoImplicit false

/-!
Nodes as CBOR: a map of a tag, attributes and children, the latter two left out when empty. The keys
are read as texts, bytes or positions, and an array of the three in order is read as well.
-/

namespace AddressedForms

namespace Cbor

def textBytes (s : String) : List UInt8 :=
  let bs := s.toByteArray.data.toList
  head 3 bs.length ++ bs

namespace Item

def text? : Item → Option String
  | .text s => some s
  | .bytes bs => ofUtf8? bs
  | _ => none

/-- The field that a key names: none of them, or one of three; some keys are no keys. -/
inductive Field where
  | tag
  | attrs
  | children
  | unknown
  deriving DecidableEq

def Field.ofText (s : String) : Field :=
  if s = "tag" then .tag else if s = "attrs" then .attrs else if s = "children" then .children
  else .unknown

def field? : Item → Option Field
  | .unsigned 0 => some .tag
  | .unsigned 1 => some .attrs
  | .unsigned 2 => some .children
  | .unsigned _ => some .unknown
  | .text s => some (.ofText s)
  | .bytes bs => some (((ofUtf8? bs).map Field.ofText).getD .unknown)
  | _ => none

def unique? (f : Field) (es : List (Item × Item)) : Option (Option Item) :=
  match es.filter (fun e => e.1.field? = some f) with
  | [] => some none
  | [e] => some (some e.2)
  | _ => none

end Item
end Cbor

open Cbor

namespace Node

def attrBytes : List (String × String) → List UInt8
  | [] => []
  | e :: es => textBytes e.1 ++ textBytes e.2 ++ attrBytes es

mutual
def cbor : Node → List UInt8
  | ⟨tag,attrs,children⟩ =>
    Cbor.head 5 (1+(if attrs.isEmpty then 0 else 1)+(if children.isEmpty then 0 else 1)) ++
      textBytes "tag" ++ textBytes tag ++
      (if attrs.isEmpty then []
        else textBytes "attrs" ++ Cbor.head 5 attrs.size ++ attrBytes attrs.entries) ++
      (if children.isEmpty then []
        else textBytes "children" ++ Cbor.head 4 children.length ++ cbors children)
def cbors : List Node → List UInt8
  | [] => []
  | n :: ns => n.cbor ++ cbors ns
end

/-- Of a repeated attribute the last value counts. -/
def attrsOfEntries? : List (Item × Item) → Table String → Option (Table String)
  | [], t => some t
  | (k,v) :: es, t => do
    let k ← k.text?
    let v ← v.text?
    attrsOfEntries? es (t.insert k v)

def attrsOfItem? : Item → Option (Table String)
  | .map es => attrsOfEntries? es .empty
  | _ => none

/-- The fuel is the depth to which items can nest. -/
def ofItem? : Nat → Item → Option Node
  | 0, _ => none
  | depth+1, .map es => do
    if !es.all (fun e => e.1.field?.isSome) then none
    let tag ← (← Item.unique? .tag es).bind Item.text?
    let attrs ← match ← Item.unique? .attrs es with
      | none => some .empty
      | some a => attrsOfItem? a
    let children ← match ← Item.unique? .children es with
      | none => some []
      | some (.array xs) => xs.mapM (fun x => ofItem? depth x)
      | some _ => none
    some ⟨tag,attrs,children⟩
  | depth+1, .array (t :: xs) => do
    let tag ← t.text?
    match xs with
    | [] => some ⟨tag,.empty,[]⟩
    | [a] => do
      let attrs ← attrsOfItem? a
      some ⟨tag,attrs,[]⟩
    | [a,.array cs] => do
      let attrs ← attrsOfItem? a
      let children ← cs.mapM (fun c => ofItem? depth c)
      some ⟨tag,attrs,children⟩
    | _ => none
  | _+1, _ => none

def ofCborBytes? (bs : List UInt8) : Option Node :=
  (Cbor.parse? bs).bind (ofItem? (Cbor.maxDepth+1))

end Node
end AddressedForms
