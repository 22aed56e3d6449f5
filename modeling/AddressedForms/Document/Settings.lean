import AddressedForms.Document.Json
import AddressedForms.Number.Integer
set_option autoImplicit false

/-!
Settings for reading and writing documents, and their JSON: an object in which every field may be
missing, or an array of the first few fields in order.
-/

namespace AddressedForms

inductive Format where
  | json
  | cbor
  deriving DecidableEq, Repr

namespace Format

def text : Format → String
  | .json => "json"
  | .cbor => "cbor"

def ofText? (s : String) : Option Format :=
  if s = "json" then some .json else if s = "cbor" then some .cbor else none

end Format

structure Settings where
  format : Format
  pretty : Bool
  /-- Names that a document leaves open are looked up in the repository. -/
  catalogFallback : Bool
  /-- Further errors are counted and not kept. -/
  maxErrors : Option Nat
  /-- A clean document is registered. -/
  registerDecoded : Bool
  deriving DecidableEq, Repr

namespace Settings

def default : Settings := ⟨.json,true,true,none,false⟩

def cbor : Settings := {default with format := .cbor}

def format? : Json → Option Format
  | .string (some s) => Format.ofText? s
  | .object [(some s,.null)] => Format.ofText? s
  | _ => none

def bool? : Json → Option Bool
  | .bool b => some b
  | _ => none

/-- Null, or an unsigned word without sign, point or exponent. -/
def limit? : Json → Option (Option Nat)
  | .null => some none
  | .number ds =>
    let n := ds.foldl (fun n b => 10*n+(b.toNat-48)) 0
    if ds.all Byte.isDigit ∧ n ≤ Integer.maxUnsigned then some (some n) else none
  | _ => none

/-- A missing field has its default. -/
def orDefault {α : Type} (default : α) (read : Json → Option α) : Option Json → Option α
  | none => some default
  | some j => read j

def ofFields? (format pretty catalogFallback maxErrors registerDecoded : Option Json) :
    Option Settings := do
  some ⟨← orDefault default.format format? format,← orDefault default.pretty bool? pretty,
    ← orDefault default.catalogFallback bool? catalogFallback,
    ← orDefault default.maxErrors limit? maxErrors,
    ← orDefault default.registerDecoded bool? registerDecoded⟩

def ofJson? : Json → Option Settings
  | .object ms => do
    if !Json.keysAreTexts ms then none
    ofFields? (← Json.unique? "format" ms) (← Json.unique? "pretty" ms)
      (← Json.unique? "catalog_fallback" ms) (← Json.unique? "max_errors" ms)
      (← Json.unique? "register_decoded" ms)
  | .array xs =>
    if 5 < xs.length then none else ofFields? xs[0]? xs[1]? xs[2]? xs[3]? xs[4]?
  | _ => none

def ofText? (s : String) : Option Settings := (Json.parse? s.toByteArray.data.toList).bind ofJson?

end Settings
end AddressedForms
