import AddressedForms.Json.Print
set_option autoImplicit false

/-!
Reading JSON from bytes. The grammar is the standard one; what a string stands for is worked out
after its shape has been checked, and one that stands for no text is still a value.
-/

namespace AddressedForms

namespace Byte

@[match_pattern] abbrev tab : UInt8 := 9
@[match_pattern] abbrev lineFeed : UInt8 := 10
@[match_pattern] abbrev carriageReturn : UInt8 := 13
@[match_pattern] abbrev space : UInt8 := 32
@[match_pattern] abbrev quote : UInt8 := 34
@[match_pattern] abbrev plus : UInt8 := 43
@[match_pattern] abbrev comma : UInt8 := 44
@[match_pattern] abbrev minus : UInt8 := 45
@[match_pattern] abbrev point : UInt8 := 46
@[match_pattern] abbrev zero : UInt8 := 48
@[match_pattern] abbrev colon : UInt8 := 58
@[match_pattern] abbrev upperE : UInt8 := 69
@[match_pattern] abbrev openBracket : UInt8 := 91
@[match_pattern] abbrev backslash : UInt8 := 92
@[match_pattern] abbrev closeBracket : UInt8 := 93
@[match_pattern] abbrev lowerE : UInt8 := 101
@[match_pattern] abbrev lowerU : UInt8 := 117
@[match_pattern] abbrev openBrace : UInt8 := 123
@[match_pattern] abbrev closeBrace : UInt8 := 125

def isDigit (b : UInt8) : Bool := 48 ≤ b && b ≤ 57

def isSpace (b : UInt8) : Bool := b = space || b = tab || b = lineFeed || b = carriageReturn

def hexValue? (b : UInt8) : Option Nat :=
  if 48 ≤ b ∧ b ≤ 57 then some (b.toNat-48)
  else if 65 ≤ b ∧ b ≤ 70 then some (b.toNat-55)
  else if 97 ≤ b ∧ b ≤ 102 then some (b.toNat-87)
  else none

end Byte

def ofUtf8? (bs : List UInt8) : Option String := String.fromUTF8? ⟨bs.toArray⟩

namespace Json

/-- Part of a string: a byte as it stands, or a 16-bit unit that was written as an escape. -/
inductive Piece where
  | byte (b : UInt8)
  | unit (n : Nat)

def hexUnit? (a b c d : UInt8) : Option Nat := do
  let w ← Byte.hexValue? a
  let x ← Byte.hexValue? b
  let y ← Byte.hexValue? c
  let z ← Byte.hexValue? d
  some (((w*16+x)*16+y)*16+z)

def escaped? (b : UInt8) : Option UInt8 :=
  if b = 34 ∨ b = 92 ∨ b = 47 then some b
  else if b = 98 then some 8
  else if b = 102 then some 12
  else if b = 110 then some 10
  else if b = 114 then some 13
  else if b = 116 then some 9
  else none

/-- The pieces up to the closing quote and what follows it. -/
def pieces? : List UInt8 → Option (List Piece × List UInt8)
  | [] => none
  | Byte.quote :: cs => some ([],cs)
  | Byte.backslash :: Byte.lowerU :: a :: b :: c :: d :: cs => do
    let n ← hexUnit? a b c d
    let (ps,rest) ← pieces? cs
    some (.unit n :: ps,rest)
  | Byte.backslash :: b :: cs => do
    let c ← escaped? b
    let (ps,rest) ← pieces? cs
    some (.byte c :: ps,rest)
  | b :: cs =>
    if b < 32 ∨ b = Byte.backslash then none
    else do
      let (ps,rest) ← pieces? cs
      some (.byte b :: ps,rest)

def isHighSurrogate (n : Nat) : Bool := 0xd800 ≤ n && n < 0xdc00

def isLowSurrogate (n : Nat) : Bool := 0xdc00 ≤ n && n < 0xe000

def encodeChar (n : Nat) : List UInt8 := (String.singleton (Char.ofNat n)).toByteArray.data.toList

/-- The bytes that pieces stand for, unless half a surrogate pair is among them. -/
def bytes? : List Piece → Option (List UInt8)
  | [] => some []
  | .byte b :: ps => (bytes? ps).map (b :: ·)
  | .unit m :: ps =>
    if isHighSurrogate m then
      match ps with
      | .unit n :: qs =>
        if isLowSurrogate n then
          (bytes? qs).map (encodeChar (0x10000+(m-0xd800)*1024+(n-0xdc00)) ++ ·)
        else none
      | _ => none
    else if isLowSurrogate m then none
    else (bytes? ps).map (encodeChar m ++ ·)

def string? (bs : List UInt8) : Option (Option String × List UInt8) := do
  let (ps,rest) ← pieces? bs
  some ((bytes? ps).bind ofUtf8?,rest)

def digits? (bs : List UInt8) : Option (List UInt8 × List UInt8) :=
  match bs.takeWhile Byte.isDigit with
  | [] => none
  | ds => some (ds,bs.dropWhile Byte.isDigit)

/-- No digit may follow a leading zero. -/
def whole? : List UInt8 → Option (List UInt8 × List UInt8)
  | Byte.zero :: cs => some ([Byte.zero],cs)
  | cs => digits? cs

def decimals? : List UInt8 → Option (List UInt8 × List UInt8)
  | Byte.point :: cs => (digits? cs).map fun (ds,rest) => (Byte.point :: ds,rest)
  | cs => some ([],cs)

def exponentDigits? : List UInt8 → Option (List UInt8 × List UInt8)
  | Byte.plus :: cs => (digits? cs).map fun (ds,rest) => (Byte.plus :: ds,rest)
  | Byte.minus :: cs => (digits? cs).map fun (ds,rest) => (Byte.minus :: ds,rest)
  | cs => digits? cs

def exponent? : List UInt8 → Option (List UInt8 × List UInt8)
  | Byte.lowerE :: cs => (exponentDigits? cs).map fun (ds,rest) => (Byte.lowerE :: ds,rest)
  | Byte.upperE :: cs => (exponentDigits? cs).map fun (ds,rest) => (Byte.upperE :: ds,rest)
  | cs => some ([],cs)

def unsigned? (bs : List UInt8) : Option (List UInt8 × List UInt8) := do
  let (w,bs) ← whole? bs
  let (d,bs) ← decimals? bs
  let (e,bs) ← exponent? bs
  some (w ++ d ++ e,bs)

def number? : List UInt8 → Option (List UInt8 × List UInt8)
  | Byte.minus :: cs => (unsigned? cs).map fun (ds,rest) => (Byte.minus :: ds,rest)
  | cs => unsigned? cs

def skipSpace (bs : List UInt8) : List UInt8 := bs.dropWhile Byte.isSpace

def scalar? : List UInt8 → Option (Json × List UInt8)
  | 110 :: 117 :: 108 :: 108 :: rest => some (.null,rest)
  | 116 :: 114 :: 117 :: 101 :: rest => some (.bool true,rest)
  | 102 :: 97 :: 108 :: 115 :: 101 :: rest => some (.bool false,rest)
  | bs => (number? bs).map fun (ds,rest) => (.number ds,rest)

mutual
def value? : Nat → List UInt8 → Option (Json × List UInt8)
  | 0, _ => none
  | fuel+1, bs =>
    match skipSpace bs with
    | Byte.quote :: cs => do
      let (s,rest) ← string? cs
      some (.string s,rest)
    | Byte.openBracket :: cs =>
      match skipSpace cs with
      | Byte.closeBracket :: rest => some (.array [],rest)
      | cs => do
        let (xs,rest) ← items? fuel cs
        some (.array xs,rest)
    | Byte.openBrace :: cs =>
      match skipSpace cs with
      | Byte.closeBrace :: rest => some (.object [],rest)
      | cs => do
        let (ms,rest) ← members? fuel cs
        some (.object ms,rest)
    | cs => scalar? cs
def items? : Nat → List UInt8 → Option (List Json × List UInt8)
  | 0, _ => none
  | fuel+1, bs => do
    let (x,rest) ← value? fuel bs
    match skipSpace rest with
    | Byte.comma :: cs => do
      let (xs,rest) ← items? fuel cs
      some (x :: xs,rest)
    | Byte.closeBracket :: rest => some ([x],rest)
    | _ => none
def members? : Nat → List UInt8 → Option (List (Option String × Json) × List UInt8)
  | 0, _ => none
  | fuel+1, bs => do
    let (k,rest) ← match skipSpace bs with
      | Byte.quote :: cs => string? cs
      | _ => none
    let rest ← match skipSpace rest with
      | Byte.colon :: cs => some cs
      | _ => none
    let (x,rest) ← value? fuel rest
    match skipSpace rest with
    | Byte.comma :: cs => do
      let (ms,rest) ← members? fuel cs
      some ((k,x) :: ms,rest)
    | Byte.closeBrace :: rest => some ([(k,x)],rest)
    | _ => none
end

/-- A value with nothing but space around it; every step of the search takes a byte or follows one
that does. -/
def parse? (bs : List UInt8) : Option Json := do
  let (x,rest) ← value? (2*bs.length+2) bs
  if skipSpace rest = [] then some x else none

end Json
end AddressedForms
