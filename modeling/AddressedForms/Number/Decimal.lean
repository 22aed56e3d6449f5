import AddressedForms.Number.Binary64
set_option autoImplicit false

/-!
Decimal text of real numbers. Reading rounds the exact decimal value to the nearest word. Printing
takes the fewest digits that read back, the nearest such digits, and of two equally near ones the
larger; the digits are always written out around the point, without an exponent.
-/

namespace AddressedForms

/-- A finite positive word as `mantissa * 2^exponent`, with the reals that round to it. -/
structure Dyadic where
  mantissa : Nat
  exponent : Int
  /-- Whether the next smaller word is only half as far away as the next larger one. -/
  lowest : Bool

namespace Dyadic

/-- The leading bit of a normal mantissa, which a word does not store. -/
def hiddenBit : Nat := 0x10000000000000

def ofMagnitude (m : Nat) : Dyadic :=
  let e : Nat := m/hiddenBit
  let f : Nat := m%hiddenBit
  if e = 0 then ⟨f,-1074,false⟩ else ⟨f+hiddenBit,Int.ofNat e-1075,f = 0 && 1 < e⟩

/-- Four times the value and four times the ends of its interval, over one scale. -/
def centre (d : Dyadic) : Nat := 4*d.mantissa
def low (d : Dyadic) : Nat := 4*d.mantissa-(if d.lowest then 1 else 2)
def high (d : Dyadic) : Nat := 4*d.mantissa+2

/-- The factors that bring `n * 10^k` and a quarter of `2^exponent` to whole numbers. -/
def gridFactor (d : Dyadic) (k : Int) : Nat :=
  Nat.pow 10 k.toNat*Nat.pow 2 (2-d.exponent).toNat
def unitFactor (d : Dyadic) (k : Int) : Nat :=
  Nat.pow 10 (-k).toNat*Nat.pow 2 (d.exponent-2).toNat

/-- Whether `n * 10^k` reads back as the word; the ends of the interval count for an even mantissa.
-/
def holds (d : Dyadic) (k : Int) (n : Nat) : Bool :=
  let x := n*d.gridFactor k
  let u := d.unitFactor k
  if d.mantissa%2 = 0 then d.low*u ≤ x && x ≤ d.high*u else d.low*u < x && x < d.high*u

def onGrid? (d : Dyadic) (k : Int) : Option Nat :=
  let x := d.centre*d.unitFactor k
  let g := d.gridFactor k
  let n := x/g
  match d.holds k n, d.holds k (n+1) with
  | true, true => some (if x-n*g < (n+1)*g-x then n else n+1)
  | true, false => some n
  | false, true => some (n+1)
  | false, false => none

def search (d : Dyadic) : Nat → Int → Nat × Int
  | 0, k => (d.centre*d.unitFactor k/d.gridFactor k,k)
  | fuel+1, k => match d.onGrid? k with
    | some n => (n,k)
    | none => d.search fuel (k-1)

/-- The digits `n` and the power `k` of the shortest decimal `n * 10^k`; no word needs more than
seventeen digits, and the first grid is coarser than the value. -/
def shortest (d : Dyadic) : Nat × Int :=
  d.search 24 (((d.mantissa.log2 : Int)+d.exponent)*30103/100000+2)

end Dyadic

namespace Binary64

def positional (digits : List Char) (k : Int) : List Char :=
  let p := (digits.length : Int)+k
  if 0 ≤ k then digits ++ List.replicate k.toNat '0'
  else if 0 < p then digits.take p.toNat ++ '.' :: digits.drop p.toNat
  else ['0','.'] ++ List.replicate (-p).toNat '0' ++ digits

def text (x : Binary64) : String :=
  let sign := if x.isNegative then "-" else ""
  let m := x.magnitude
  if 0x7ff0000000000000 < m then "NaN"
  else if m = 0x7ff0000000000000 then sign ++ "inf"
  else if m = 0 then sign ++ "0"
  else
    let (n,k) := (Dyadic.ofMagnitude m).shortest
    sign ++ String.ofList (positional (Nat.toDigits 10 n) k)

end Binary64

inductive DecimalError where
  | empty
  | malformed
  deriving DecidableEq, Repr

namespace DecimalError

def message : DecimalError → String
  | .empty => "cannot parse float from empty string"
  | .malformed => "invalid float literal"

end DecimalError

namespace Binary64

def withSign (negative : Bool) (m : UInt64) : Binary64 := ⟨if negative then m+0x8000000000000000 else m⟩

def infinity : Nat := 0x7ff0000000000000

/-- The whole number nearest to `a/b`, and of two equally near ones the even one. -/
def nearestNat (a b : Nat) : Nat :=
  let n := a/b
  let twice := 2*(a%b)
  if twice < b ∨ (twice = b ∧ n%2 = 0) then n else n+1

/-- The least exponent of a word under which `a/b` has no more than 53 bits before the point. -/
def exponentFor (a b : Nat) : Int :=
  let e : Int := (a.log2 : Int)-b.log2-53
  max (-1074) (if a*Nat.pow 2 (-e).toNat < 2*Dyadic.hiddenBit*(b*Nat.pow 2 e.toNat) then e else e+1)

/-- The magnitude of the word nearest to `a/b`. A mantissa that is rounded up beyond 53 bits carries
into the exponent. -/
def nearest (a b : Nat) : Nat :=
  let e := exponentFor a b
  let n := nearestNat (a*Nat.pow 2 (-e).toNat) (b*Nat.pow 2 e.toNat)
  min infinity (n+(e+1074).toNat*Dyadic.hiddenBit)

/-- The word nearest to `n * 10^k`; what is beyond every word, or below half the least, is not
computed exactly. -/
def ofDecimal (negative : Bool) (n : Nat) (k : Int) : Binary64 :=
  let digits := ((Nat.toDigits 10 n).length : Int)
  if n = 0 || digits+k < -400 then withSign negative 0
  else if 400 < digits+k then withSign negative 0x7ff0000000000000
  else withSign negative (.ofNat (nearest (n*Nat.pow 10 k.toNat) (Nat.pow 10 (-k).toNat)))

def digitsValue (cs : List Char) : Nat := Nat.ofDigitChars 10 cs 0

def readExponent? : List Char → Option Int
  | [] => some 0
  | e :: cs =>
    if e ≠ 'e' ∧ e ≠ 'E' then none
    else
      let (negative,ds) := match cs with
        | '+' :: ds => (false,ds)
        | '-' :: ds => (true,ds)
        | ds => (false,ds)
      if ds ≠ [] ∧ ds.all Char.isDigit then
        some (if negative then -(digitsValue ds : Int) else digitsValue ds)
      else none

/-- Digits with an optional point and exponent; a digit must stand beside the point. -/
def readNumber? (negative : Bool) (cs : List Char) : Option Binary64 :=
  let whole := cs.takeWhile Char.isDigit
  let (decimals,rest) := match cs.dropWhile Char.isDigit with
    | '.' :: ds => (ds.takeWhile Char.isDigit,ds.dropWhile Char.isDigit)
    | ds => ([],ds)
  if whole = [] ∧ decimals = [] then none
  else (readExponent? rest).map fun e =>
    ofDecimal negative (digitsValue (whole ++ decimals)) (e-decimals.length)

def readUnsigned? (negative : Bool) (cs : List Char) : Option Binary64 :=
  let word := String.ofList (cs.map Char.toLower)
  if word = "inf" ∨ word = "infinity" then some (withSign negative 0x7ff0000000000000)
  else if word = "nan" then some (withSign negative 0x7ff8000000000000)
  else readNumber? negative cs

def read (s : String) : Except DecimalError Binary64 :=
  match s.toList with
  | [] => .error .empty
  | '-' :: cs => ((readUnsigned? true cs).map .ok).getD (.error .malformed)
  | '+' :: cs => ((readUnsigned? false cs).map .ok).getD (.error .malformed)
  | cs => ((readUnsigned? false cs).map .ok).getD (.error .malformed)

end Binary64
end AddressedForms
