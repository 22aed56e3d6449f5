set_option autoImplicit false

/-!
Decimal text of whole numbers of a bounded range: an optional sign and at least one digit, read from
the left, so the first offending character decides the error. `readDigits_toDigits` says that the
printed digits of a number within the limit read back.
-/

namespace AddressedForms

inductive IntegerError where
  | empty
  | invalidDigit
  | tooLarge
  | tooSmall
  deriving DecidableEq, Repr

namespace IntegerError

def message : IntegerError → String
  | .empty => "cannot parse integer from empty string"
  | .invalidDigit => "invalid digit found in string"
  | .tooLarge => "number too large to fit in target type"
  | .tooSmall => "number too small to fit in target type"

end IntegerError

namespace Integer

/-- `beyond` is reported for the digit with which the number passes the limit. -/
def readDigits (limit : Nat) (beyond : IntegerError) : Nat → List Char → Except IntegerError Nat
  | v, [] => .ok v
  | v, c :: cs =>
    if c.isDigit then
      let w := 10*v+(c.toNat - '0'.toNat)
      if w ≤ limit then readDigits limit beyond w cs else .error beyond
    else .error .invalidDigit

/-- A minus sign is no part of an unsigned number. -/
def readUnsigned (limit : Nat) : List Char → Except IntegerError Nat
  | [] => .error .empty
  | '+' :: c :: cs => readDigits limit .tooLarge 0 (c :: cs)
  | cs => readDigits limit .tooLarge 0 cs

/-- Numbers from `-limit-1` to `limit`. -/
def readSigned (limit : Nat) : List Char → Except IntegerError Int
  | [] => .error .empty
  | '+' :: c :: cs => (readDigits limit .tooLarge 0 (c :: cs)).map Int.ofNat
  | '-' :: c :: cs => (readDigits (limit+1) .tooSmall 0 (c :: cs)).map (fun n => -Int.ofNat n)
  | cs => (readDigits limit .tooLarge 0 cs).map Int.ofNat

def maxSigned : Nat := 0x7fffffffffffffff
def maxUnsigned : Nat := 0xffffffffffffffff

def readInt64 (s : String) : Except IntegerError Int64 :=
  (readSigned maxSigned s.toList).map Int64.ofInt

def readUInt64 (s : String) : Except IntegerError UInt64 :=
  (readUnsigned maxUnsigned s.toList).map UInt64.ofNat

/-- Positions are counted in 64 bits. -/
def readIndex (s : String) : Except IntegerError Nat := readUnsigned maxUnsigned s.toList

theorem readDigits_append (limit : Nat) (e : IntegerError) (v : Nat) (cs ds : List Char) :
    readDigits limit e v (cs ++ ds) =
      (readDigits limit e v cs).bind (fun w => readDigits limit e w ds) := by
  induction cs generalizing v with
  | nil => rfl
  | cons c cs ih => grind [readDigits,Except.bind]

theorem readDigits_digitChar (limit : Nat) (e : IntegerError) (v d : Nat) (hd : d < 10)
    (h : 10*v+d ≤ limit) : readDigits limit e v [d.digitChar] = .ok (10*v+d) := by
  have hc : d.digitChar.isDigit := by simpa [Nat.isDigit_digitChar] using hd
  have hn : d.digitChar.toNat - '0'.toNat = d := by
    rw [Nat.toNat_digitChar_of_lt_ten hd]; simp
  simp only [readDigits,hc,hn,h,if_true]

theorem readDigits_toDigits (limit : Nat) (e : IntegerError) (n : Nat) (h : n ≤ limit) :
    readDigits limit e 0 (Nat.toDigits 10 n) = .ok n := by
  induction n using Nat.strongRecOn with
  | ind n ih =>
    by_cases hn : n < 10
    · rw [Nat.toDigits_of_lt_base hn]
      simpa using readDigits_digitChar limit e 0 n hn (by omega)
    · rw [Nat.toDigits_of_base_le (by decide) (by omega),readDigits_append,
        ih (n/10) (by omega) (by omega)]
      simp only [Except.bind]
      rw [readDigits_digitChar limit e (n/10) (n%10) (by omega) (by omega)]
      congr 1; omega

end Integer
end AddressedForms
