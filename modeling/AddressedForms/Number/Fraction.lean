import AddressedForms.Number.Integer
set_option autoImplicit false

/-!
Rational numbers whose lowest terms fit 64 bits. Sums and products are exact, and they are refused
when an intermediate integer of the usual denominators' method leaves the 64-bit range.
-/

namespace AddressedForms

def fitsWord (n : Int) : Bool := -0x8000000000000000 ≤ n && n < 0x8000000000000000

structure Fraction where
  val : Rat
  num_fits : fitsWord val.num
  den_fits : fitsWord val.den
  deriving DecidableEq

namespace Fraction

def ofRat? (q : Rat) : Option Fraction :=
  if h : fitsWord q.num ∧ fitsWord q.den then some ⟨q,h.1,h.2⟩ else none

theorem val_of_ofRat? {q : Rat} {f : Fraction} (h : ofRat? q = some f) : f.val = q := by
  unfold ofRat? at h
  split at h
  · cases h; rfl
  · contradiction

def ofInts? (num den : Int) : Option Fraction :=
  if den = 0 then none else ofRat? (Rat.divInt num den)

theorem fitsWord_toInt (v : Int64) : fitsWord v.toInt := by
  have h := v.le_toInt
  have h' := v.toInt_lt
  simp [fitsWord]; omega

def ofInt64 (v : Int64) : Fraction :=
  ⟨(v.toInt : Rat),fitsWord_toInt v,by rw [Rat.den_intCast]; decide⟩

def num (f : Fraction) : Int64 := Int64.ofInt f.val.num

def den (f : Fraction) : Int64 := Int64.ofInt f.val.den

def isZero (f : Fraction) : Bool := f.val.num = 0

protected def compare (a b : Fraction) : Ordering := compareOfLessAndEq a.val b.val

instance : Ord Fraction := ⟨Fraction.compare⟩

theorem compare_eq_iff (a b : Fraction) : compare a b = .eq ↔ a = b := by
  refine (compareOfLessAndEq_eq_eq (fun _ => Rat.le_refl) Rat.not_le).trans ?_
  cases a; cases b; simp

/-- Both numerators are extended to the least common denominator before they are added. -/
def add? (a b : Fraction) : Option Fraction :=
  let d : Int := Nat.lcm a.val.den b.val.den
  let m := d/a.val.den*a.val.num
  let n := d/b.val.den*b.val.num
  if fitsWord d && fitsWord m && fitsWord n && fitsWord (m+n) then ofRat? (a.val+b.val) else none

/-- Common factors are cancelled crosswise before anything is multiplied. -/
def mul? (a b : Fraction) : Option Fraction :=
  let g : Int := Int.gcd a.val.num b.val.den
  let h : Int := Int.gcd a.val.den b.val.num
  if fitsWord (a.val.num/g*(b.val.num/h)) && fitsWord (a.val.den/h*(b.val.den/g))
  then ofRat? (a.val*b.val) else none

theorem val_add? {a b c : Fraction} (h : add? a b = some c) : c.val = a.val+b.val := by
  simp only [add?,Option.ite_none_right_eq_some] at h
  exact val_of_ofRat? h.2

theorem val_mul? {a b c : Fraction} (h : mul? a b = some c) : c.val = a.val*b.val := by
  simp only [mul?,Option.ite_none_right_eq_some] at h
  exact val_of_ofRat? h.2

/-- A whole number is printed without its denominator. -/
def text (f : Fraction) : String :=
  if f.val.den = 1 then toString f.val.num else toString f.val.num ++ "/" ++ toString f.val.den

end Fraction

inductive FractionError where
  | malformed
  | zeroDenominator
  deriving DecidableEq, Repr

namespace FractionError

def message : FractionError → String
  | .malformed => "failed to parse integer"
  | .zeroDenominator => "zero value denominator"

end FractionError

namespace Fraction

/-- The numerator is judged first; all before the first slash belongs to it. -/
def read (s : String) : Except FractionError Fraction :=
  let cs := s.toList
  let below := match cs.dropWhile (· ≠ '/') with
    | [] => ['1']
    | _ :: ds => ds
  match Integer.readSigned Integer.maxSigned (cs.takeWhile (· ≠ '/')),
    Integer.readSigned Integer.maxSigned below with
  | .ok n, .ok d =>
    if d = 0 then .error .zeroDenominator
    else match ofInts? n d with
      | some f => .ok f
      | none => .error .malformed
  | _, _ => .error .malformed

end Fraction
end AddressedForms
