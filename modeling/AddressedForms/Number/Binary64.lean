import AddressedForms.Number.Fraction
set_option autoImplicit false

/-!
Real numbers as 64-bit floating-point words. Two reals are the same value of this type exactly when
their words are, so signed zeros differ and a NaN equals itself; the order agrees with that.
-/

namespace AddressedForms

structure Binary64 where
  bits : UInt64
  deriving DecidableEq

namespace Binary64

def zero : Binary64 := ⟨0⟩

def one : Binary64 := ⟨0x3ff0000000000000⟩

def ofFloat (x : Float) : Binary64 := ⟨x.toBits⟩

def toFloat (x : Binary64) : Float := Float.ofBits x.bits

def add (x y : Binary64) : Binary64 := ofFloat (x.toFloat+y.toFloat)

def mul (x y : Binary64) : Binary64 := ofFloat (x.toFloat*y.toFloat)

def ofInt64 (v : Int64) : Binary64 := ofFloat v.toFloat

/-- Numerator and denominator are rounded first, then their quotient. -/
def ofFraction (q : Fraction) : Binary64 := ofFloat (q.num.toFloat/q.den.toFloat)

def signBit : Nat := 0x8000000000000000

def isNegative (x : Binary64) : Bool := signBit ≤ x.bits.toNat

/-- The word without its sign. -/
def magnitude (x : Binary64) : Nat := x.bits.toNat%signBit

def isZero (x : Binary64) : Bool := x.magnitude = 0

/-- Negative words come first, in decreasing order of magnitude. -/
def rank (x : Binary64) : Int :=
  if x.isNegative then -(x.magnitude : Int)-1 else x.magnitude

protected def compare (x y : Binary64) : Ordering := compare x.rank y.rank

instance : Ord Binary64 := ⟨Binary64.compare⟩

theorem rank_inj {x y : Binary64} (h : x.rank = y.rank) : x = y := by
  obtain ⟨a⟩ := x
  obtain ⟨b⟩ := y
  have ha := a.toNat_lt
  have hb := b.toNat_lt
  simp only [rank,isNegative,magnitude,decide_eq_true_eq] at h
  congr 1
  apply UInt64.toNat_inj.mp
  split at h <;> split at h <;> simp only [signBit] at * <;> omega

theorem compare_eq_iff (x y : Binary64) : compare x y = .eq ↔ x = y := by
  constructor
  · intro h
    exact rank_inj (Std.LawfulEqOrd.eq_of_compare h)
  · rintro rfl
    exact show compare x.rank x.rank = .eq by simp

end Binary64
end AddressedForms
