import AddressedForms.Proofs.Address.Coherence
import Mathlib.Algebra.Ring.TransferInstance
import Mathlib.Data.ZMod.Basic
set_option autoImplicit false

/-!
Residues in words. Sums and products are computed in 128 bits, reduced, narrowed to 64 bits and
reduced again; no step overflows, wraps or divides by zero, up to the largest modulus and for all
words, reduced or not. So the representatives of the residues of a modulus are a commutative ring.
-/

namespace AddressedForms

def fitsDouble (k : Int) : Bool :=
  -0x80000000000000000000000000000000 ≤ k && k < 0x80000000000000000000000000000000

def widened? (k : Int) : Option Int := if fitsDouble k then some k else none

def narrowed? (k : Int) : Option Int64 := if fitsWord k then some (Int64.ofInt k) else none

theorem fitsDouble_add (a b : Int64) : fitsDouble (a.toInt+b.toInt) := by
  have ha := a.le_toInt
  have ha' := a.toInt_lt
  have hb := b.le_toInt
  have hb' := b.toInt_lt
  simp only [fitsDouble,Bool.and_eq_true,decide_eq_true_eq]
  omega

theorem fitsDouble_mul (a b : Int64) : fitsDouble (a.toInt*b.toInt) := by
  have habs (v : Int64) : |v.toInt| ≤ 0x8000000000000000 := by
    have hv := v.le_toInt
    have hv' := v.toInt_lt
    exact abs_le.mpr ⟨by omega,by omega⟩
  have hmul : |a.toInt*b.toInt| ≤ 0x8000000000000000*0x8000000000000000 := by
    rw [abs_mul]
    exact mul_le_mul (habs a) (habs b) (abs_nonneg _) (by decide)
  obtain ⟨hl,hu⟩ := abs_le.mp hmul
  simp only [fitsDouble,Bool.and_eq_true,decide_eq_true_eq]
  omega

/-- A representative of the residues of a modulus. -/
structure Residue (n : UInt64) where
  val : Int64
  nonneg : 0 ≤ val.toInt
  lt : val.toInt < n.toNat

namespace Residue
variable {n : UInt64}

def element (x : Residue n) : Element := .zn x.val n

theorem ext_toInt {x y : Residue n} (h : x.val.toInt = y.val.toInt) : x = y := by
  cases x
  cases y
  cases Int64.toInt_inj.mp h
  rfl

theorem toInt_emod (x : Residue n) : x.val.toInt%n.toNat = x.val.toInt :=
  Int.emod_eq_of_lt x.nonneg x.lt

section Proper
variable (h : (Module.zn n).isProper)

def ofInt (k : Int) : Residue n where
  val := Int64.ofInt (k%n.toNat)
  nonneg := by
    rw [Element.toInt_remainder h]
    exact Int.emod_nonneg k (by simp [Module.toNat_ne_zero h])
  lt := by
    rw [Element.toInt_remainder h]
    exact Int.emod_lt_of_pos k (by have := Module.toNat_ne_zero h; omega)

theorem toInt_ofInt (k : Int) : (ofInt h k).val.toInt = k%n.toNat := Element.toInt_remainder h k

def equivZMod : Residue n ≃ ZMod n.toNat where
  toFun x := x.val.toInt
  invFun k := ofInt h k.cast
  left_inv x := ext_toInt (by simp [toInt_ofInt,ZMod.coe_intCast,toInt_emod])
  right_inv k := by simp [toInt_ofInt]

theorem eq_ofInt {x : Residue n} {k : Int} (hk : equivZMod h x = (k : ZMod n.toNat)) :
    x = ofInt h k := by
  have hmod : x.val.toInt ≡ k [ZMOD n.toNat] := (ZMod.intCast_eq_intCast_iff _ _ _).mp hk
  exact ext_toInt (by rw [toInt_ofInt,← hmod,toInt_emod])

@[reducible] def commRing : CommRing (Residue n) := (equivZMod h).commRing

theorem add_eq_ofInt (x y : Residue n) :
    letI := commRing h
    x+y = ofInt h (x.val.toInt+y.val.toInt) := by
  refine eq_ofInt h ?_
  rw [Int.cast_add]
  exact (equivZMod h).apply_symm_apply _

theorem mul_eq_ofInt (x y : Residue n) :
    letI := commRing h
    x*y = ofInt h (x.val.toInt*y.val.toInt) := by
  refine eq_ofInt h ?_
  rw [Int.cast_mul]
  exact (equivZMod h).apply_symm_apply _

theorem zero_eq_ofInt : letI := commRing h; (0 : Residue n) = ofInt h 0 := by
  refine eq_ofInt h ?_
  rw [Int.cast_zero]
  exact (equivZMod h).apply_symm_apply _

theorem one_eq_ofInt : letI := commRing h; (1 : Residue n) = ofInt h 1 := by
  refine eq_ofInt h ?_
  rw [Int.cast_one]
  exact (equivZMod h).apply_symm_apply _

end Proper

end Residue

namespace Element
variable {n : UInt64}

/-- The residue class of a word, unless a division is by zero or its remainder wraps. -/
def residueWithin? (value : Int64) (modulus : UInt64) : Option Element := do
  let n := max 1 (min modulus Module.maxModulus)
  let r ← remainder? value.toInt n.toNat
  let v ← narrowed? r
  some (.zn v n)

/-- The residue class of an integer that is computed in 128 bits, unless that overflows. -/
def reducedWithin? (k : Int) (n : UInt64) : Option Element := do
  let s ← widened? k
  let r ← remainder? s n.toNat
  let v ← narrowed? r
  residueWithin? v n

section Proper
variable (h : (Module.zn n).isProper)

theorem residue_eq (v : Int64) : residue v n = (Residue.ofInt h v.toInt).element :=
  residue_of_modulus h v

theorem residue_remainder (k : Int) :
    residue (Int64.ofInt (k%n.toNat)) n = (Residue.ofInt h k).element := by
  rw [residue_of_modulus h,toInt_remainder h,Int.emod_emod_of_dvd _ (dvd_refl _)]
  rfl

theorem add_zn (a b : Int64) :
    (zn a n).add (.zn b n) = .ok (Residue.ofInt h (a.toInt+b.toInt)).element := by
  simp [add,residue_remainder h]

theorem mul_zn (a b : Int64) :
    (zn a n).mul (.zn b n) = .ok (Residue.ofInt h (a.toInt*b.toInt)).element := by
  simp [mul,module,residue_remainder h]

include h in
theorem narrowed?_remainder (k : Int) :
    narrowed? (k%n.toNat) = some (Int64.ofInt (k%n.toNat)) := by
  rw [narrowed?,if_pos]
  rw [← toInt_remainder h]
  exact Fraction.fitsWord_toInt _

include h in
theorem residueWithin?_eq (v : Int64) : residueWithin? v n = some (residue v n) := by
  have hn := Module.toNat_ne_zero h
  simp [residueWithin?,Module.clamp_of_isProper h,remainder?_eq_some _ hn,narrowed?_remainder h,
    residue_of_modulus h]

theorem reducedWithin?_eq {k : Int} (hk : fitsDouble k) :
    reducedWithin? k n = some (Residue.ofInt h k).element := by
  have hn := Module.toNat_ne_zero h
  simp [reducedWithin?,widened?,hk,remainder?_eq_some _ hn,narrowed?_remainder h,
    residueWithin?_eq h,residue_remainder h]

end Proper

end Element

/-- At every modulus sums and products of words, reduced or not, are the representatives of the exact
sums and products; no step on the way overflows, wraps or divides by zero. So the representatives
are a commutative ring, and the residue classes of words are added and multiplied like the words. -/
theorem Residue.add_and_mul_exact {n : UInt64} (hpos : 1 ≤ n) (hmax : n ≤ Module.maxModulus) :
    (∀ a : Int64, ∃ x : Residue n, Element.residue a n = x.element ∧
      Element.residueWithin? a n = some x.element ∧ x.val.toInt ≡ a.toInt [ZMOD n.toNat]) ∧
    (∀ a b : Int64, ∃ x : Residue n, (Element.zn a n).add (.zn b n) = .ok x.element ∧
      Element.reducedWithin? (a.toInt+b.toInt) n = some x.element ∧
      x.val.toInt = (a.toInt+b.toInt)%n.toNat) ∧
    (∀ a b : Int64, ∃ x : Residue n, (Element.zn a n).mul (.zn b n) = .ok x.element ∧
      Element.reducedWithin? (a.toInt*b.toInt) n = some x.element ∧
      x.val.toInt = (a.toInt*b.toInt)%n.toNat) ∧
    (∃ _ : CommRing (Residue n),
      (∀ x y : Residue n, x.element.add y.element = .ok (x+y).element) ∧
      (∀ x y : Residue n, x.element.mul y.element = .ok (x*y).element) ∧
      (Module.zn n).zero = (0 : Residue n).element ∧
      (Module.zn n).one? = some (1 : Residue n).element) ∧
    ∀ a b c : Int64,
      ((Element.z a).add (.z b) = .ok (.z c) →
        (Element.residue a n).add (.residue b n) = .ok (.residue c n)) ∧
      ((Element.z a).mul (.z b) = .ok (.z c) →
        (Element.residue a n).mul (.residue b n) = .ok (.residue c n)) := by
  have h : (Module.zn n).isProper := by
    have hne : n ≠ 0 := by
      rintro rfl
      exact absurd hpos (by decide)
    simp [Module.isProper,hne,hmax]
  refine ⟨fun a => ?_,fun a b => ?_,fun a b => ?_,⟨commRing h,fun x y => ?_,fun x y => ?_,?_,?_⟩,
    fun a b c => ⟨fun hc => ?_,fun hc => ?_⟩⟩
  · refine ⟨ofInt h a.toInt,Element.residue_eq h a,?_,?_⟩
    · rw [Element.residueWithin?_eq h,Element.residue_eq h]
    · rw [toInt_ofInt]
      exact Int.mod_modEq _ _
  · exact ⟨_,Element.add_zn h a b,Element.reducedWithin?_eq h (fitsDouble_add a b),toInt_ofInt h _⟩
  · exact ⟨_,Element.mul_zn h a b,Element.reducedWithin?_eq h (fitsDouble_mul a b),toInt_ofInt h _⟩
  · rw [add_eq_ofInt h]
    exact Element.add_zn h x.val y.val
  · rw [mul_eq_ofInt h]
    exact Element.mul_zn h x.val y.val
  · rw [zero_eq_ofInt h]
    exact Element.residue_eq h 0
  · rw [one_eq_ofInt h]
    exact congrArg some (Element.residue_eq h 1)
  · refine Element.add_residue h ?_
    obtain ⟨d,hd,hval⟩ := Element.exists_of_ofInt hc
    cases hd
    rw [hval]
  · refine Element.mul_residue h ?_
    obtain ⟨d,hd,hval⟩ := Element.exists_of_ofInt hc
    cases hd
    rw [hval]

/-- At the largest modulus, which is one less than a power of two, the square of the least word is
one, and its double is minus two. -/
theorem Residue.add_and_mul_least :
    let n := Module.maxModulus
    1 ≤ n ∧ n ≤ Module.maxModulus ∧
    (∃ x : Residue n, (Element.zn Int64.minValue n).add (.zn Int64.minValue n) = .ok x.element ∧
      Element.reducedWithin? (-0x10000000000000000) n = some x.element ∧
      x.val.toInt = n.toNat-2) ∧
    ∃ x : Residue n, (Element.zn Int64.minValue n).mul (.zn Int64.minValue n) = .ok x.element ∧
      Element.reducedWithin? 0x40000000000000000000000000000000 n = some x.element ∧
      x.val.toInt = 1 := by
  intro n
  have hpos : 1 ≤ n := by decide
  have hleast : Int64.minValue.toInt = -0x8000000000000000 := by decide
  have hn : (n.toNat : Int) = 0x7fffffffffffffff := by decide
  obtain ⟨-,hadd,hmul,-⟩ := add_and_mul_exact hpos (UInt64.le_refl n)
  obtain ⟨x,hx,hsum,hval⟩ := hadd Int64.minValue Int64.minValue
  obtain ⟨y,hy,hproduct,hval'⟩ := hmul Int64.minValue Int64.minValue
  simp only [hleast,hn] at hsum hval hproduct hval'
  refine ⟨hpos,UInt64.le_refl n,⟨x,hx,hsum,?_⟩,y,hy,hproduct,hval'⟩
  rw [hval,hn]
  rfl

end AddressedForms
