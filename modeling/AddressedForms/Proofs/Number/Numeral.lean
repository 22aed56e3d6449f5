import AddressedForms.Proofs.Lists
import AddressedForms.Proofs.Number.Integer
import Mathlib.Data.List.Induction
set_option autoImplicit false

/-!
All that is read as an unsigned number: its decimal, behind any number of zeros and at most one plus
sign.
-/

namespace AddressedForms
namespace Integer

/-- The decimal of a number behind some zeros. -/
def IsPadded (cs : List Char) (n : Nat) : Prop :=
  ∃ k, cs = List.replicate k '0' ++ Nat.toDigits 10 n

def IsNumeral (cs : List Char) (n : Nat) : Prop :=
  IsPadded cs n ∨ ∃ ds, cs = '+' :: ds ∧ IsPadded ds n

theorem isPadded_toDigits (n : Nat) : IsPadded (Nat.toDigits 10 n) n := ⟨0,by simp⟩

theorem isPadded_digit {d : Nat} (hd : d < 10) : IsPadded [d.digitChar] d :=
  ⟨0,by simp [Nat.toDigits_of_lt_base hd]⟩

theorem isPadded_append_digit {cs : List Char} {n d : Nat} (h : IsPadded cs n) (hd : d < 10) :
    IsPadded (cs ++ [d.digitChar]) (10*n+d) := by
  obtain ⟨k,rfl⟩ := h
  by_cases hn : n = 0
  · -- the decimal of zero is one more zero in front
    refine ⟨k+1,?_⟩
    simp [hn,Nat.toDigits_of_lt_base hd,List.replicate_succ']
  · refine ⟨k,?_⟩
    have hdiv : (10*n+d)/10 = n := by omega
    have hmod : (10*n+d)%10 = d := by omega
    rw [Nat.toDigits_of_base_le (by decide) (by omega : 10 ≤ 10*n+d),hdiv,hmod]
    simp

theorem digitChar_of_isDigit {c : Char} (h : c.isDigit) :
    c.toNat - '0'.toNat < 10 ∧ (c.toNat - '0'.toNat).digitChar = c := by
  have hc : 48 ≤ c.toNat ∧ c.toNat ≤ 57 := by
    simpa [Char.isDigit,UInt32.le_iff_toNat_le] using h
  have hlt : c.toNat - '0'.toNat < 10 := by
    simp only [Char.reduceToNat]; omega
  refine ⟨hlt,Char.toNat_inj.mp ?_⟩
  rw [Nat.toNat_digitChar_of_lt_ten hlt]
  simp only [Char.reduceToNat]; omega

theorem isPadded_of_readDigits {limit n : Nat} {e : IntegerError} {cs : List Char} (hne : cs ≠ [])
    (h : readDigits limit e 0 cs = .ok n) : n ≤ limit ∧ IsPadded cs n := by
  induction cs using List.reverseRecOn generalizing n with
  | nil => contradiction
  | append_singleton cs c ih =>
    rw [readDigits_append] at h
    obtain ⟨v,hv,h⟩ := Except.bind_eq_ok_iff.mp h
    simp only [readDigits] at h
    split at h
    · rename_i hc
      obtain ⟨hlt,hchar⟩ := digitChar_of_isDigit hc
      split at h <;> cases h
      refine ⟨by assumption,?_⟩
      cases cs with
      | nil =>
        cases hv
        have hdigit := isPadded_digit hlt
        rw [hchar] at hdigit
        simpa using hdigit
      | cons d ds =>
        have hdigits := isPadded_append_digit (ih (by simp) hv).2 hlt
        rwa [hchar] at hdigits
    · contradiction

theorem readDigits_zeros (limit : Nat) (e : IntegerError) (k : Nat) :
    readDigits limit e 0 (List.replicate k '0') = .ok 0 := by
  induction k with
  | zero => rfl
  | succ k ih => simp [List.replicate_succ,readDigits,ih]

theorem readDigits_of_isPadded {limit n : Nat} {e : IntegerError} {cs : List Char} (hn : n ≤ limit)
    (h : IsPadded cs n) : readDigits limit e 0 cs = .ok n := by
  obtain ⟨k,rfl⟩ := h
  rw [readDigits_append,readDigits_zeros]
  exact readDigits_toDigits limit e n hn

theorem IsPadded.exists_digit {cs : List Char} {n : Nat} (h : IsPadded cs n) :
    ∃ c ds, cs = c :: ds ∧ c.isDigit := by
  obtain ⟨k,rfl⟩ := h
  cases k with
  | zero =>
    cases hd : Nat.toDigits 10 n with
    | nil => exact absurd hd Nat.toDigits_ne_nil
    | cons c ds => exact ⟨c,ds,by simp,isDigit_of_toDigits_eq hd⟩
  | succ k => exact ⟨'0',_,rfl,by decide⟩

theorem readUnsigned_eq_ok_iff {limit n : Nat} {cs : List Char} :
    readUnsigned limit cs = .ok n ↔ n ≤ limit ∧ IsNumeral cs n := by
  constructor
  · intro h
    unfold readUnsigned at h
    split at h
    · contradiction
    · exact (isPadded_of_readDigits (by simp) h).imp_right fun hp => .inr ⟨_,rfl,hp⟩
    · exact (isPadded_of_readDigits (by assumption) h).imp_right .inl
  · rintro ⟨hn,h | ⟨ds,rfl,h⟩⟩
    · have hread := readDigits_of_isPadded (e := .tooLarge) hn h
      obtain ⟨c,ds,rfl,hc⟩ := h.exists_digit
      unfold readUnsigned
      split
      · simp_all
      · simp_all [Char.isDigit]
      · exact hread
    · have hread := readDigits_of_isPadded (e := .tooLarge) hn h
      obtain ⟨c,ds,rfl,-⟩ := h.exists_digit
      exact hread

/-- Positions are read from their numerals, as far as words count. -/
theorem readIndex_eq_ok_iff {s : String} {n : Nat} :
    readIndex s = .ok n ↔ n ≤ maxUnsigned ∧ IsNumeral s.toList n := readUnsigned_eq_ok_iff

theorem toNat_le_maxUnsigned (i : UInt64) : i.toNat ≤ maxUnsigned := by
  have := i.toNat_lt
  simp only [maxUnsigned]; omega

end Integer
end AddressedForms
