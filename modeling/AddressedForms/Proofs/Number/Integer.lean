import AddressedForms.Number.Integer
set_option autoImplicit false

/-!
Printed numbers read back: words with and without a sign, and positions.
-/

namespace AddressedForms
namespace Integer

theorem isDigit_of_toDigits_eq {n : Nat} {c : Char} {cs : List Char}
    (h : Nat.toDigits 10 n = c :: cs) : c.isDigit :=
  Nat.isDigit_of_mem_toDigits (by decide) (by decide) (h ▸ List.mem_cons_self)

/-- But for a minus sign, signed numbers are read like unsigned ones. -/
theorem readSigned_eq_readUnsigned (limit : Nat) {cs : List Char} (h : cs.head? ≠ some '-') :
    readSigned limit cs = (readUnsigned limit cs).map Int.ofNat := by
  unfold readSigned
  split
  · rfl
  · rfl
  · exact absurd rfl h
  · rename_i hne hplus _
    rw [readUnsigned]
    · exact hne
    · exact hplus

theorem readUnsigned_toDigits (limit n : Nat) (h : n ≤ limit) :
    readUnsigned limit (Nat.toDigits 10 n) = .ok n := by
  have hread := readDigits_toDigits limit .tooLarge n h
  cases hd : Nat.toDigits 10 n with
  | nil => exact absurd hd Nat.toDigits_ne_nil
  | cons c cs =>
    have hc := isDigit_of_toDigits_eq hd
    rw [hd] at hread
    unfold readUnsigned
    split
    · simp_all
    · simp_all [Char.isDigit]
    · exact hread

theorem readSigned_toDigits (limit n : Nat) (h : n ≤ limit) :
    readSigned limit (Nat.toDigits 10 n) = .ok (n : Int) := by
  rw [readSigned_eq_readUnsigned,readUnsigned_toDigits limit n h]
  · rfl
  · intro hminus
    obtain ⟨cs,hd⟩ := List.head?_eq_some_iff.mp hminus
    have hc := isDigit_of_toDigits_eq hd
    simp [Char.isDigit] at hc

theorem toList_toString_nat (n : Nat) : (toString n).toList = Nat.toDigits 10 n := by
  simp

theorem toList_toString_int (v : Int) : (toString v).toList =
    if 0 ≤ v then Nat.toDigits 10 v.toNat else '-' :: Nat.toDigits 10 (-v).toNat := by
  rw [Int.toString_eq_repr,Int.repr_eq_if]
  split <;> simp

/-- A limit holds for what is not negative, and the next number for the absolute value of the rest.
-/
theorem readSigned_toString {limit : Nat} {v : Int} (hl : -(limit : Int)-1 ≤ v)
    (hu : v ≤ limit) : readSigned limit (toString v).toList = .ok v := by
  rw [toList_toString_int]
  split <;> rename_i hv
  · rw [readSigned_toDigits limit v.toNat (by omega)]
    congr 1; omega
  · have hread := readDigits_toDigits (limit+1) .tooSmall (-v).toNat (by omega)
    cases hd : Nat.toDigits 10 (-v).toNat with
    | nil => exact absurd hd Nat.toDigits_ne_nil
    | cons c cs =>
      rw [hd] at hread
      simp only [readSigned,hread,Except.map]
      congr 1
      simp only [Int.ofNat_eq_natCast]; omega

theorem readInt64_toString (v : Int64) : readInt64 (toString v.toInt) = .ok v := by
  have hl := v.le_toInt
  have hu := v.toInt_lt
  unfold readInt64
  rw [readSigned_toString (by simp only [maxSigned]; omega) (by simp only [maxSigned]; omega)]
  simp [Except.map]

theorem readUInt64_toString (n : UInt64) : readUInt64 (toString n) = .ok n := by
  have hn := n.toNat_lt
  have ht : toString n = toString n.toNat := rfl
  unfold readUInt64
  rw [ht,toList_toString_nat,readUnsigned_toDigits maxUnsigned n.toNat (by
    simp only [maxUnsigned]; omega)]
  simp [Except.map]

theorem readIndex_toString {i : Nat} (h : i ≤ maxUnsigned) : readIndex (toString i) = .ok i := by
  unfold readIndex
  rw [toList_toString_nat,readUnsigned_toDigits maxUnsigned i h]

end Integer
end AddressedForms
