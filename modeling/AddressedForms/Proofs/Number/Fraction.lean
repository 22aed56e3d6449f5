import AddressedForms.Number.Fraction
import AddressedForms.Proofs.Number.Integer
set_option autoImplicit false

/-!
The text of a fraction reads back: the slash is the first character that belongs to no number.
-/

namespace AddressedForms
namespace Fraction

theorem slash_notMem_toString (v : Int) : '/' ∉ (toString v).toList := by
  have digits (n : Nat) : '/' ∉ Nat.toDigits 10 n := fun h => by
    have := Nat.isDigit_of_mem_toDigits (by decide) (by decide) h
    exact absurd this (by decide)
  rw [Integer.toList_toString_int]
  split
  · exact digits _
  · simpa using digits _

theorem splitAtSlash {cs : List Char} (h : '/' ∉ cs) (ds : List Char) :
    (cs ++ '/' :: ds).takeWhile (· ≠ '/') = cs ∧
      (cs ++ '/' :: ds).dropWhile (· ≠ '/') = '/' :: ds := by
  induction cs with
  | nil => simp
  | cons c cs ih =>
    have hc := List.ne_of_not_mem_cons h
    have hcs := List.not_mem_of_not_mem_cons h
    simpa [hc.symm] using ih hcs

theorem withoutSlash {cs : List Char} (h : '/' ∉ cs) :
    cs.takeWhile (· ≠ '/') = cs ∧ cs.dropWhile (· ≠ '/') = [] := by
  induction cs with
  | nil => simp
  | cons c cs ih =>
    have hc := List.ne_of_not_mem_cons h
    have hcs := List.not_mem_of_not_mem_cons h
    simpa [hc.symm] using ih hcs

theorem ofInts?_num_den (f : Fraction) : ofInts? f.val.num f.val.den = some f := by
  have hd : (f.val.den : Int) ≠ 0 := by exact_mod_cast f.val.den_nz
  rw [ofInts?,if_neg hd,Rat.num_divInt_den,ofRat?,dif_pos ⟨f.num_fits,f.den_fits⟩]

theorem readSigned_of_fitsWord {v : Int} (h : fitsWord v) :
    Integer.readSigned Integer.maxSigned (toString v).toList = .ok v := by
  simp only [fitsWord,Bool.and_eq_true,decide_eq_true_eq] at h
  exact Integer.readSigned_toString (by simp only [Integer.maxSigned]; omega)
    (by simp only [Integer.maxSigned]; omega)

theorem read_text (f : Fraction) : read f.text = .ok f := by
  have hn := slash_notMem_toString f.val.num
  have hnum := readSigned_of_fitsWord f.num_fits
  unfold read text
  by_cases hd : f.val.den = 1
  · have hone : Integer.readSigned Integer.maxSigned ['1'] = .ok 1 := rfl
    have hf : ofInts? f.val.num 1 = some f := by simpa [hd] using ofInts?_num_den f
    obtain ⟨ht,hr⟩ := withoutSlash hn
    simp only [hd,if_true,ht,hr,hnum,hone,hf]
    simp
  · have hden := readSigned_of_fitsWord f.den_fits
    have hne : (f.val.den : Int) ≠ 0 := by exact_mod_cast f.val.den_nz
    have ht : (toString f.val.num ++ "/" ++ toString f.val.den).toList =
        (toString f.val.num).toList ++ '/' :: (toString (f.val.den : Int)).toList := by
      simp only [String.toList_append,Integer.toList_toString_nat]
      rw [Integer.toList_toString_int f.val.den,if_pos (Int.natCast_nonneg _),Int.toNat_natCast]
      simp
    obtain ⟨hl,hr⟩ := splitAtSlash hn (toString (f.val.den : Int)).toList
    simp only [if_neg hd,ht,hl,hr,hnum,hden,hne,if_false,ofInts?_num_den]

end Fraction
end AddressedForms
