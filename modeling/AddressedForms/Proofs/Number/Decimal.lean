import AddressedForms.Proofs.Number.Rounding
import AddressedForms.Proofs.Number.Integer
set_option autoImplicit false

/-!
The text of a real reads back. The search for digits ends at a grid finer than the interval of the
word, so the digits that are printed lie within the interval, and what lies there is rounded to it.
-/

namespace AddressedForms
namespace Dyadic

theorem pow_ten_le (n : Nat) : 10^n ≤ 2^(10*(n/3)+4*(n%3)) := by
  calc 10^n = (10^3)^(n/3)*10^(n%3) := by rw [← Nat.pow_mul,← Nat.pow_add,Nat.div_add_mod]
    _ ≤ (2^10)^(n/3)*(2^4)^(n%3) :=
      Nat.mul_le_mul (Nat.pow_le_pow_left (by decide) _) (Nat.pow_le_pow_left (by decide) _)
    _ = 2^(10*(n/3)+4*(n%3)) := by rw [← Nat.pow_mul,← Nat.pow_mul,← Nat.pow_add]

theorem le_pow_ten (n : Nat) : 2^(93*(n/28)+3*(n%28)) ≤ 10^n := by
  calc 2^(93*(n/28)+3*(n%28)) = (2^93)^(n/28)*(2^3)^(n%28) := by
        rw [← Nat.pow_mul,← Nat.pow_mul,← Nat.pow_add]
    _ ≤ (10^28)^(n/28)*10^(n%28) :=
      Nat.mul_le_mul (Nat.pow_le_pow_left (by decide) _) (Nat.pow_le_pow_left (by decide) _)
    _ = 10^n := by rw [← Nat.pow_mul,← Nat.pow_add,Nat.div_add_mod]

/-- Twenty-three grids below the estimated one, the grid is finer than a quarter of the last
place. -/
theorem gridFactor_le_unitFactor {d : Dyadic} {k : Int} (hl : -1074 ≤ d.exponent)
    (hu : d.exponent ≤ 971) (hk : k ≤ (52+d.exponent)*30103/100000-21) :
    d.gridFactor k ≤ d.unitFactor k := by
  simp only [gridFactor,unitFactor,Nat.pow_eq]
  rcases Int.lt_or_le k 0 with hneg | hpos
  · have h0 : k.toNat = 0 := by omega
    have h1 := le_pow_ten (-k).toNat
    have h2 : (2 : Nat)^(2-d.exponent).toNat ≤ 2^(93*((-k).toNat/28)+3*((-k).toNat%28)) :=
      Nat.pow_le_pow_right (by decide) (by omega)
    have h3 : 1 ≤ 2^(d.exponent-2).toNat := Nat.one_le_two_pow
    rw [h0,Nat.pow_zero,Nat.one_mul]
    calc 2^(2-d.exponent).toNat ≤ 10^(-k).toNat := h2.trans h1
      _ = 10^(-k).toNat*1 := (Nat.mul_one _).symm
      _ ≤ _ := Nat.mul_le_mul_left _ h3
  · have h0 : (2-d.exponent).toNat = 0 := by omega
    have h1 : (-k).toNat = 0 := by omega
    have h2 := pow_ten_le k.toNat
    rw [h0,h1,Nat.pow_zero,Nat.mul_one,Nat.one_mul]
    exact h2.trans (Nat.pow_le_pow_right (by decide) (by omega))

theorem low_lt {d : Dyadic} (h : 0 < d.mantissa) : d.low+1 ≤ d.centre := by
  unfold low centre
  split <;> omega

theorem holds_of_fine {d : Dyadic} (h : 0 < d.mantissa) {k : Int}
    (hk : d.gridFactor k ≤ d.unitFactor k) :
    d.holds k (d.centre*d.unitFactor k/d.gridFactor k) := by
  have hg : 0 < d.gridFactor k := by
    unfold gridFactor
    exact Nat.mul_pos (Nat.pow_pos (by decide)) (Nat.pow_pos (by decide))
  have hdiv := Nat.div_add_mod (d.centre*d.unitFactor k) (d.gridFactor k)
  have hmod := Nat.mod_lt (d.centre*d.unitFactor k) hg
  have hlow := Nat.mul_le_mul_right (d.unitFactor k) (low_lt h)
  have hhigh : d.high*d.unitFactor k = d.centre*d.unitFactor k+2*d.unitFactor k := by
    rw [show d.high = d.centre+2 from rfl,Nat.add_mul]
  rw [Nat.add_mul,Nat.one_mul] at hlow
  rw [Nat.mul_comm (d.gridFactor k)] at hdiv
  unfold holds
  dsimp only
  split <;> simp only [Bool.and_eq_true,decide_eq_true_eq] <;> omega

theorem holds_of_onGrid? {d : Dyadic} {k : Int} {n : Nat} (h : d.onGrid? k = some n) :
    d.holds k n := by
  unfold onGrid? at h
  dsimp only at h
  split at h <;> rename_i h1 h2
  · split at h <;> cases h <;> assumption
  · cases h; assumption
  · cases h; assumption
  · contradiction

theorem onGrid?_of_fine {d : Dyadic} (h : 0 < d.mantissa) {k : Int}
    (hk : d.gridFactor k ≤ d.unitFactor k) : d.onGrid? k ≠ none := by
  have := holds_of_fine h hk
  unfold onGrid?
  dsimp only
  rw [this]
  split <;> simp_all

theorem holds_search (d : Dyadic) {fuel : Nat} {k : Int}
    (h : ∃ i : Nat, i < fuel ∧ d.onGrid? (k-i) ≠ none) :
    d.holds (d.search fuel k).2 (d.search fuel k).1 := by
  induction fuel generalizing k with
  | zero => obtain ⟨i,hi,-⟩ := h; omega
  | succ fuel ih =>
    rw [search]
    split <;> rename_i hg
    · exact holds_of_onGrid? hg
    · refine ih ?_
      obtain ⟨i,hi,hne⟩ := h
      cases i with
      | zero => exact absurd (by simpa using hg) hne
      | succ i =>
        refine ⟨i,by omega,?_⟩
        rwa [show k-1-(i : Int) = k-((i+1 : Nat) : Int) by push_cast; omega]

theorem holds_shortest {d : Dyadic} {m : Nat} (h : d.IsWord m) :
    d.holds d.shortest.2 d.shortest.1 := by
  refine holds_search d
    ⟨23,by decide,onGrid?_of_fine h.pos (gridFactor_le_unitFactor h.least h.greatest ?_)⟩
  have hlog : d.mantissa.log2 ≤ 52 := by
    have hlt := h.lt
    simp only [hiddenBit] at hlt
    have := (Nat.log2_lt (Nat.pos_iff_ne_zero.mp h.pos)).mpr (show d.mantissa < 2^53 by omega)
    omega
  push_cast
  omega

theorem pos_of_holds {d : Dyadic} {k : Int} {n : Nat} (hd : 0 < d.mantissa) (h : d.holds k n) :
    0 < n := by
  have hlow : 2 ≤ d.low := by unfold low; split <;> omega
  have hu : 0 < d.unitFactor k := by
    unfold unitFactor
    exact Nat.mul_pos (Nat.pow_pos (by decide)) (Nat.pow_pos (by decide))
  have hp := Nat.mul_pos (show 0 < d.low by omega) hu
  rcases Nat.eq_zero_or_pos n with rfl | hn
  · unfold holds at h
    dsimp only at h
    split at h <;> simp only [Bool.and_eq_true,decide_eq_true_eq] at h <;> omega
  · exact hn

end Dyadic

namespace Binary64

theorem lt_pow_digits (n : Nat) : n < 10^(Nat.toDigits 10 n).length :=
  (Nat.length_toDigits_le_iff (by decide) Nat.length_toDigits_pos).mp (Nat.le_refl _)

theorem pow_digits_le {n : Nat} (h : 0 < n) : 10^((Nat.toDigits 10 n).length-1) ≤ n := by
  by_contra hc
  have hpos := @Nat.length_toDigits_pos 10 n
  by_cases h1 : (Nat.toDigits 10 n).length-1 = 0
  · rw [h1] at hc; omega
  · have := (Nat.length_toDigits_le_iff (by decide) (Nat.pos_of_ne_zero h1)).mpr (not_le.mp hc)
    omega

theorem two_zpow_le_ten {i : ℤ} (h : 0 ≤ i) : (2 : ℚ)^(3*i) ≤ 10^i := by
  obtain ⟨n,rfl⟩ := Int.eq_ofNat_of_zero_le h
  rw [zpow_mul]
  norm_cast
  exact Nat.pow_le_pow_left (by decide) n

/-- The number of digits keeps a value in the interval of a word off both ends of the range that is
computed exactly. -/
theorem digits_within {d : Dyadic} {m : Nat} (hd : d.IsWord m) {n : Nat} (hn : 0 < n) {k : Int}
    (h : d.Between d.low d.high (n*10^k)) :
    -400 ≤ ((Nat.toDigits 10 n).length : Int)+k ∧ ((Nat.toDigits 10 n).length : Int)+k ≤ 400 := by
  have hten : (0 : ℚ) < 10^k := by positivity
  have hs : (0 : ℚ) < 2^(d.exponent-2) := by positivity
  have hpos := @Nat.length_toDigits_pos 10 n
  have mono {i j : ℤ} (h : i ≤ j) : (2 : ℚ)^i ≤ 2^j := zpow_le_zpow_right₀ (by norm_num) h
  have monoTen {i j : ℤ} (h : i ≤ j) : (10 : ℚ)^i ≤ 10^j := zpow_le_zpow_right₀ (by norm_num) h
  constructor
  · by_contra hc
    have hlow : (1 : ℚ) ≤ d.low := by
      have : 1 ≤ d.low := by have := hd.pos; unfold Dyadic.low; split <;> omega
      exact_mod_cast this
    have hfrom : (2 : ℚ)^(-1076 : ℤ) ≤ n*10^k :=
      calc (2 : ℚ)^(-1076 : ℤ) ≤ 2^(d.exponent-2) := mono (by have := hd.least; omega)
        _ = 1*2^(d.exponent-2) := (one_mul _).symm
        _ ≤ d.low*2^(d.exponent-2) := mul_le_mul_of_nonneg_right hlow hs.le
        _ ≤ n*10^k := h.bounds.1
    have hto : (n : ℚ)*10^k < 2^(-1203 : ℤ) :=
      calc (n : ℚ)*10^k < (10 : ℚ)^(Nat.toDigits 10 n).length*10^k := by
            refine mul_lt_mul_of_pos_right ?_ hten
            exact_mod_cast lt_pow_digits n
        _ = 10^(((Nat.toDigits 10 n).length : ℤ)+k) := by
            rw [zpow_add₀ (by norm_num),zpow_natCast]
        _ ≤ 10^(-401 : ℤ) := monoTen (by omega)
        _ ≤ 2^(-1203 : ℤ) := by
            rw [zpow_neg,zpow_neg]
            exact inv_anti₀ (by positivity) (two_zpow_le_ten (by decide))
    exact absurd (hfrom.trans_lt hto) (not_lt.mpr (mono (by decide)))
  · by_contra hc
    have hhigh : (d.high : ℚ) ≤ 2^(56 : ℤ) := by
      have hlt := hd.lt
      have : d.high ≤ 2^56 := by unfold Dyadic.high; simp only [Dyadic.hiddenBit] at hlt; omega
      exact_mod_cast this
    have hto : (n : ℚ)*10^k ≤ 2^(1025 : ℤ) :=
      calc (n : ℚ)*10^k ≤ d.high*2^(d.exponent-2) := h.bounds.2
        _ ≤ 2^(56 : ℤ)*2^(d.exponent-2) := mul_le_mul_of_nonneg_right hhigh hs.le
        _ = 2^(56+(d.exponent-2)) := (zpow_add₀ (by norm_num) _ _).symm
        _ ≤ 2^(1025 : ℤ) := mono (by have := hd.greatest; omega)
    have hfrom : (2 : ℚ)^(1200 : ℤ) ≤ n*10^k :=
      calc (2 : ℚ)^(1200 : ℤ) ≤ 10^(400 : ℤ) := two_zpow_le_ten (by decide)
        _ ≤ 10^((((Nat.toDigits 10 n).length-1 : ℕ) : ℤ)+k) := monoTen (by omega)
        _ = (10 : ℚ)^((Nat.toDigits 10 n).length-1)*10^k := by
            rw [zpow_add₀ (by norm_num),zpow_natCast]
        _ ≤ n*10^k := by
            refine mul_le_mul_of_nonneg_right ?_ hten.le
            exact_mod_cast pow_digits_le hn
    exact absurd (hfrom.trans hto) (not_le.mpr (zpow_lt_zpow_right₀ (by norm_num) (by decide)))

/-- Any decimal in the interval of a word is read as that word. -/
theorem ofDecimal_eq {d : Dyadic} {m : Nat} (hd : d.IsWord m) (hm : m < infinity)
    (negative : Bool) {n : Nat} (hn : 0 < n) {k : Int} (h : d.Between d.low d.high (n*10^k)) :
    ofDecimal negative n k = withSign negative (.ofNat m) := by
  obtain ⟨hl,hu⟩ := digits_within hd hn h
  have hv : ((n*Nat.pow 10 k.toNat : ℕ) : ℚ) = n*10^k*(Nat.pow 10 (-k).toNat : ℕ) := by
    simp only [Nat.pow_eq]
    push_cast
    rw [mul_assoc,zpow_mul_pow_toNat (by norm_num)]
  have hnear : nearest (n*Nat.pow 10 k.toNat) (Nat.pow 10 (-k).toNat) = m :=
    nearest_eq hd hm (Nat.mul_pos hn (Nat.pow_pos (by decide))) (Nat.pow_pos (by decide)) hv h
  have h1 : ¬ (decide (n = 0) || decide (((Nat.toDigits 10 n).length : Int)+k < -400)) = true := by
    simp only [Bool.or_eq_true,decide_eq_true_eq]; omega
  unfold ofDecimal
  dsimp only
  rw [if_neg h1,if_neg (by omega),hnear]

theorem spanDigits {ds : List Char} (h : ∀ c ∈ ds, c.isDigit) (rest : List Char) :
    (ds ++ rest).takeWhile Char.isDigit = ds ++ rest.takeWhile Char.isDigit ∧
      (ds ++ rest).dropWhile Char.isDigit = rest.dropWhile Char.isDigit :=
  ⟨List.takeWhile_append_of_pos h,List.dropWhile_append_of_pos h⟩

theorem readNumber?_whole {ds : List Char} (h : ∀ c ∈ ds, c.isDigit) (hne : ds ≠ [])
    (negative : Bool) : readNumber? negative ds = some (ofDecimal negative (digitsValue ds) 0) := by
  obtain ⟨ht,hd⟩ := spanDigits h []
  simp only [List.append_nil,List.takeWhile_nil,List.dropWhile_nil] at ht hd
  simp [readNumber?,ht,hd,hne,readExponent?]

theorem readNumber?_point {ds es : List Char} (hd : ∀ c ∈ ds, c.isDigit)
    (he : ∀ c ∈ es, c.isDigit) (hne : ds ≠ []) (negative : Bool) :
    readNumber? negative (ds ++ '.' :: es) =
      some (ofDecimal negative (digitsValue (ds ++ es)) (-es.length)) := by
  obtain ⟨ht,hr⟩ := spanDigits hd ('.' :: es)
  obtain ⟨ht',hr'⟩ := spanDigits he []
  have hp : '.'.isDigit = false := by decide
  simp only [List.append_nil,List.takeWhile_nil,List.dropWhile_nil] at ht' hr'
  simp only [List.takeWhile_cons,List.dropWhile_cons,hp] at ht hr
  simp [readNumber?,ht,hr,ht',hr',hne,readExponent?]

theorem isDigit_of_mem_toDigits {n : Nat} {c : Char} (h : c ∈ Nat.toDigits 10 n) : c.isDigit :=
  Nat.isDigit_of_mem_toDigits (by decide) (by decide) h

theorem isDigit_of_mem_zeros {n : Nat} {c : Char} (h : c ∈ List.replicate n '0') : c.isDigit := by
  rw [List.eq_of_mem_replicate h]; decide

/-- Wherever the point is written, the value that is read is the value that was meant. -/
theorem readNumber?_positional (negative : Bool) (n : Nat) (k : Int) :
    ∃ n' : Nat, ∃ k' : Int, (n' : ℚ)*10^k' = n*10^k ∧ (0 < n → 0 < n') ∧
      readNumber? negative (positional (Nat.toDigits 10 n) k) =
        some (ofDecimal negative n' k') := by
  have hvalue : digitsValue (Nat.toDigits 10 n) = n := Nat.ofDigitChars_ten_toDigits
  have hdigits := fun c => @isDigit_of_mem_toDigits n c
  unfold positional
  dsimp only
  split
  · rename_i hk
    refine ⟨n*10^k.toNat,0,?_,fun h => Nat.mul_pos h (Nat.pow_pos (by decide)),?_⟩
    · obtain ⟨j,rfl⟩ := Int.eq_ofNat_of_zero_le hk
      push_cast
      simp
    · have hall : ∀ c ∈ Nat.toDigits 10 n ++ List.replicate k.toNat '0', c.isDigit := by
        intro c hc
        rcases List.mem_append.mp hc with hc | hc
        · exact hdigits c hc
        · exact isDigit_of_mem_zeros hc
      rw [readNumber?_whole hall (by simp [Nat.toDigits_ne_nil])]
      unfold digitsValue at hvalue ⊢
      rw [Nat.ofDigitChars_append,hvalue,Nat.ofDigitChars_replicate_zero,Nat.mul_comm]
  · split
    · rename_i hk hp
      refine ⟨n,k,rfl,id,?_⟩
      have htake : ∀ c ∈ (Nat.toDigits 10 n).take (((Nat.toDigits 10 n).length : Int)+k).toNat,
          c.isDigit := fun c hc => hdigits c (List.mem_of_mem_take hc)
      have hdrop : ∀ c ∈ (Nat.toDigits 10 n).drop (((Nat.toDigits 10 n).length : Int)+k).toNat,
          c.isDigit := fun c hc => hdigits c (List.mem_of_mem_drop hc)
      have hne : (Nat.toDigits 10 n).take (((Nat.toDigits 10 n).length : Int)+k).toNat ≠ [] := by
        simp only [ne_eq,List.take_eq_nil_iff,Nat.toDigits_ne_nil,or_false]
        omega
      rw [readNumber?_point htake hdrop hne,List.take_append_drop,hvalue,List.length_drop]
      congr 2
      omega
    · rename_i hk hp
      refine ⟨n,k,rfl,id,?_⟩
      have hall : ∀ c ∈ List.replicate (-(((Nat.toDigits 10 n).length : Int)+k)).toNat '0' ++
          Nat.toDigits 10 n, c.isDigit := by
        intro c hc
        rcases List.mem_append.mp hc with hc | hc
        · exact isDigit_of_mem_zeros hc
        · exact hdigits c hc
      have hread := @readNumber?_point ['0'] _ (List.forall_mem_singleton.mpr rfl) hall (by simp)
        negative
      simp only [List.cons_append,List.nil_append] at hread ⊢
      rw [hread]
      unfold digitsValue at hvalue ⊢
      rw [Nat.ofDigitChars_cons,Nat.ofDigitChars_append,Nat.ofDigitChars_replicate_zero]
      simp only [List.length_append,List.length_replicate]
      congr 2
      omega

theorem positional_eq_cons (n : Nat) (k : Int) :
    ∃ c cs, positional (Nat.toDigits 10 n) k = c :: cs ∧ c.isDigit := by
  unfold positional
  dsimp only
  cases hd : Nat.toDigits 10 n with
  | nil => exact absurd hd Nat.toDigits_ne_nil
  | cons c cs =>
    have hc := Integer.isDigit_of_toDigits_eq hd
    split
    · exact ⟨c,_,List.cons_append,hc⟩
    · split <;> rename_i hp
      · obtain ⟨p,hp⟩ := Int.eq_ofNat_of_zero_le (Int.le_of_lt hp)
        cases p with
        | zero => simp_all
        | succ p =>
          rw [hp]
          exact ⟨c,_,rfl,hc⟩
      · exact ⟨'0',_,rfl,by decide⟩

theorem readUnsigned?_digit {c : Char} (h : c.isDigit) (negative : Bool) (cs : List Char) :
    readUnsigned? negative (c :: cs) = readNumber? negative (c :: cs) := by
  have hc : c.toLower = c := by
    simp only [Char.isDigit,Bool.and_eq_true,decide_eq_true_eq] at h
    have : ¬ (c.val ≥ 65 ∧ c.val ≤ 90) := fun hu => by
      have := UInt32.le_trans hu.1 h.2
      exact absurd this (by decide)
    exact dif_neg this
  have word (w : List Char) (hw : ∀ d ds, w = d :: ds → d.isDigit = false) :
      String.ofList ((c :: cs).map Char.toLower) ≠ String.ofList w := by
    intro he
    have hl := String.ofList_injective he
    rw [List.map_cons,hc] at hl
    have := hw c _ hl.symm
    rw [h] at this
    contradiction
  have hinf := word ['i','n','f'] (by rintro d ds ⟨⟩; decide)
  have hinfinity := word ['i','n','f','i','n','i','t','y'] (by rintro d ds ⟨⟩; decide)
  have hnan := word ['n','a','n'] (by rintro d ds ⟨⟩; decide)
  unfold readUnsigned?
  dsimp only
  rw [if_neg (not_or.mpr ⟨hinf,hinfinity⟩),if_neg hnan]

theorem withSign_magnitude (x : Binary64) :
    withSign x.isNegative (.ofNat x.magnitude) = x := by
  obtain ⟨b⟩ := x
  have hb := b.toNat_lt
  have hmod := Nat.div_add_mod b.toNat signBit
  have hbit : (0x8000000000000000 : UInt64).toNat = 0x8000000000000000 := rfl
  simp only [withSign,isNegative,magnitude,decide_eq_true_eq]
  congr 1
  apply UInt64.toNat_inj.mp
  split <;> simp only [UInt64.toNat_add,UInt64.toNat_ofNat',hbit,signBit] at * <;> omega

/-- The words that their text determines; of the words that are no numbers only one is read. -/
def isReadable (x : Binary64) : Bool := x.magnitude ≤ infinity || x.bits = 0x7ff8000000000000

theorem text_eq {x : Binary64} (h : x.magnitude ≤ infinity) : ∃ c cs,
    x.text = (if x.isNegative then "-" else "") ++ String.ofList (c :: cs) ∧
      (c.isDigit ∨ c = 'i') ∧ ∀ negative,
        readUnsigned? negative (c :: cs) = some (withSign negative (.ofNat x.magnitude)) := by
  unfold text
  dsimp only
  rw [if_neg (by simpa [infinity] using h)]
  by_cases hinf : x.magnitude = 0x7ff0000000000000
  · refine ⟨'i',['n','f'],by rw [if_pos hinf],.inr rfl,fun negative => ?_⟩
    rw [hinf]
    have hw : String.ofList (['i','n','f'].map Char.toLower) = "inf" := by decide
    unfold readUnsigned?
    rw [hw]
    rfl
  · rw [if_neg hinf]
    by_cases hzero : x.magnitude = 0
    · refine ⟨'0',[],by rw [if_pos hzero],.inl (by decide),fun negative => ?_⟩
      rw [hzero,readUnsigned?_digit (by decide),
        readNumber?_whole (List.forall_mem_singleton.mpr rfl) (by simp)]
      rfl
    · rw [if_neg hzero]
      have hlt : x.magnitude < infinity := by simp only [infinity] at h ⊢; omega
      have hd := Dyadic.isWord_ofMagnitude hzero hlt
      have hholds := Dyadic.holds_shortest hd
      generalize (Dyadic.ofMagnitude x.magnitude).shortest = p at hholds ⊢
      obtain ⟨n,k⟩ := p
      have hn := Dyadic.pos_of_holds hd.pos hholds
      obtain ⟨c,cs,hcs,hc⟩ := positional_eq_cons n k
      refine ⟨c,cs,by rw [hcs],.inl hc,fun negative => ?_⟩
      obtain ⟨n',k',hv,hpos,hread⟩ := readNumber?_positional negative n k
      rw [readUnsigned?_digit hc,← hcs,hread]
      rw [Dyadic.holds_iff,← hv] at hholds
      rw [ofDecimal_eq hd hlt negative (hpos hn) hholds]

theorem read_text {x : Binary64} (h : x.isReadable) : read x.text = .ok x := by
  by_cases hm : x.magnitude ≤ infinity
  · obtain ⟨c,cs,ht,hc,hread⟩ := text_eq hm
    have hx := withSign_magnitude x
    rw [ht]
    unfold read
    cases hneg : x.isNegative with
    | true =>
      rw [hneg] at hx
      simp [hread,hx]
    | false =>
      rw [hneg] at hx
      have hsign : c ≠ '-' ∧ c ≠ '+' := by
        constructor <;> rintro rfl <;> simp at hc
      have hl :
          ((if false = true then "-" else "") ++ String.ofList (c :: cs)).toList = c :: cs := by
        simp
      rw [hl]
      split <;> simp_all
  · have hbits : x.bits = 0x7ff8000000000000 := by simpa [isReadable,hm] using h
    obtain ⟨b⟩ := x
    cases hbits
    rfl

end Binary64
end AddressedForms
