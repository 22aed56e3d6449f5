import AddressedForms.Number.Decimal
import Mathlib.Algebra.Order.Field.Power
import Mathlib.Tactic.FieldSimp
import Mathlib.Tactic.Linarith
import Mathlib.Tactic.NormNum.Pow
import Mathlib.Tactic.Positivity
import Mathlib.Tactic.Ring
set_option autoImplicit false

/-!
Rounding of decimals to words. Every value in the interval of a word is rounded to that word, the
ends of the interval only where the mantissa is even.
-/

namespace AddressedForms
namespace Dyadic

structure IsWord (d : Dyadic) (m : Nat) : Prop where
  pos : 0 < d.mantissa
  lt : d.mantissa < 2*hiddenBit
  least : -1074 ≤ d.exponent
  greatest : d.exponent ≤ 971
  normal : d.exponent = -1074 ∨ hiddenBit ≤ d.mantissa
  lowest : d.lowest = true ↔ d.mantissa = hiddenBit ∧ -1074 < d.exponent
  magnitude : d.mantissa+(d.exponent+1074).toNat*hiddenBit = m

theorem isWord_ofMagnitude {m : Nat} (hm : m ≠ 0) (hf : m < Binary64.infinity) :
    (ofMagnitude m).IsWord m := by
  have hdiv := Nat.div_add_mod m hiddenBit
  have hmod := Nat.mod_lt m (show 0 < hiddenBit by decide)
  simp only [Binary64.infinity] at hf
  unfold ofMagnitude
  by_cases he : m/hiddenBit = 0
  · rw [he] at hdiv
    simp only [he,if_true]
    constructor <;> simp <;> omega
  · have hpos : 1 ≤ m/hiddenBit := Nat.one_le_iff_ne_zero.mpr he
    have hlt : m/hiddenBit < 2047 := by
      apply Nat.div_lt_of_lt_mul
      simp only [hiddenBit]; omega
    have hsum : (m/hiddenBit-1)*hiddenBit+hiddenBit = hiddenBit*(m/hiddenBit) := by
      rw [Nat.mul_comm hiddenBit,← Nat.succ_mul]
      congr 1; omega
    simp only [he,if_false]
    constructor <;> simp only [Int.ofNat_eq_natCast]
    · simp only [hiddenBit]; omega
    · omega
    · omega
    · omega
    · omega
    · simp only [Bool.and_eq_true,decide_eq_true_eq]; omega
    · have ht : ((m/hiddenBit : Nat) : Int)-1075+1074 = ((m/hiddenBit-1 : Nat) : Int) := by omega
      rw [ht,Int.toNat_natCast]
      omega

end Dyadic

theorem zpow_mul_pow_toNat {b : ℚ} (hb : b ≠ 0) (k : ℤ) :
    b^k*b^(-k).toNat = b^k.toNat := by
  rw [← zpow_natCast,← zpow_natCast,← zpow_add₀ hb]
  congr 1; omega

namespace Dyadic

/-- The value in units of a quarter of the last place lies between two numbers. -/
def Between (d : Dyadic) (low high : Nat) (v : ℚ) : Prop :=
  if d.mantissa%2 = 0 then low*2^(d.exponent-2) ≤ v ∧ v ≤ high*2^(d.exponent-2)
  else low*2^(d.exponent-2) < v ∧ v < high*2^(d.exponent-2)

theorem Between.bounds {d : Dyadic} {low high : Nat} {v : ℚ} (h : d.Between low high v) :
    (low : ℚ)*2^(d.exponent-2) ≤ v ∧ v ≤ high*2^(d.exponent-2) := by
  unfold Between at h
  split at h
  · exact h
  · exact ⟨h.1.le,h.2.le⟩

theorem factors_eq (d : Dyadic) (k : Int) : ∃ c : ℚ, 0 < c ∧
    (d.gridFactor k : ℚ) = 10^k*c ∧ (d.unitFactor k : ℚ) = 2^(d.exponent-2)*c := by
  refine ⟨10^(-k).toNat*2^(2-d.exponent).toNat,by positivity,?_,?_⟩
  · have h := zpow_mul_pow_toNat (show (10 : ℚ) ≠ 0 by norm_num) k
    simp only [gridFactor,Nat.pow_eq]
    push_cast
    rw [← h]; ring
  · have h := zpow_mul_pow_toNat (show (2 : ℚ) ≠ 0 by norm_num) (d.exponent-2)
    rw [neg_sub] at h
    simp only [unitFactor,Nat.pow_eq]
    push_cast
    rw [← h]; ring

theorem holds_iff (d : Dyadic) (k : Int) (n : Nat) :
    d.holds k n ↔ d.Between d.low d.high (n*10^k) := by
  obtain ⟨c,hc,hg,hu⟩ := d.factors_eq k
  have hle (x y : ℚ) : x*c ≤ y*c ↔ x ≤ y := mul_le_mul_iff_left₀ hc
  have hlt (x y : ℚ) : x*c < y*c ↔ x < y := mul_lt_mul_iff_left₀ hc
  have hx : ((n*d.gridFactor k : ℕ) : ℚ) = n*10^k*c := by push_cast; rw [hg]; ring
  have hy (a : ℕ) : ((a*d.unitFactor k : ℕ) : ℚ) = a*2^(d.exponent-2)*c := by
    push_cast; rw [hu]; ring
  unfold holds Between
  split <;>
    simp only [Bool.and_eq_true,decide_eq_true_eq] <;>
    simp only [← Nat.cast_le (α := ℚ),← Nat.cast_lt (α := ℚ),hx,hy,hle,hlt]

end Dyadic

namespace Binary64

theorem nearestNat_eq {a b n : Nat} (hl : 2*(n*b) ≤ 2*a+b) (hu : 2*a ≤ 2*(n*b)+b)
    (ht : n%2 ≠ 0 → 2*(n*b) ≠ 2*a+b ∧ 2*a ≠ 2*(n*b)+b) (hb : 0 < b) : nearestNat a b = n := by
  have hdiv := Nat.div_add_mod a b
  have hmod := Nat.mod_lt a hb
  have hlow : n ≤ a/b+1 := by
    by_contra hc
    have := Nat.mul_le_mul_right b (show a/b+2 ≤ n by omega)
    rw [Nat.add_mul,Nat.mul_comm (a/b)] at this
    omega
  have hhigh : a/b ≤ n := by
    by_contra hc
    have := Nat.mul_le_mul_right b (show n+1 ≤ a/b by omega)
    rw [Nat.add_mul,Nat.mul_comm (a/b)] at this
    omega
  unfold nearestNat
  dsimp only
  rcases Nat.lt_or_ge (a/b) n with hq | hq
  · have hn : n = a/b+1 := by omega
    have hm : n*b = b*(a/b)+b := by rw [hn,Nat.add_mul,Nat.mul_comm]; omega
    rw [if_neg (by omega)]
    exact hn.symm
  · have hn : n = a/b := by omega
    have hm : n*b = b*(a/b) := by rw [hn,Nat.mul_comm]
    rw [if_pos (by omega)]
    exact hn.symm

theorem pow_log2_le {a : Nat} (ha : 0 < a) : (2 : ℚ)^(a.log2 : ℤ) ≤ a := by
  have h := Nat.log2_self_le (Nat.pos_iff_ne_zero.mp ha)
  rw [zpow_natCast]
  exact_mod_cast h

theorem lt_pow_log2 (a : Nat) : (a : ℚ) < 2^((a.log2 : ℤ)+1) := by
  have h : a < 2^(a.log2+1) := Nat.lt_log2_self
  exact_mod_cast h

theorem two_zpow_add (e : ℤ) (n : ℕ) : (2 : ℚ)^(e+n) = 2^n*2^e := by
  rw [zpow_add₀ (by norm_num),zpow_natCast,mul_comm]

theorem scaled_eq {a b : Nat} (e : ℤ) {v : ℚ} (hv : (a : ℚ) = v*b) :
    ((a*Nat.pow 2 (-e).toNat : ℕ) : ℚ)*2^e = v*(b*Nat.pow 2 e.toNat : ℕ) := by
  have h := zpow_mul_pow_toNat (show (2 : ℚ) ≠ 0 by norm_num) e
  simp only [Nat.pow_eq]
  push_cast
  rw [← h,hv]; ring

/-- The exponent leaves 53 bits before the point, unless it is the least one and leaves fewer. -/
theorem exponentFor_spec {a b : Nat} (ha : 0 < a) (hb : 0 < b) {v : ℚ} (hv : (a : ℚ) = v*b) :
    -1074 ≤ exponentFor a b ∧ v < 2^53*2^exponentFor a b ∧
      (exponentFor a b = -1074 ∨ 2^52*2^exponentFor a b ≤ v) := by
  have hb' : (0 : ℚ) < b := by exact_mod_cast hb
  generalize he : (a.log2 : ℤ)-b.log2-53 = e
  have hla : (a.log2 : ℤ) = e+b.log2+53 := by omega
  have hlow : (2 : ℚ)^52*2^e ≤ v := by
    have h1 := pow_log2_le ha
    have h2 := (lt_pow_log2 b).le
    rw [hla,hv] at h1
    have h3 : (2 : ℚ)^(e+b.log2+53) = 2^52*2^e*2^((b.log2 : ℤ)+1) := by
      rw [show e+(b.log2 : ℤ)+53 = (e+(b.log2+1))+(52 : ℕ) by push_cast; ring,two_zpow_add,
        zpow_add₀ (by norm_num)]
      ring
    rw [h3] at h1
    have h4 : (2 : ℚ)^52*2^e*b ≤ 2^52*2^e*2^((b.log2 : ℤ)+1) :=
      mul_le_mul_of_nonneg_left h2 (by positivity)
    exact le_of_mul_le_mul_right (h4.trans h1) hb'
  have hhigh : v < 2^53*2^(e+1) := by
    have h1 := lt_pow_log2 a
    have h2 := pow_log2_le hb
    rw [hla,hv] at h1
    have h3 : (2 : ℚ)^(e+b.log2+53+1) = 2^53*2^(e+1)*2^(b.log2 : ℤ) := by
      rw [show e+(b.log2 : ℤ)+53+1 = (e+1+b.log2)+(53 : ℕ) by push_cast; ring,two_zpow_add,
        zpow_add₀ (by norm_num)]
      ring
    rw [h3] at h1
    have h4 : (2 : ℚ)^53*2^(e+1)*2^(b.log2 : ℤ) ≤ 2^53*2^(e+1)*b :=
      mul_le_mul_of_nonneg_left h2 (by positivity)
    exact lt_of_mul_lt_mul_right (h1.trans_le h4) hb'.le
  -- the condition compares the value with the end of the smaller exponent
  have hcond : a*Nat.pow 2 (-e).toNat < 2*Dyadic.hiddenBit*(b*Nat.pow 2 e.toNat) ↔
      v < 2^53*2^e := by
    have hs := scaled_eq e hv
    have hpos : (0 : ℚ) < (b*Nat.pow 2 e.toNat : ℕ) := by
      have : 0 < b*Nat.pow 2 e.toNat := Nat.mul_pos hb (Nat.pow_pos (by decide))
      exact_mod_cast this
    have htwo : (0 : ℚ) < 2^e := by positivity
    have hbit : ((2*Dyadic.hiddenBit : ℕ) : ℚ) = 2^53 := by norm_num [Dyadic.hiddenBit]
    rw [← Nat.cast_lt (α := ℚ),← mul_lt_mul_iff_left₀ htwo,hs,Nat.cast_mul (2*Dyadic.hiddenBit),
      hbit]
    rw [show (2 : ℚ)^53*(b*Nat.pow 2 e.toNat : ℕ)*2^e = 2^53*2^e*(b*Nat.pow 2 e.toNat : ℕ) by
      ring]
    exact mul_lt_mul_iff_left₀ hpos
  have hstep : (2 : ℚ)^52*2^(e+1) = 2^53*2^e := by rw [zpow_add_one₀ (by norm_num)]; ring
  have mono {i j : ℤ} (h : i ≤ j) : (2 : ℚ)^53*2^i ≤ 2^53*2^j :=
    mul_le_mul_of_nonneg_left (zpow_le_zpow_right₀ (by norm_num) h) (by positivity)
  unfold exponentFor
  dsimp only
  rw [he]
  split <;> rename_i hc
  · have hlt := hcond.mp hc
    refine ⟨le_max_left _ _,hlt.trans_le (mono (le_max_right _ _)),?_⟩
    rcases max_choice (-1074) e with h | h <;> rw [h]
    · exact .inl rfl
    · exact .inr hlow
  · have hge := not_lt.mp (fun h => hc (hcond.mpr h))
    refine ⟨le_max_left _ _,hhigh.trans_le (mono (le_max_right _ _)),?_⟩
    rcases max_choice (-1074) (e+1) with h | h <;> rw [h]
    · exact .inl rfl
    · exact .inr (hstep.trans_le hge)

theorem nearestNat_scaled {a b n : Nat} (hb : 0 < b) (e : ℤ) {v : ℚ} (hv : (a : ℚ) = v*b)
    (hl : (2*n-1)*2^e ≤ 2*v) (hu : 2*v ≤ (2*n+1)*2^e)
    (ht : n%2 ≠ 0 → (2*n-1)*2^e ≠ 2*v ∧ 2*v ≠ (2*n+1)*2^e) :
    nearestNat (a*Nat.pow 2 (-e).toNat) (b*Nat.pow 2 e.toNat) = n := by
  have hs := scaled_eq e hv
  have hpos : 0 < b*Nat.pow 2 e.toNat := Nat.mul_pos hb (Nat.pow_pos (by decide))
  generalize a*Nat.pow 2 (-e).toNat = x at hs ⊢
  generalize b*Nat.pow 2 e.toNat = y at hs hpos ⊢
  have hy : (0 : ℚ) < y := by exact_mod_cast hpos
  have he : (0 : ℚ) < 2^e := by positivity
  have hlow : (2*(n*y) : ℚ)*2^e = (2*n-1)*2^e*y+y*2^e := by ring
  have hhigh : ((2*(n*y)+y : ℚ))*2^e = (2*n+1)*2^e*y := by ring
  have hx : (2*x : ℚ)*2^e = 2*v*y := by rw [mul_assoc,hs]; ring
  have lower : (2*n-1)*2^e*y ≤ 2*v*y := mul_le_mul_of_nonneg_right hl hy.le
  have upper : 2*v*y ≤ (2*n+1)*2^e*y := mul_le_mul_of_nonneg_right hu hy.le
  refine nearestNat_eq ?_ ?_ (fun hn => ⟨fun h => (ht hn).1 ?_,fun h => (ht hn).2 ?_⟩) hpos
  · have : (2*(n*y) : ℚ) ≤ 2*x+y := by
      refine le_of_mul_le_mul_right ?_ he
      rw [hlow,add_mul,hx]
      linarith
    exact_mod_cast this
  · have : (2*x : ℚ) ≤ 2*(n*y)+y := by
      refine le_of_mul_le_mul_right ?_ he
      rw [hhigh,hx]
      exact upper
    exact_mod_cast this
  · have hq : (2*(n*y) : ℚ) = 2*x+y := by exact_mod_cast h
    have hm := congrArg (· * (2 : ℚ)^e) hq
    simp only [add_mul,hx] at hm
    rw [hlow] at hm
    exact mul_right_cancel₀ hy.ne' (by linarith)
  · have hq : (2*x : ℚ) = 2*(n*y)+y := by exact_mod_cast h
    have hm := congrArg (· * (2 : ℚ)^e) hq
    simp only [hx] at hm
    rw [hhigh] at hm
    exact mul_right_cancel₀ hy.ne' hm

/-- The interval of a word, in quarters of its unit. -/
structure InInterval (d : Dyadic) (v : ℚ) : Prop where
  low : (4*d.mantissa-2)*2^(d.exponent-2) ≤ v
  lowest : d.lowest = true → (4*d.mantissa-1)*2^(d.exponent-2) ≤ v
  high : v ≤ (4*d.mantissa+2)*2^(d.exponent-2)
  strict : d.mantissa%2 ≠ 0 →
    (4*d.mantissa-2)*2^(d.exponent-2) < v ∧ v < (4*d.mantissa+2)*2^(d.exponent-2)

theorem inInterval_of_between {d : Dyadic} (hpos : 0 < d.mantissa) {v : ℚ}
    (h : d.Between d.low d.high v) : InInterval d v := by
  have hs : (0 : ℚ) < 2^(d.exponent-2) := by positivity
  have hhigh : (d.high : ℚ) = 4*d.mantissa+2 := by simp [Dyadic.high]
  have h1 : 1 ≤ 4*d.mantissa := by omega
  have h2 : 2 ≤ 4*d.mantissa := by omega
  have hlowest (hl : d.lowest = true) : (d.low : ℚ) = 4*d.mantissa-1 := by
    simp [Dyadic.low,hl,Nat.cast_sub h1]
  have hlow : (4*d.mantissa-2 : ℚ) ≤ d.low := by
    unfold Dyadic.low
    cases hl : d.lowest <;> simp [Nat.cast_sub h1,Nat.cast_sub h2]
    linarith
  have hfrom := mul_le_mul_of_nonneg_right hlow hs.le
  obtain ⟨hge,hle⟩ := h.bounds
  refine ⟨hfrom.trans hge,fun hl => hlowest hl ▸ hge,hhigh ▸ hle,fun hodd => ?_⟩
  rw [Dyadic.Between,if_neg hodd] at h
  exact ⟨hfrom.trans_lt h.1,hhigh ▸ h.2⟩

theorem two_zpow_eq_quarters (e : ℤ) : (2 : ℚ)^e = 4*2^(e-2) := by
  have := two_zpow_add (e-2) 2
  norm_num at this
  exact this

theorem two_zpow_half (e : ℤ) : (2 : ℚ)^(e-1) = 2*2^(e-2) := by
  have := two_zpow_add (e-2) 1
  rw [show e-2+(1 : ℕ) = e-1 by push_cast; ring] at this
  simpa using this

section Nearest
variable {d : Dyadic} {m a b : Nat} {v : ℚ}

theorem exponentFor_le (hd : d.IsWord m) (h : InInterval d v)
    (hge : exponentFor a b = -1074 ∨ 2^52*2^exponentFor a b ≤ v) :
    exponentFor a b ≤ d.exponent := by
  have hs : (0 : ℚ) < 2^(d.exponent-2) := by positivity
  have hM : (d.mantissa : ℚ) ≤ 2^53-1 := by
    have hlt := hd.lt
    have : d.mantissa+1 ≤ 2^53 := by simp only [Dyadic.hiddenBit] at hlt; omega
    have : (d.mantissa : ℚ)+1 ≤ 2^53 := by exact_mod_cast this
    linarith
  by_contra hc
  rcases hge with he | he
  · have := hd.least
    omega
  · have h1 : (2 : ℚ)^(d.exponent+1) ≤ 2^exponentFor a b :=
      zpow_le_zpow_right₀ (by norm_num) (by omega)
    rw [zpow_add_one₀ (by norm_num),two_zpow_eq_quarters] at h1
    have h2 := mul_le_mul_of_nonneg_right hM hs.le
    linarith [h.high]

/-- Only the least mantissa of a binade has values with fewer bits, and with one bit fewer. -/
theorem lowest_of_exponentFor_lt (hd : d.IsWord m) (h : InInterval d v)
    (hleast : -1074 ≤ exponentFor a b) (hlt : v < 2^53*2^exponentFor a b)
    (hsmall : exponentFor a b < d.exponent) :
    d.mantissa = Dyadic.hiddenBit ∧ exponentFor a b = d.exponent-1 := by
  have hs : (0 : ℚ) < 2^(d.exponent-2) := by positivity
  have mono {i j : ℤ} (h : i ≤ j) : (2 : ℚ)^i ≤ 2^j := zpow_le_zpow_right₀ (by norm_num) h
  have hhalf := mono (show exponentFor a b ≤ d.exponent-1 by omega)
  rw [two_zpow_half] at hhalf
  have hn : Dyadic.hiddenBit ≤ d.mantissa := hd.normal.resolve_left (by omega)
  have hM : d.mantissa = Dyadic.hiddenBit := by
    by_contra hne
    have h1 : Dyadic.hiddenBit+1 ≤ d.mantissa := by omega
    have h2 : (2^52+1 : ℚ) ≤ d.mantissa := by
      have : ((Dyadic.hiddenBit+1 : ℕ) : ℚ) ≤ d.mantissa := by exact_mod_cast h1
      norm_num [Dyadic.hiddenBit] at this ⊢
      exact this
    have h3 := mul_le_mul_of_nonneg_right h2 hs.le
    linarith [h.low]
  refine ⟨hM,?_⟩
  have hMq : (d.mantissa : ℚ) = 2^52 := by rw [hM]; norm_num [Dyadic.hiddenBit]
  have hfrom := h.lowest (hd.lowest.mpr ⟨hM,by omega⟩)
  rw [hMq] at hfrom
  by_contra hne
  have hquarter := mono (show exponentFor a b ≤ d.exponent-2 by omega)
  linarith

/-- A value in the interval of a word is rounded to it. Below the least mantissa of a binade the
value has one bit more before the point, and is rounded up to the end of the smaller binade. -/
theorem nearest_eq (hd : d.IsWord m) (hm : m < infinity) (ha : 0 < a) (hb : 0 < b)
    (hv : (a : ℚ) = v*b) (h : d.Between d.low d.high v) : nearest a b = m := by
  obtain ⟨hleast,hlt,hge⟩ := exponentFor_spec ha hb hv
  have hin := inInterval_of_between hd.pos h
  have hunit := two_zpow_eq_quarters d.exponent
  unfold nearest
  dsimp only
  rcases Int.lt_or_eq_of_le (exponentFor_le hd hin hge) with hsmall | he
  · obtain ⟨hM,he⟩ := lowest_of_exponentFor_lt hd hin hleast hlt hsmall
    have hMq : (d.mantissa : ℚ) = 2^52 := by rw [hM]; norm_num [Dyadic.hiddenBit]
    have hfrom := hin.lowest (hd.lowest.mpr ⟨hM,by omega⟩)
    rw [hMq] at hfrom
    rw [he] at hlt ⊢
    have hs : (0 : ℚ) < 2^(d.exponent-1) := by positivity
    have hround := nearestNat_scaled hb (d.exponent-1) hv (n := 2*d.mantissa)
      (by push_cast; rw [two_zpow_half,hMq]; linarith) (by push_cast; rw [hMq]; linarith) (by omega)
    have hcarry : 2*d.mantissa+(d.exponent-1+1074).toNat*Dyadic.hiddenBit = m := by
      rw [← hd.magnitude,hM]
      have : (d.exponent+1074).toNat = (d.exponent-1+1074).toNat+1 := by omega
      rw [this,Nat.add_mul]; omega
    rw [hround,hcarry]
    exact Nat.min_eq_right (by omega)
  · have hround := nearestNat_scaled hb d.exponent hv (n := d.mantissa)
      (by rw [hunit]; linarith [hin.low]) (by rw [hunit]; linarith [hin.high]) fun hodd => by
        have := hin.strict hodd
        rw [hunit]
        exact ⟨by linarith,by linarith⟩
    rw [he,hround,hd.magnitude]
    exact Nat.min_eq_right (by omega)

end Nearest

end Binary64
end AddressedForms
