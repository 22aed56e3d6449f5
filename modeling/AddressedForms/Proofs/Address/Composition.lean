import AddressedForms.Proofs.Address.Typing
import Mathlib.Data.Int.ModEq
import Mathlib.Tactic.Ring
set_option autoImplicit false

/-!
Composition of morphisms as composition of maps. Folded or not, a composition takes an element where
the inner and then the outer morphism take it; only affine maps of the reals, which round, are left
out.
-/

namespace AddressedForms

theorem Fraction.ext_val {a b : Fraction} (h : a.val = b.val) : a = b := by
  cases a
  cases h
  rfl

namespace Element
variable {x y v : Element}

/-- What a product comes to in each ring. -/
inductive Multiplied : Element → Element → Element → Prop
  | z {a b c : Int64} (h : c.toInt = a.toInt*b.toInt) : Multiplied (.z a) (.z b) (.z c)
  | zn {a b c : Int64} {n : UInt64} (h : c.toInt = a.toInt*b.toInt%n.toNat) :
    Multiplied (.zn a n) (.zn b n) (.zn c n)
  | q {a b c : Fraction} (h : c.val = a.val*b.val) : Multiplied (.q a) (.q b) (.q c)
  | r (a b : Binary64) : Multiplied (.r a) (.r b) (.r (a.mul b))

inductive Added : Element → Element → Element → Prop
  | z {a b c : Int64} (h : c.toInt = a.toInt+b.toInt) : Added (.z a) (.z b) (.z c)
  | zn {a b c : Int64} {n : UInt64} (h : c.toInt = (a.toInt+b.toInt)%n.toNat) :
    Added (.zn a n) (.zn b n) (.zn c n)
  | q {a b c : Fraction} (h : c.val = a.val+b.val) : Added (.q a) (.q b) (.q c)
  | r (a b : Binary64) : Added (.r a) (.r b) (.r (a.add b))

theorem exists_of_ofInt {k : Int} (h : ofInt k = .ok v) : ∃ c : Int64, v = .z c ∧ c.toInt = k := by
  unfold ofInt at h
  split at h <;> cases h
  rename_i hfits
  simp only [fitsWord,Bool.and_eq_true,decide_eq_true_eq] at hfits
  exact ⟨_,rfl,Int64.toInt_ofInt_of_le hfits.1 hfits.2⟩

theorem exists_of_ofFraction {q : Option Fraction} (h : ofFraction q = .ok v) :
    ∃ c, v = .q c ∧ q = some c := by
  cases q <;> cases h
  exact ⟨_,rfl,rfl⟩

theorem toInt_remainder {n : UInt64} (h : (Module.zn n).isProper) (k : Int) :
    (Int64.ofInt (k%n.toNat)).toInt = k%n.toNat := by
  have hpos := Module.toNat_ne_zero h
  simp only [Module.isProper,Bool.and_eq_true,decide_eq_true_eq] at h
  have hmax : n.toNat ≤ 0x7fffffffffffffff := UInt64.le_iff_toNat_le.mp h.2
  have h0 : 0 ≤ k%n.toNat := Int.emod_nonneg k (by omega)
  have hlt : k%n.toNat < n.toNat := Int.emod_lt_of_pos k (by omega)
  exact Int64.toInt_ofInt_of_le (by omega) (by omega)

theorem exists_of_residue {n : UInt64} (h : (Module.zn n).isProper) (k : Int) :
    ∃ c, residue (Int64.ofInt (k%n.toNat)) n = .zn c n ∧ c.toInt = k%n.toNat := by
  have hint := toInt_remainder h k
  have h0 : 0 ≤ k%n.toNat := Int.emod_nonneg k (by simp [Module.toNat_ne_zero h])
  have hlt : k%n.toNat < n.toNat :=
    Int.emod_lt_of_pos k (by have := Module.toNat_ne_zero h; omega)
  refine ⟨_,residue_of_isProper ?_,hint⟩
  simp [isProper,h,hint,h0,hlt]

theorem multiplied_of_mul (h : x.mul y = .ok v) (hy : y.module.isProper) : Multiplied x y v := by
  unfold mul at h
  split at h
  · obtain ⟨c,rfl,hc⟩ := exists_of_ofInt h
    exact .z hc
  · obtain ⟨c,rfl,hc⟩ := exists_of_ofFraction h
    exact .q (Fraction.val_mul? hc)
  · cases h
    exact .r _ _
  · split at h
    · rename_i hm
      split at h
      · cases hm
        obtain ⟨c,hc,hval⟩ := exists_of_residue hy _
        rw [hc] at h
        cases h
        exact .zn hval
      · contradiction
    · contradiction

theorem added_of_add (h : x.add y = .ok v) (hr : x.module.isRing) (hx : x.module.isProper) :
    Added x y v := by
  cases x with
  | null | product xs => cases hr
  | z a =>
    cases y <;> simp only [add,reduceCtorEq] at h
    obtain ⟨c,rfl,hc⟩ := exists_of_ofInt h
    exact .z hc
  | zn a n =>
    cases y <;> simp only [add,reduceCtorEq] at h
    split at h <;> cases h
    rename_i hn
    subst hn
    obtain ⟨c,hc,hval⟩ := exists_of_residue hx _
    rw [hc]
    exact .zn hval
  | q a =>
    cases y <;> simp only [add,reduceCtorEq] at h
    obtain ⟨c,rfl,hc⟩ := exists_of_ofFraction h
    exact .q (Fraction.val_add? hc)
  | r a =>
    cases y <;> simp only [add,reduceCtorEq] at h
    cases h
    exact .r _ _

theorem Multiplied.isRing (h : Multiplied x y v) : v.module.isRing := by cases h <;> rfl

theorem emod_affine (a b c d x n : Int) :
    (a*c%n*x%n+(a*d%n+b)%n)%n = (a*((c*x%n+d)%n)%n+b)%n := by
  have hfolded : a*c%n*x%n+(a*d%n+b)%n ≡ a*c*x+(a*d+b) [ZMOD n] :=
    ((Int.mod_modEq _ _).trans ((Int.mod_modEq _ _).mul_right x)).add
      ((Int.mod_modEq _ _).trans ((Int.mod_modEq _ _).add_right b))
  have hnested : a*((c*x%n+d)%n)%n+b ≡ a*(c*x+d)+b [ZMOD n] :=
    ((Int.mod_modEq _ _).trans
      (((Int.mod_modEq _ _).trans ((Int.mod_modEq _ _).add_right d)).mul_left a)).add_right b
  have he : a*c*x+(a*d+b) = a*(c*x+d)+b := by ring
  exact hfolded.trans (he ▸ hnested.symm)

theorem affine_affine {a b c d f e s p u q w : Element} (hr : x.module ≠ .r)
    (hf : Multiplied a c f) (he : Multiplied a d e) (hs : Added e b s) (hp : Multiplied f x p)
    (hu : Added p s u) (hq : Multiplied c x q) (hy : Added q d y) (hw : Multiplied a y w)
    (hv : Added w b v) : u = v := by
  cases hp with
  | r => exact absurd rfl hr
  | z hp =>
    cases hf with | z hf => cases he with | z he => cases hs with | z hs => cases hu with | z hu =>
    cases hq with | z hq => cases hy with | z hy => cases hw with | z hw => cases hv with | z hv =>
    refine congrArg Element.z (Int64.toInt_inj.mp ?_)
    rw [hu,hp,hf,hs,he,hv,hw,hy,hq]
    ring
  | q hp =>
    cases hf with | q hf => cases he with | q he => cases hs with | q hs => cases hu with | q hu =>
    cases hq with | q hq => cases hy with | q hy => cases hw with | q hw => cases hv with | q hv =>
    refine congrArg Element.q (Fraction.ext_val ?_)
    rw [hu,hp,hf,hs,he,hv,hw,hy,hq]
    ring
  | @zn _ _ _ n hp =>
    cases hf with | zn hf => cases he with | zn he => cases hs with | zn hs =>
    cases hu with | zn hu => cases hq with | zn hq => cases hy with | zn hy =>
    cases hw with | zn hw => cases hv with | zn hv =>
    refine congrArg (Element.zn · n) (Int64.toInt_inj.mp ?_)
    rw [hu,hp,hf,hs,he,hv,hw,hy,hq]
    exact emod_affine _ _ _ _ _ _

end Element

namespace Morphism
variable {f g h : Morphism} {x y u v : Element}

/-- Whether an affine map of the reals occurs. -/
def scalesReals : Morphism → Bool
  | .affine k _ _ => k = .r
  | .composition f g => f.scalesReals || g.scalesReals
  | _ => false

theorem affine_of_apply {k : Module} {a b : Element} (hk : k.isProper)
    (h : (affine k a b).apply x = .ok v) : x.module = k ∧ ∃ p, Element.Multiplied a x p ∧
      Element.Added p b v := by
  obtain ⟨hx,h⟩ := Except.check_eq_ok_iff.mp h
  obtain ⟨p,hp,hadd⟩ := Except.bind_eq_ok_iff.mp h
  obtain rfl := requireIn_eq_ok_iff.mp hx
  have hmul := Element.multiplied_of_mul hp hk
  have hm := Element.module_of_mul hp hk
  exact ⟨rfl,p,hmul,Element.added_of_add hadd hmul.isRing (hm ▸ hk)⟩

/-- A composition takes an element to where the outer morphism takes the value of the inner one. -/
theorem apply_compose (hc : f.compose g = .ok h) (hf : f.modulesProper) (hg : g.modulesProper)
    (hr : ¬ f.scalesReals) (hu : h.apply x = .ok u) (hy : g.apply x = .ok y)
    (hv : f.apply y = .ok v) : u = v := by
  unfold compose at hc
  split at hc
  · contradiction
  rename_i hfg
  rw [ne_eq,not_not] at hfg
  split at hc
  · cases hc
    obtain ⟨-,hu⟩ := Except.check_eq_ok_iff.mp hu
    obtain ⟨-,hv⟩ := Except.check_eq_ok_iff.mp hv
    cases hu
    cases hv
    rfl
  · cases hc
    obtain ⟨-,hv⟩ := Except.check_eq_ok_iff.mp hv
    cases hu.symm.trans hy
    cases hv
    rfl
  · cases hc
    obtain ⟨-,hy⟩ := Except.check_eq_ok_iff.mp hy
    cases hy
    cases hu.symm.trans hv
    rfl
  · obtain ⟨w,hw,hc⟩ := Except.bind_eq_ok_iff.mp hc
    cases hc
    obtain ⟨-,hu⟩ := Except.check_eq_ok_iff.mp hu
    obtain ⟨-,hy⟩ := Except.check_eq_ok_iff.mp hy
    cases hu
    cases hy
    cases hw.symm.trans hv
    rfl
  · rename_i k a b k' c d
    obtain ⟨factor,hfactor,hc⟩ := Except.bind_eq_ok_iff.mp hc
    obtain ⟨e,he,hc⟩ := Except.bind_eq_ok_iff.mp hc
    obtain ⟨shift,hshift,hc⟩ := Except.bind_eq_ok_iff.mp hc
    cases hc
    obtain rfl : k' = k := hfg
    simp only [modulesProper,Bool.and_eq_true] at hf hg
    have hk := hf.1.1
    obtain ⟨hx,p,hp,hu⟩ := affine_of_apply hk hu
    obtain ⟨-,q,hq,hy⟩ := affine_of_apply hk hy
    obtain ⟨-,w,hw,hv⟩ := affine_of_apply hk hv
    have hmul := Element.multiplied_of_mul he hg.2
    have hm := Element.module_of_mul he hg.2
    refine Element.affine_affine ?_ (Element.multiplied_of_mul hfactor hg.1.2) hmul
      (Element.added_of_add hshift hmul.isRing (hm ▸ hg.2)) hp hu hq hy hw hv
    simpa [hx,scalesReals] using hr
  · cases hc
    obtain ⟨-,hu⟩ := Except.check_eq_ok_iff.mp hu
    obtain ⟨z,hz,hu⟩ := Except.bind_eq_ok_iff.mp hu
    cases hz.symm.trans hy
    cases hu.symm.trans hv
    rfl

section Apply
variable {d : Module}

theorem apply_identity (hx : x.module = d) : (identity d).apply x = .ok x :=
  Except.check_eq_ok_iff.mpr ⟨requireIn_eq_ok_iff.mpr hx,rfl⟩

theorem apply_constant (hx : x.module = d) (v : Element) : (constant d v).apply x = .ok v :=
  Except.check_eq_ok_iff.mpr ⟨requireIn_eq_ok_iff.mpr hx,rfl⟩

theorem apply_embedding (hx : x.module = d) (c : Module) :
    (embedding d c).apply x = embed x c := by
  rw [apply,requireIn_eq_ok_iff.mpr hx]
  rfl

end Apply

theorem exists_of_canonical? {d c : Module} {m : Morphism} (h : canonical? d c = some m)
    (hx : x.module = d) : ∃ y, m.apply x = .ok y := by
  cases canonical?_eq_some_iff.mp h with
  | identity => exact ⟨x,apply_identity hx⟩
  | zero => exact ⟨.null,apply_constant hx _⟩
  | embedding he =>
    rw [apply_embedding hx]
    subst hx
    cases x <;> cases c <;> first | exact ⟨_,rfl⟩ | cases he

end Morphism
end AddressedForms
