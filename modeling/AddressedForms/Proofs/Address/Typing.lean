import AddressedForms.Proofs.Address.Proper
import AddressedForms.Proofs.Lists
set_option autoImplicit false

/-!
Modules of results. Where all moduli fit a signed word, an element that arithmetic, evaluation or
composition makes lies in the module that the operation is said to lead to, and no modulus arises
that does not fit. Morphisms need not be well typed for this.
-/

namespace AddressedForms
namespace Element
variable {x y v : Element}

theorem module_residue {n : UInt64} (h : (Module.zn n).isProper) (value : Int64) :
    (residue value n).module = .zn n := by
  rw [residue_of_modulus h,module]

theorem module_of_ofInt {k : Int} (h : ofInt k = .ok v) : v.module = .z := by
  unfold ofInt at h
  split at h <;> cases h
  rfl

theorem module_of_ofFraction {q : Option Fraction} (h : ofFraction q = .ok v) :
    v.module = .q := by
  cases q <;> cases h
  rfl

theorem module_of_add (h : x.add y = .ok v) (hx : x.module.isProper) : v.module = x.module := by
  induction x using Element.rec (motive_2 := fun xs => ∀ ys vs, addAll xs ys = .ok vs →
    xs.length = ys.length → Module.allProper (modules xs) → modules vs = modules xs)
    generalizing y v with
  | nil => rename_i ys vs h hl hx; cases ys <;> cases h <;> rfl
  | cons x xs ihx ihxs =>
    rename_i ys vs h hl hx
    cases ys with
    | nil => simp at hl
    | cons y ys =>
      obtain ⟨z,hz,h⟩ := Except.bind_eq_ok_iff.mp h
      obtain ⟨zs,hzs,h⟩ := Except.bind_eq_ok_iff.mp h
      cases h
      simp only [modules,Module.allProper,Bool.and_eq_true,List.length_cons,
        Nat.add_right_cancel_iff] at hx hl ⊢
      rw [ihx hz hx.1,ihxs ys zs hzs hl hx.2]
  | product xs ih =>
    cases y <;> simp only [add,reduceCtorEq] at h
    split at h
    · rename_i ys hl
      cases hs : addAll xs ys with
      | error e => rw [hs] at h; cases h
      | ok vs =>
        rw [hs] at h
        cases h
        exact congrArg Module.product (ih ys vs hs hl hx)
    · contradiction
  | zn a n =>
    cases y <;> simp only [add,reduceCtorEq] at h
    split at h <;> cases h
    exact module_residue hx _
  | z a =>
    cases y <;> simp only [add,reduceCtorEq] at h
    exact module_of_ofInt h
  | q a =>
    cases y <;> simp only [add,reduceCtorEq] at h
    exact module_of_ofFraction h
  | r a =>
    cases y <;> simp only [add,reduceCtorEq] at h
    cases h
    rfl
  | null =>
    cases y <;> simp only [add,reduceCtorEq] at h
    cases h
    rfl

theorem module_of_mul (h : x.mul y = .ok v) (hy : y.module.isProper) : v.module = y.module := by
  unfold mul at h
  split at h
  · exact module_of_ofInt h
  · exact module_of_ofFraction h
  · cases h; rfl
  · split at h
    · rename_i hm
      split at h
      · cases h
        rw [← hm] at hy ⊢
        exact module_residue hy _
      · contradiction
    · contradiction

end Element

namespace Morphism
variable {f g m : Morphism} {x v : Element} {c d : Module}

/-- Whether all moduli that occur fit a signed word. -/
def modulesProper : Morphism → Bool
  | .constant d x => d.isProper && x.module.isProper
  | .identity m => m.isProper
  | .affine k a b => k.isProper && a.module.isProper && b.module.isProper
  | .embedding d c => d.isProper && c.isProper
  | .composition f g => f.modulesProper && g.modulesProper

theorem isProper_domain (h : m.modulesProper) : m.domain.isProper := by
  induction m <;> simp_all [modulesProper,domain]

theorem isProper_codomain (h : m.modulesProper) : m.codomain.isProper := by
  induction m <;> simp_all [modulesProper,codomain]

theorem module_of_embed (h : embed x c = .ok v) (hc : c.isProper) : v.module = c := by
  unfold embed at h
  split at h <;> cases h <;> try rfl
  · exact Element.module_residue hc _
  · exact Element.module_residue hc _

theorem requireIn_eq_ok_iff : requireIn d x = .ok () ↔ x.module = d := by
  unfold requireIn Module.contains
  split <;> simp_all

theorem module_of_apply (h : m.apply x = .ok v) (hm : m.modulesProper) :
    v.module = m.codomain := by
  induction m generalizing x v with
  | constant d w =>
    obtain ⟨-,h⟩ := Except.check_eq_ok_iff.mp h
    cases h
    rfl
  | identity n =>
    obtain ⟨hx,h⟩ := Except.check_eq_ok_iff.mp h
    cases h
    exact requireIn_eq_ok_iff.mp hx
  | affine k a b =>
    obtain ⟨hx,h⟩ := Except.check_eq_ok_iff.mp h
    obtain ⟨y,hy,hadd⟩ := Except.bind_eq_ok_iff.mp h
    obtain rfl := requireIn_eq_ok_iff.mp hx
    have hk : x.module.isProper := isProper_domain hm
    have hyx := Element.module_of_mul hy hk
    exact (Element.module_of_add hadd (hyx ▸ hk)).trans hyx
  | embedding d c =>
    obtain ⟨-,h⟩ := Except.check_eq_ok_iff.mp h
    exact module_of_embed h (isProper_codomain hm)
  | composition f g ihf ihg =>
    obtain ⟨-,h⟩ := Except.check_eq_ok_iff.mp h
    obtain ⟨y,-,h⟩ := Except.bind_eq_ok_iff.mp h
    exact ihf h (Bool.and_eq_true_iff.mp hm).1

/-- From one module to another, with moduli that fit. -/
structure Leads (m : Morphism) (d c : Module) : Prop where
  domain : m.domain = d
  codomain : m.codomain = c
  proper : m.modulesProper

theorem leads_of_compose {h : Morphism} (hc : f.compose g = .ok h) (hf : f.modulesProper)
    (hg : g.modulesProper) : h.Leads g.domain f.codomain := by
  unfold compose at hc
  split at hc
  · contradiction
  · rename_i hfg
    rw [ne_eq,not_not] at hfg
    split at hc
    · cases hc
      simp only [modulesProper,Bool.and_eq_true] at hf
      exact ⟨rfl,rfl,by simp [modulesProper,isProper_domain hg,hf.2]⟩
    · cases hc
      exact ⟨rfl,hfg,hg⟩
    · cases hc
      exact ⟨hfg.symm,rfl,hf⟩
    · obtain ⟨w,hw,hc⟩ := Except.bind_eq_ok_iff.mp hc
      cases hc
      have hwf := module_of_apply hw hf
      refine ⟨rfl,hwf,?_⟩
      simp only [modulesProper,Bool.and_eq_true] at hg ⊢
      exact ⟨hg.1,hwf ▸ isProper_codomain hf⟩
    · obtain ⟨factor,hfactor,hc⟩ := Except.bind_eq_ok_iff.mp hc
      obtain ⟨e,he,hc⟩ := Except.bind_eq_ok_iff.mp hc
      obtain ⟨shift,hshift,hc⟩ := Except.bind_eq_ok_iff.mp hc
      cases hc
      simp only [modulesProper,Bool.and_eq_true] at hf hg
      have hed := Element.module_of_mul he hg.2
      have hse := Element.module_of_add hshift (hed ▸ hg.2)
      refine ⟨hfg.symm,rfl,?_⟩
      simp only [modulesProper,Bool.and_eq_true]
      exact ⟨⟨hf.1.1,Element.module_of_mul hfactor hg.1.2 ▸ hg.1.2⟩,hse.trans hed ▸ hg.2⟩
    · cases hc
      exact ⟨rfl,rfl,by simp [modulesProper,hf,hg]⟩

inductive Canonical : Module → Module → Morphism → Prop
  | identity (d : Module) : Canonical d d (.identity d)
  | zero {d : Module} (h : d ≠ .null) : Canonical d .null (.constant d .null)
  | embedding {d c : Module} (h : d.embeds c) (hn : c ≠ .null) : Canonical d c (.embedding d c)

theorem canonical?_eq_some_iff : canonical? d c = some m ↔ Canonical d c m := by
  unfold canonical?
  constructor
  · intro h
    split at h <;> rename_i hdc
    · cases h
      exact hdc ▸ .identity d
    · split at h <;> rename_i hnull
      · cases h
        cases Module.isNull_iff.mp hnull
        exact .zero hdc
      · split at h <;> cases h
        exact .embedding ‹_› (mt Module.isNull_iff.mpr hnull)
  · rintro (_ | h | ⟨h,hn⟩)
    · exact if_pos rfl
    · rw [if_neg h]
      rfl
    · have hdc : d ≠ c := by
        rintro rfl
        cases Module.embeds_iff.mp h with
        | null => exact hn rfl
        | divisor hne => exact hne rfl
      rw [if_neg hdc,if_neg (mt Module.isNull_iff.mp hn),if_pos h]

theorem leads_of_canonical? (h : canonical? d c = some m) (hd : d.isProper) (hc : c.isProper) :
    m.Leads d c := by
  cases canonical?_eq_some_iff.mp h with
  | identity => exact ⟨rfl,rfl,hd⟩
  | zero => exact ⟨rfl,rfl,by simp [modulesProper,hd,Element.module,Module.isProper]⟩
  | embedding => exact ⟨rfl,rfl,by simp [modulesProper,hd,hc]⟩

end Morphism
end AddressedForms
