import AddressedForms.Proofs.Address.Composition
import AddressedForms.Proofs.Denotator.WellFormed
set_option autoImplicit false

/-!
Constancy. Whether a morphism or a denotator is constant is read off its shape; where it is, all
values that it has at all are the same, reals apart, of which a multiple by zero may be no number.
-/

namespace AddressedForms

namespace Module

theorem eq_null_of_isNull {x : Element} {d : Module} (hx : x.module = d) (hd : d.isNull) :
    x = .null := by
  rw [isNull_iff.mp hd] at hx
  cases x <;> cases hx
  rfl

end Module

namespace Element
variable {a p q x y : Element}

theorem Multiplied.eq_of_isZero (ha : a.isZero) (hr : x.module ≠ .r) (hxy : x.module = y.module)
    (hp : Multiplied a x p) (hq : Multiplied a y q) : p = q := by
  cases hp with
  | r => exact absurd rfl hr
  | z hp =>
    cases hq with
    | z hq =>
      obtain rfl := of_decide_eq_true ha
      refine congrArg Element.z (Int64.toInt_inj.mp ?_)
      simp [hp,hq]
  | zn hp =>
    cases hq with
    | zn hq =>
      obtain rfl := of_decide_eq_true ha
      refine congrArg (Element.zn · _) (Int64.toInt_inj.mp ?_)
      simp [hp,hq]
  | q hp =>
    cases hq with
    | q hq =>
      have hzero := Rat.num_eq_zero.mp (of_decide_eq_true ha)
      refine congrArg Element.q (Fraction.ext_val ?_)
      simp [hp,hq,hzero]

end Element

namespace Morphism
variable {f g m : Morphism} {x y u v : Element}

def HasOneValue (m : Morphism) : Prop :=
  ∀ x y u v, m.apply x = .ok u → m.apply y = .ok v → u = v

theorem domain_of_apply (h : m.apply x = .ok v) : x.module = m.domain := by
  cases m <;> exact requireIn_eq_ok_iff.mp (Except.check_eq_ok_iff.mp h).1

theorem hasOneValue_of_null (h : m.domain.isNull) : m.HasOneValue := by
  intro x y u v hu hv
  rw [Module.eq_null_of_isNull (domain_of_apply hu) h] at hu
  rw [Module.eq_null_of_isNull (domain_of_apply hv) h] at hv
  exact Except.ok.inj (hu.symm.trans hv)

theorem HasOneValue.composition (h : f.HasOneValue ∨ g.HasOneValue) :
    (composition f g).HasOneValue := by
  intro x y u v hu hv
  obtain ⟨-,hu⟩ := Except.check_eq_ok_iff.mp hu
  obtain ⟨-,hv⟩ := Except.check_eq_ok_iff.mp hv
  obtain ⟨x',hx,hu⟩ := Except.bind_eq_ok_iff.mp hu
  obtain ⟨y',hy,hv⟩ := Except.bind_eq_ok_iff.mp hv
  rcases h with h | h
  · exact h x' y' u v hu hv
  · cases h x y x' y' hx hy
    exact Except.ok.inj (hu.symm.trans hv)

theorem hasOneValue_affine {k : Module} {a b : Element} (hk : k.isProper) (hr : k ≠ .r)
    (ha : a.isZero) : (affine k a b).HasOneValue := by
  intro x y u v hu hv
  obtain ⟨hx,hu⟩ := Except.check_eq_ok_iff.mp hu
  obtain ⟨hy,hv⟩ := Except.check_eq_ok_iff.mp hv
  obtain ⟨p,hp,hu⟩ := Except.bind_eq_ok_iff.mp hu
  obtain ⟨q,hq,hv⟩ := Except.bind_eq_ok_iff.mp hv
  have hx := requireIn_eq_ok_iff.mp hx
  have hy := requireIn_eq_ok_iff.mp hy
  have hpq : p = q := Element.Multiplied.eq_of_isZero ha (hx ▸ hr) (hx.trans hy.symm)
    (Element.multiplied_of_mul hp (hx ▸ hk)) (Element.multiplied_of_mul hq (hy ▸ hk))
  cases hpq
  exact Except.ok.inj (hu.symm.trans hv)

theorem hasOneValue_of_isConstant (hm : m.modulesProper) (hr : ¬ m.scalesReals)
    (hc : m.isConstant) : m.HasOneValue := by
  induction m with
  | constant d w =>
    intro x y u v hu hv
    obtain ⟨-,hu⟩ := Except.check_eq_ok_iff.mp hu
    obtain ⟨-,hv⟩ := Except.check_eq_ok_iff.mp hv
    exact Except.ok.inj (hu.symm.trans hv)
  | identity d => exact hasOneValue_of_null hc
  | affine k a b =>
    rcases Bool.or_eq_true_iff.mp hc with hc | hc
    · exact hasOneValue_of_null hc
    · exact hasOneValue_affine (isProper_domain hm) (by simpa [scalesReals] using hr) hc
  | embedding d c =>
    rcases Bool.or_eq_true_iff.mp hc with hc | hc
    · exact hasOneValue_of_null hc
    · intro x y u v hu hv
      obtain ⟨-,hu⟩ := Except.check_eq_ok_iff.mp hu
      obtain ⟨-,hv⟩ := Except.check_eq_ok_iff.mp hv
      rw [Module.isNull_iff.mp hc,embed] at hu hv
      exact Except.ok.inj (hu.symm.trans hv)
  | composition f g ihf ihg =>
    obtain ⟨hmf,hmg⟩ := Bool.and_eq_true_iff.mp hm
    obtain ⟨hrf,hrg⟩ : ¬ f.scalesReals ∧ ¬ g.scalesReals := by simpa [scalesReals] using hr
    rcases Bool.or_eq_true_iff.mp hc with hc | hc
    · rcases Bool.or_eq_true_iff.mp hc with hc | hc
      · exact hasOneValue_of_null hc
      · exact .composition (.inl (ihf hmf hrf hc))
    · exact .composition (.inr (ihg hmg hrg hc))

theorem exists_of_constantValue? (h : m.constantValue? = some v) :
    (∃ d, m = .constant d v) ∨ ∃ x, m.apply x = .ok v := by
  unfold constantValue? at h
  split at h
  · cases h
    exact .inl ⟨_,rfl⟩
  · split at h
    · refine .inr ⟨m.domain.zero,?_⟩
      cases hz : m.apply m.domain.zero with
      | error e => rw [hz] at h; cases h
      | ok w => rw [hz] at h; cases h; rfl
    · contradiction

theorem HasOneValue.eq_constantValue? (h : m.HasOneValue) (hv : m.constantValue? = some v)
    (hu : m.apply x = .ok u) : u = v := by
  rcases exists_of_constantValue? hv with ⟨d,rfl⟩ | ⟨y,hy⟩
  · obtain ⟨-,hu⟩ := Except.check_eq_ok_iff.mp hu
    exact (Except.ok.inj hu).symm
  · exact h x y u v hu hy

end Morphism

namespace Denotator
variable {d u v : Denotator} {x y : Element}

theorem isConstant_iff_forall_factors : d.isConstant ↔
    (∀ f, d.morphism? = some f → f.isConstant) ∧ ∀ e ∈ d.factors, e.isConstant := by
  have hall (ds : List Denotator) : allConstant ds ↔ ∀ e ∈ ds, e.isConstant := by
    induction ds with
    | nil => simp [allConstant]
    | cons d ds ih => rw [allConstant,Bool.and_eq_true,List.forall_mem_cons,ih]
  cases d <;> simp [isConstant,morphism?,factors,hall]

theorem isConstant_of_mem_nodes (h : d.isConstant) {n : Denotator} (hn : n ∈ d.nodes)
    {f : Morphism} (hf : n.morphism? = some f) : f.isConstant := by
  induction d using factor_induction with
  | h d ih =>
    obtain ⟨hd,hfactors⟩ := isConstant_iff_forall_factors.mp h
    rw [nodes_eq,List.mem_cons,mem_allNodes] at hn
    rcases hn with rfl | ⟨e,he,hn⟩
    · exact hd f hf
    · exact ih e he (hfactors e he) hn

theorem Reworked.eq_of_factors {Q R : Denotator → Denotator → Prop} {a : Module}
    (hu : Reworked Q a d u) (hv : Reworked R a d v)
    (h : ∀ f ∈ d.factors, ∀ u' v', Q f u' → R f v' → u' = v') : u = v := by
  have hkind : u.kind = v.kind := hu.kind.trans hv.kind.symm
  refine ext_head (hu.head.trans hv.head.symm) hkind (hu.index.trans hv.index.symm)
    (morphism?_eq_of_kind hkind hv.no_morphism) ?_
  obtain ⟨us,hus,hufactors⟩ := hu.factors
  obtain ⟨vs,hvs,hvfactors⟩ := hv.factors
  have hmem := forall₂_of_mem hus fun f hf u' _ hq => And.intro hf hq
  have heq : us = vs := by
    rw [← List.forall₂_eq_eq_eq]
    refine (forall₂_comp hmem.flip hvs).imp ?_
    rintro u' v' ⟨f,⟨hf,hq⟩,hr⟩
    exact h f hf u' v' hq hr
  rw [hufactors,hvfactors,heq]

/-- A denotator varies with nothing but its coordinates. -/
theorem evaluate_eq_evaluate (h : ∀ n ∈ d.nodes, ∀ f, n.morphism? = some f → f.HasOneValue)
    (hu : d.evaluate x = .ok u) (hv : d.evaluate y = .ok v) : u = v := by
  induction d using factor_induction generalizing u v with
  | h d ih =>
    by_cases ha : d.address = .null
    · rw [evaluate_of_null ha] at hu hv
      exact Except.ok.inj (hu.symm.trans hv)
    · by_cases hc : d.morphism? = none
      · refine (reworked_of_evaluate hu hc ha).eq_of_factors (reworked_of_evaluate hv hc ha) ?_
        intro f hf u' v' hu' hv'
        exact ih f hf (fun n hn => h n (nodes_trans hn (mem_nodes_of_mem_factors hf))) hu' hv'
      · cases d with
        | limit | colimit | power | list => exact absurd rfl hc
        | simple k m =>
          obtain ⟨w,hw,rfl⟩ := exists_of_evaluate_simple ha hu
          obtain ⟨z,hz,rfl⟩ := exists_of_evaluate_simple ha hv
          rw [h _ (self_mem_nodes _) m rfl x y w z hw hz]

/-- Where the moduli fit and no affine map of the reals occurs, all values of a morphism that counts
as constant are the same, and are the one that is given out for it; and so are all values of a
denotator that counts as constant. -/
theorem isConstant_sound :
    (∀ m : Morphism, m.modulesProper → ¬ m.scalesReals → m.isConstant →
      (∀ x y u v, m.apply x = .ok u → m.apply y = .ok v → u = v) ∧
      ∀ v, m.constantValue? = some v → ∀ x u, m.apply x = .ok u → u = v) ∧
    ∀ d : Denotator, (∀ n ∈ d.nodes, ∀ f, n.morphism? = some f → f.modulesProper) →
      (∀ n ∈ d.nodes, ∀ f, n.morphism? = some f → ¬ f.scalesReals) → d.isConstant →
      ∀ x y u v, d.valueAt x = .ok u → d.valueAt y = .ok v → u = v := by
  constructor
  · intro m hm hr hc
    have hone := Morphism.hasOneValue_of_isConstant hm hr hc
    exact ⟨hone,fun v hv x u hu => hone.eq_constantValue? hv hu⟩
  · intro d hp hr hc x y u v hu hv
    refine evaluate_eq_evaluate (fun n hn f hf => ?_) (evaluate_of_valueAt hu)
      (evaluate_of_valueAt hv)
    exact Morphism.hasOneValue_of_isConstant (hp n hn f hf) (hr n hn f hf)
      (isConstant_of_mem_nodes hc hn hf)

def dronePitch : Morphism := .composition (.embedding .z (.zn 12)) (.affine .z (.z 0) (.z 67))

/-- A pitch class that has no address, and two over the integers that do not vary either. -/
def drone : Denotator :=
  .power ⟨⟨1⟩,none,.z⟩
    [.simple ⟨⟨0⟩,none,.null⟩ (.constant .null (.zn 0 12)),
      .simple ⟨⟨0⟩,none,.z⟩ (.constant .z (.zn 7 12)),.simple ⟨⟨0⟩,none,.z⟩ dronePitch]

theorem isConstant_drone : dronePitch.isConstant ∧ dronePitch.constantValue? = some (.zn 7 12) ∧
    (∀ x u, dronePitch.apply x = .ok u → u = .zn 7 12) ∧ drone.isConstant ∧
    ∃ e, drone.valueAt (.z 1) = .ok e ∧ drone.valueAt (.z (-5)) = .ok e := by
  obtain ⟨hmorphism,hdenotator⟩ := isConstant_sound
  have hvalue : dronePitch.constantValue? = some (.zn 7 12) := by decide
  have hnodes : ∀ n ∈ drone.nodes, ∀ f, n.morphism? = some f →
      f.modulesProper ∧ ¬ f.scalesReals := by
    intro n hn
    simp only [drone,nodes,allNodes,List.cons_append,List.nil_append,List.mem_cons,
      List.not_mem_nil,or_false] at hn
    rcases hn with rfl | rfl | rfl | rfl <;> rintro _ ⟨⟩ <;> decide
  have hone := hdenotator drone (fun n hn f hf => (hnodes n hn f hf).1)
    (fun n hn f hf => (hnodes n hn f hf).2) (by decide) (.z 1) (.z (-5))
  have hu : (drone.valueAt (.z 1)).toOption.isSome := by decide
  have hv : (drone.valueAt (.z (-5))).toOption.isSome := by decide
  refine ⟨by decide,hvalue,(hmorphism dronePitch (by decide) (by decide) (by decide)).2 _ hvalue,
    by decide,?_⟩
  cases hu' : drone.valueAt (.z 1) with
  | error err => rw [hu'] at hu; cases hu
  | ok u =>
    cases hv' : drone.valueAt (.z (-5)) with
    | error err => rw [hv'] at hv; cases hv
    | ok v => exact ⟨u,rfl,congrArg Except.ok (hone u v hu' hv').symm⟩

end Denotator
end AddressedForms
