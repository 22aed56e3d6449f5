import AddressedForms.Denotator.Path
import AddressedForms.Proofs.Denotator.Construct
set_option autoImplicit false

/-!
Recovery of denotators node by node. Where a composite has an address and none of its factors has
one, the factors are recovered with that address; all else agrees. So addresses and coordinates
agree everywhere just if there is no such composite.
-/

namespace AddressedForms
namespace Denotator
variable {g : FormGraph} {d e f n : Denotator} {i j k : Nat} {path : List Nat}

section Places

theorem step_eq_ok_iff : d.step i k = .ok f ↔ ∃ j, d.factors[j]? = some f ∧
    (d.index? = none ∧ j = i ∨ d.index? = some i ∧ j = 0) := by
  cases d with
  | simple h m => simp [step,factors]
  | colimit h a x =>
    by_cases hi : i = a <;> simp [step,factors,index?,hi,eq_comm]
  | limit h ds | power h ds | list h ds =>
    simp only [step,factors,index?]
    cases hx : ds[i]? <;> simp [hx]

theorem step_of_step (h : d.step i j = .ok f) (k : Nat) : d.step i k = .ok f :=
  step_eq_ok_iff.mpr (step_eq_ok_iff.mp h)

theorem getFrom_eq_of_getFrom (h : getFrom j path d = .ok n) (k : Nat) :
    getFrom k path d = .ok n := by
  induction path generalizing d j k with
  | nil => exact h
  | cons i path ih =>
    obtain ⟨f,hf,h⟩ := Except.bind_eq_ok_iff.mp h
    exact Except.bind_eq_ok_iff.mpr ⟨f,step_of_step hf k,ih h (k+1)⟩

theorem get_cons_eq_ok_iff :
    d.get (i :: path) = .ok n ↔ ∃ f, d.step i 0 = .ok f ∧ f.get path = .ok n :=
  Except.bind_eq_ok_iff.trans (exists_congr fun _ => and_congr_right fun _ =>
    ⟨fun h => getFrom_eq_of_getFrom h 0,fun h => getFrom_eq_of_getFrom h 1⟩)

theorem exists_step (h : f ∈ d.factors) : ∃ i, d.step i 0 = .ok f := by
  obtain ⟨j,hj⟩ := List.mem_iff_getElem?.mp h
  cases hi : d.index? with
  | none => exact ⟨j,step_eq_ok_iff.mpr ⟨j,hj,.inl ⟨hi,rfl⟩⟩⟩
  | some a =>
    refine ⟨a,step_eq_ok_iff.mpr ⟨0,?_,.inr ⟨hi,rfl⟩⟩⟩
    cases d with
    | colimit hd a x =>
      obtain rfl : f = x := List.mem_singleton.mp h
      rfl
    | simple | limit | power | list => cases hi

theorem mem_factors_of_step (h : d.step i k = .ok f) : f ∈ d.factors := by
  obtain ⟨j,hj,-⟩ := step_eq_ok_iff.mp h
  exact List.mem_of_getElem? hj

theorem exists_step_of_forall₂ {R : Denotator → Denotator → Prop} (hi : e.index? = d.index?)
    (hf : List.Forall₂ R e.factors d.factors) (h : d.step i k = .ok f) :
    ∃ f', e.step i k = .ok f' ∧ R f' f := by
  obtain ⟨j,hj,hplace⟩ := step_eq_ok_iff.mp h
  obtain ⟨f',hf',hr⟩ := getElem?_of_forall₂ hf hj
  exact ⟨f',step_eq_ok_iff.mpr ⟨j,hf',hi ▸ hplace⟩,hr⟩

end Places

/-- At every place of a denotator there is one with the same address and coordinate. -/
def AgreesWith (e d : Denotator) : Prop :=
  ∀ path n, d.get path = .ok n →
    ∃ n', e.get path = .ok n' ∧ n'.address = n.address ∧ n'.morphism? = n.morphism?

theorem agreesWith_iff : e.AgreesWith d ↔ (e.address = d.address ∧ e.morphism? = d.morphism?) ∧
    ∀ i f, d.step i 0 = .ok f → ∃ f', e.step i 0 = .ok f' ∧ f'.AgreesWith f := by
  constructor
  · intro h
    refine ⟨?_,fun i f hf => ?_⟩
    · obtain ⟨n,hn,hagree⟩ := h [] d rfl
      cases hn
      exact hagree
    · obtain ⟨n,hn,-⟩ := h [i] f (get_cons_eq_ok_iff.mpr ⟨f,hf,rfl⟩)
      obtain ⟨f',hf',-⟩ := get_cons_eq_ok_iff.mp hn
      refine ⟨f',hf',fun path n hn => ?_⟩
      obtain ⟨n',hn',hagree⟩ := h (i :: path) n (get_cons_eq_ok_iff.mpr ⟨f,hf,hn⟩)
      obtain ⟨x,hx,hxn⟩ := get_cons_eq_ok_iff.mp hn'
      rw [hf'] at hx
      cases hx
      exact ⟨n',hxn,hagree⟩
  · rintro ⟨hroot,hfactors⟩ path n hn
    cases path with
    | nil =>
      cases hn
      exact ⟨e,rfl,hroot⟩
    | cons i path =>
      obtain ⟨f,hf,hn⟩ := get_cons_eq_ok_iff.mp hn
      obtain ⟨f',hf',hagree⟩ := hfactors i f hf
      obtain ⟨n',hn',hsame⟩ := hagree path n hn
      exact ⟨n',get_cons_eq_ok_iff.mpr ⟨f',hf',hn'⟩,hsame⟩

/-- The address of a composite, if it has one, is that of one of its factors. -/
def SharesAddress (d : Denotator) : Prop :=
  d.factors ≠ [] → d.address ≠ .null → ∃ f ∈ d.factors, f.address = d.address

theorem sharesAddress_congr (ha : e.address = d.address)
    (hf : e.factors.map address = d.factors.map address) : e.SharesAddress ↔ d.SharesAddress := by
  have hlist (x : Denotator) : x.SharesAddress ↔ x.factors.map address ≠ [] →
      x.address ≠ .null → x.address ∈ x.factors.map address := by
    simp [SharesAddress]
  rw [hlist,hlist,ha,hf]

def IsAnchored (d : Denotator) : Prop := ∀ n ∈ d.nodes, n.SharesAddress

/-- What is recovered for a denotator: the same nodes, but below a composite that alone has an
address only factors that have the address as well. -/
inductive Recovers (g : FormGraph) : Denotator → Denotator → Prop
  | kept {e d : Denotator} (hn : SameNode g e d) (hk : d.kind ≠ .power) (hs : d.SharesAddress)
    (hf : List.Forall₂ (Recovers g) e.factors d.factors) : Recovers g e d
  | moved {e d : Denotator} (hn : SameNode g e d) (hk : d.kind ≠ .power) (hs : ¬ d.SharesAddress)
    (hnull : ∀ f ∈ d.factors, f.address = .null)
    (hf : List.Forall₂ (fun f _ => f.address = d.address) e.factors d.factors) : Recovers g e d

theorem Recovers.sameNode (h : Recovers g e d) : SameNode g e d := by
  cases h <;> assumption

theorem Recovers.trans_alike (h : Recovers g e d) (halike : Alike g d f) : Recovers g e f := by
  induction d using factor_induction generalizing e f with
  | h d ih =>
    have hk : d.kind ≠ .power := by cases h <;> assumption
    have hn := h.sameNode.trans halike.sameNode
    have hkf : f.kind ≠ .power := halike.sameNode.kind ▸ hk
    have hparts := halike.factors_of_ne hk
    have hshares : d.SharesAddress ↔ f.SharesAddress := sharesAddress_congr
      halike.sameNode.address (map_eq_of_forall₂ hparts fun _ _ h => h.sameNode.address)
    cases h with
    | kept _ _ hs hf =>
      have hmem := forall₂_of_mem (S := fun x y => Recovers g x y ∧ y ∈ d.factors) hf
        fun _ _ _ hy h => ⟨h,hy⟩
      exact .kept hn hkf (hshares.mp hs)
        ((forall₂_comp hmem hparts).imp fun x z ⟨y,⟨hxy,hy⟩,hyz⟩ => ih y hy hxy hyz)
    | moved _ _ hs hnull hf =>
      refine .moved hn hkf (mt hshares.mpr hs) (fun z hz => ?_)
        ((forall₂_comp hf hparts).imp fun x z ⟨y,hy,_⟩ => hy.trans halike.sameNode.address)
      obtain ⟨y,hy,hyz⟩ := exists_of_forall₂_right hparts hz
      exact hyz.sameNode.address.symm.trans (hnull y hy)

/-- What is recovered agrees everywhere just if every address of a composite is shared. -/
theorem Recovers.agreesWith_iff (h : Recovers g e d) : e.AgreesWith d ↔ d.IsAnchored := by
  induction d using factor_induction generalizing e with
  | h d ih =>
    have hnode := h.sameNode
    rw [Denotator.agreesWith_iff]
    constructor
    · rintro ⟨-,hfactors⟩ n hn
      have hroot : d.SharesAddress := by
        intro hne ha
        cases h with
        | kept _ _ hs _ => exact hs hne ha
        | moved _ _ _ hnull hf =>
          obtain ⟨f,hmem⟩ := List.exists_mem_of_ne_nil _ hne
          obtain ⟨i,hi⟩ := exists_step hmem
          obtain ⟨x,hx,hagree⟩ := hfactors i f hi
          obtain ⟨y,hy,hya⟩ := exists_step_of_forall₂ hnode.index hf hi
          rw [hx] at hy
          cases hy
          have hxf := (Denotator.agreesWith_iff.mp hagree).1.1
          rw [hnull f hmem,hya] at hxf
          exact absurd hxf ha
      rw [nodes_eq,List.mem_cons,mem_allNodes] at hn
      obtain rfl | ⟨f,hf,hnf⟩ := hn
      · exact hroot
      · obtain ⟨i,hi⟩ := exists_step hf
        obtain ⟨x,hx,hagree⟩ := hfactors i f hi
        cases h with
        | moved _ _ hs => exact absurd hroot hs
        | kept _ _ _ hparts =>
          obtain ⟨y,hy,hyf⟩ := exists_step_of_forall₂ hnode.index hparts hi
          rw [hx] at hy
          cases hy
          exact (ih f hf hyf).mp hagree n hnf
    · intro ha
      refine ⟨⟨hnode.address,hnode.morphism⟩,fun i f hi => ?_⟩
      cases h with
      | moved _ _ hs => exact absurd (ha d (self_mem_nodes d)) hs
      | kept _ _ _ hparts =>
        obtain ⟨x,hx,hxf⟩ := exists_step_of_forall₂ hnode.index hparts hi
        have hmem := mem_factors_of_step hi
        refine ⟨x,hx,(ih f hmem hxf).mpr fun n hn => ha n ?_⟩
        exact nodes_trans hn (mem_nodes_of_mem_factors hmem)

end Denotator
end AddressedForms
