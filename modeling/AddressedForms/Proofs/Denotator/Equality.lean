import AddressedForms.Denotator.Equality
import AddressedForms.Proofs.Denotator.Nodes
import AddressedForms.Proofs.Denotator.Order
import Mathlib.Data.List.Perm.Basic
set_option autoImplicit false

/-!
Equality of denotators is an equivalence: two are equal when their heads are, up to equality of
forms, and their factors, in the order they come in or, for sets, in some order. The comparison of
sets takes the first equal factor each time, and no other choice would do better.
-/

namespace AddressedForms
namespace Denotator
variable {g : FormGraph} {x y z : Denotator}

@[mk_iff]
structure SameNode (g : FormGraph) (x y : Denotator) : Prop where
  form : g.Similar x.form y.form
  name : x.name = y.name
  address : x.address = y.address
  kind : x.kind = y.kind
  index : x.index? = y.index?
  morphism : x.morphism? = y.morphism?

theorem SameNode.refl (g : FormGraph) (x : Denotator) : SameNode g x x :=
  ⟨.refl _ _,rfl,rfl,rfl,rfl,rfl⟩

theorem SameNode.symm (h : SameNode g x y) : SameNode g y x :=
  ⟨h.form.symm,h.name.symm,h.address.symm,h.kind.symm,h.index.symm,h.morphism.symm⟩

theorem SameNode.trans (h : SameNode g x y) (k : SameNode g y z) : SameNode g x z :=
  ⟨h.form.trans k.form,h.name.trans k.name,h.address.trans k.address,h.kind.trans k.kind,
    h.index.trans k.index,h.morphism.trans k.morphism⟩

/-- Equality of denotators; the factors of a set may be put in another order. -/
inductive Alike (g : FormGraph) : Denotator → Denotator → Prop
  | ordered {x y : Denotator} (hn : SameNode g x y) (hk : x.kind ≠ .power)
    (hf : List.Forall₂ (Alike g) x.factors y.factors) : Alike g x y
  | set {x y : Denotator} {zs : List Denotator} (hn : SameNode g x y) (hk : x.kind = .power)
    (hf : List.Forall₂ (Alike g) x.factors zs) (hp : zs.Perm y.factors) : Alike g x y

theorem Alike.sameNode (h : Alike g x y) : SameNode g x y := by
  cases h <;> assumption

theorem Alike.factors_of_ne (h : Alike g x y) (hk : x.kind ≠ .power) :
    List.Forall₂ (Alike g) x.factors y.factors := by
  cases h with
  | ordered hn _ hf => exact hf
  | set hn hk' hf hp => contradiction

theorem Alike.factors_of_power (h : Alike g x y) (hk : x.kind = .power) :
    ∃ zs, List.Forall₂ (Alike g) x.factors zs ∧ zs.Perm y.factors := by
  cases h with
  | ordered hn hk' hf => contradiction
  | @set _ _ zs hn _ hf hp => exact ⟨zs,hf,hp⟩

theorem Alike.exists_factor (h : Alike g x y) {f : Denotator} (hf : f ∈ y.factors) :
    ∃ e ∈ x.factors, Alike g e f := by
  cases h with
  | ordered _ _ hfs => exact exists_of_forall₂_right hfs hf
  | set _ _ hfs hp => exact exists_of_forall₂_right hfs (hp.mem_iff.mpr hf)

theorem Alike.refl (g : FormGraph) (x : Denotator) : Alike g x x := by
  induction x using factor_induction with
  | h x ih =>
    have hf : List.Forall₂ (Alike g) x.factors x.factors := List.forall₂_same.mpr ih
    by_cases hk : x.kind = .power
    · exact .set (.refl g x) hk hf (.refl _)
    · exact .ordered (.refl g x) hk hf

theorem Alike.symm (h : Alike g x y) : Alike g y x := by
  induction x using factor_induction generalizing y with
  | h x ih =>
    have hn := h.sameNode
    by_cases hk : x.kind = .power
    · obtain ⟨zs,hf,hp⟩ := h.factors_of_power hk
      have hback : List.Forall₂ (Alike g) zs x.factors :=
        (forall₂_of_mem hf fun a ha b _ hab => ih a ha hab).flip
      obtain ⟨ws,hw,hwp⟩ := List.perm_comp_forall₂ hp.symm hback
      exact .set hn.symm (hn.kind ▸ hk) hw hwp
    · have hf := h.factors_of_ne hk
      exact .ordered hn.symm (hn.kind ▸ hk) (forall₂_of_mem hf fun a ha b _ hab => ih a ha hab).flip

theorem Alike.trans (h : Alike g x y) (k : Alike g y z) : Alike g x z := by
  induction x using factor_induction generalizing y z with
  | h x ih =>
    have hn := h.sameNode
    have hcomp {xs ys zs : List Denotator} (hxs : xs ⊆ x.factors)
        (h : List.Forall₂ (Alike g) xs ys) (k : List.Forall₂ (Alike g) ys zs) :
        List.Forall₂ (Alike g) xs zs :=
      forall₂_of_mem (forall₂_comp h k) fun a ha _ _ ⟨b,hab,hbc⟩ => ih a (hxs ha) hab hbc
    by_cases hk : x.kind = .power
    · obtain ⟨zs,hf,hp⟩ := h.factors_of_power hk
      obtain ⟨ws,hw,hwp⟩ := k.factors_of_power (hn.kind ▸ hk)
      obtain ⟨vs,hv,hvp⟩ := List.perm_comp_forall₂ hp hw
      exact .set (hn.trans k.sameNode) hk (hcomp (List.Subset.refl _) hf hv) (hvp.trans hwp)
    · exact .ordered (hn.trans k.sameNode) hk
        (hcomp (List.Subset.refl _) (h.factors_of_ne hk) (k.factors_of_ne (hn.kind ▸ hk)))

theorem Alike.extend {ext : FormGraph} (he : g.Keeps ext) (h : Alike g x y) :
    Alike ext x y := by
  induction x using factor_induction generalizing y with
  | h x ih =>
    obtain ⟨hform,hn,ha,hkind,hi,hm⟩ := h.sameNode
    have hnode : SameNode ext x y := ⟨hform.extend he,hn,ha,hkind,hi,hm⟩
    by_cases hk : x.kind = .power
    · obtain ⟨zs,hf,hp⟩ := h.factors_of_power hk
      exact .set hnode hk (forall₂_of_mem hf fun a ha b _ hab => ih a ha hab) hp
    · exact .ordered hnode hk
        (forall₂_of_mem (h.factors_of_ne hk) fun a ha b _ hab => ih a ha hab)

section Matched

theorem perm_of_takeOut? {p : Denotator → Bool} {ys rest : List Denotator}
    (h : takeOut? p ys = some rest) : ∃ y, p y ∧ ys.Perm (y :: rest) := by
  induction ys generalizing rest with
  | nil => simp [takeOut?] at h
  | cons y ys ih =>
    rw [takeOut?] at h
    split at h
    · cases h
      exact ⟨y,‹_›,.refl _⟩
    · obtain ⟨more,hmore,rfl⟩ := Option.map_eq_some_iff.mp h
      obtain ⟨z,hz,hp⟩ := ih hmore
      exact ⟨z,hz,(hp.cons y).trans (.swap z y more)⟩

theorem exists_takeOut? {p : Denotator → Bool} {ys : List Denotator} {y : Denotator} (hy : y ∈ ys)
    (hp : p y) : ∃ rest, takeOut? p ys = some rest := by
  induction ys with
  | nil => simp at hy
  | cons z zs ih =>
    rw [takeOut?]
    split
    · exact ⟨zs,rfl⟩
    · have hne : y ≠ z := by
        rintro rfl
        contradiction
      obtain ⟨rest,hr⟩ := ih ((List.mem_cons.mp hy).resolve_left hne)
      exact ⟨z :: rest,by simp [hr]⟩

/-- When one partner is taken out, the partner of what was taken can have the one that is left. -/
theorem exchange {x y : Denotator} {xs zs rest : List Denotator} (hxy : Alike g x y)
    (hf : List.Forall₂ (Alike g) (x :: xs) zs) (hp : zs.Perm (y :: rest)) :
    ∃ ws, List.Forall₂ (Alike g) xs ws ∧ ws.Perm rest := by
  cases hf with
  | @cons _ z _ zs hxz hf =>
    by_cases hzy : z = y
    · subst hzy
      exact ⟨zs,hf,hp.cons_inv⟩
    · have hy : y ∈ zs := by
        have := hp.symm.subset (List.mem_cons_self)
        exact (List.mem_cons.mp this).resolve_left (Ne.symm hzy)
      obtain ⟨l,r,rfl⟩ := List.append_of_mem hy
      have hyz : Alike g y z := hxy.symm.trans hxz
      have hself (us : List Denotator) : List.Forall₂ (Alike g) us us :=
        List.forall₂_same.mpr fun a _ => .refl g a
      have hswap : List.Forall₂ (Alike g) (l ++ y :: r) (l ++ z :: r) :=
        List.rel_append (hself l) (.cons hyz (hself r))
      refine ⟨l ++ z :: r,(forall₂_comp hf hswap).imp fun a b ⟨c,hac,hcb⟩ => hac.trans hcb,?_⟩
      have hmiddle : (y :: (z :: (l ++ r))).Perm (y :: rest) :=
        ((List.Perm.swap z y (l ++ r)).trans (List.perm_middle.symm.cons z)).trans hp
      exact List.perm_middle.trans hmiddle.cons_inv

theorem exists_of_matched {xs ys : List Denotator} (h : matched g xs ys) : ∃ zs rest,
    List.Forall₂ (fun x y => x.equals g y) xs zs ∧ (zs ++ rest).Perm ys := by
  induction xs generalizing ys with
  | nil => exact ⟨[],ys,.nil,.refl _⟩
  | cons x xs ih =>
    rw [matched] at h
    split at h
    · rename_i more hmore
      obtain ⟨y,hxy,hp⟩ := perm_of_takeOut? hmore
      obtain ⟨zs,rest,hf,hrest⟩ := ih h
      exact ⟨y :: zs,rest,.cons hxy hf,(hrest.cons y).trans hp.symm⟩
    · contradiction

theorem matched_of_perm {xs ys zs : List Denotator}
    (he : ∀ x ∈ xs, ∀ y, x.equals g y ↔ Alike g x y) (hf : List.Forall₂ (Alike g) xs zs)
    (hp : zs.Perm ys) : matched g xs ys := by
  induction xs generalizing ys zs with
  | nil => rfl
  | cons x xs ih =>
    obtain ⟨z,hz,hxz⟩ := exists_of_forall₂_left hf (List.mem_cons_self)
    obtain ⟨rest,hrest⟩ := @exists_takeOut? (fun y => x.equals g y) ys z (hp.subset hz)
      ((he x (by simp) z).mpr hxz)
    obtain ⟨y,hxy,hy⟩ := perm_of_takeOut? hrest
    obtain ⟨ws,hws,hwp⟩ := exchange ((he x (by simp) y).mp hxy) hf (hp.trans hy)
    rw [matched,hrest]
    exact ih (fun a ha => he a (List.mem_cons_of_mem _ ha)) hws hwp

end Matched

theorem equalLists_iff {xs ys : List Denotator} : equalLists g xs ys ↔
    List.Forall₂ (fun x y => x.equals g y) xs ys := by
  induction xs generalizing ys with
  | nil => cases ys <;> simp [equalLists]
  | cons x xs ih => cases ys <;> simp [equalLists,ih]

theorem sameHead_iff (hu : g.NamesUnique) (h k : Head) : sameHead g h k ↔
    h.name = k.name ∧ h.address = k.address ∧ g.Similar h.form k.form := by
  simp only [sameHead,Bool.and_eq_true,decide_eq_true_eq,FormGraph.equalForms_iff_similar hu,
    and_assoc]

theorem equals_iff (hu : g.NamesUnique) (x y : Denotator) : x.equals g y ↔
    SameNode g x y ∧ if x.kind = .power then
      x.factors.length = y.factors.length ∧ matched g x.factors y.factors
    else List.Forall₂ (fun x y => x.equals g y) x.factors y.factors := by
  cases x <;> cases y <;>
    simp [equals,sameNode_iff,sameHead_iff hu,equalLists_iff,kind,index?,morphism?,factors,form,
      name,address,head] <;> tauto

/-- Equality is decided by the comparison of denotators. -/
theorem equals_iff_alike (hu : g.NamesUnique) (x y : Denotator) : x.equals g y ↔ Alike g x y := by
  induction x using factor_induction generalizing y with
  | h x ih =>
    have hforall (ys : List Denotator) : List.Forall₂ (fun x y => x.equals g y) x.factors ys ↔
        List.Forall₂ (Alike g) x.factors ys :=
      ⟨fun h => forall₂_of_mem h fun a ha b _ hab => (ih a ha b).mp hab,
        fun h => forall₂_of_mem h fun a ha b _ hab => (ih a ha b).mpr hab⟩
    rw [equals_iff hu]
    by_cases hk : x.kind = .power
    · rw [if_pos hk]
      constructor
      · rintro ⟨hn,hlen,hm⟩
        obtain ⟨zs,rest,hf,hp⟩ := exists_of_matched hm
        have hrest : rest = [] := by
          have := hp.length_eq
          rw [List.length_append,← hlen,hf.length_eq] at this
          exact List.eq_nil_of_length_eq_zero (by omega)
        rw [hrest,List.append_nil] at hp
        exact .set hn hk ((hforall zs).mp hf) hp
      · intro h
        obtain ⟨zs,hf,hp⟩ := h.factors_of_power hk
        exact ⟨h.sameNode,hf.length_eq.trans hp.length_eq,matched_of_perm ih hf hp⟩
    · rw [if_neg hk,hforall]
      exact ⟨fun ⟨hn,hf⟩ => .ordered hn hk hf,fun h => ⟨h.sameNode,h.factors_of_ne hk⟩⟩

theorem ext_head (hh : x.head = y.head) (hk : x.kind = y.kind) (hi : x.index? = y.index?)
    (hm : x.morphism? = y.morphism?) (hf : x.factors = y.factors) : x = y := by
  cases x <;> cases y <;> simp_all [kind,index?,morphism?,factors,head]

theorem ext_parts (hn : SameNode g x y) (hform : x.form = y.form) (hf : x.factors = y.factors) :
    x = y := by
  obtain ⟨-,hname,haddress,hkind,hindex,hmorphism⟩ := hn
  have hhead : x.head = y.head := by
    show Head.mk x.form x.name x.address = Head.mk y.form y.name y.address
    rw [hform,hname,haddress]
  exact ext_head hhead hkind hindex hmorphism hf

/-- Denotators that are equal up to their forms are the same where names tell the forms apart and
all sets are sorted. -/
theorem Alike.eq (h : Alike g x y)
    (hforms : ∀ a ∈ x.nodes, ∀ b ∈ y.nodes, g.Similar a.form b.form → a.form = b.form)
    (hx : ∀ a ∈ x.nodes, a.kind = .power → StrictlySorted a.factors)
    (hy : ∀ b ∈ y.nodes, b.kind = .power → StrictlySorted b.factors) : x = y := by
  induction x using factor_induction generalizing y with
  | h x ih =>
    have hn := h.sameNode
    have hform := hforms x (self_mem_nodes x) y (self_mem_nodes y) hn.form
    have heq {ys : List Denotator} (hys : ys ⊆ y.factors)
        (hf : List.Forall₂ (Alike g) x.factors ys) : x.factors = ys := by
      refine List.forall₂_eq_eq_eq ▸ forall₂_of_mem hf fun a ha b hb hab => ?_
      have hax := mem_nodes_of_mem_factors ha
      have hby := mem_nodes_of_mem_factors (hys hb)
      exact ih a ha hab (fun c hc e he => hforms c (nodes_trans hc hax) e (nodes_trans he hby))
        (fun c hc => hx c (nodes_trans hc hax)) fun e he => hy e (nodes_trans he hby)
    refine ext_parts hn hform ?_
    by_cases hk : x.kind = .power
    · obtain ⟨zs,hf,hp⟩ := h.factors_of_power hk
      have hzs := heq hp.subset hf
      subst hzs
      exact eq_of_perm (hx x (self_mem_nodes x) hk) (hy y (self_mem_nodes y) (hn.kind ▸ hk)) hp
    · exact heq (List.Subset.refl _) (h.factors_of_ne hk)

theorem nodup_of_apart {xs ys : List Denotator} (h : List.Forall₂ (Alike g) xs ys)
    (hp : ys.Pairwise fun a b => ¬ Alike g a b) : xs.Nodup := by
  induction h with
  | nil => exact .nil
  | @cons x y xs ys hxy hf ih =>
    obtain ⟨hy,hys⟩ := List.pairwise_cons.mp hp
    refine List.nodup_cons.mpr ⟨fun hx => ?_,ih hys⟩
    obtain ⟨z,hz,hxz⟩ := exists_of_forall₂_left hf hx
    exact hy z hz (hxy.symm.trans hxz)

end Denotator
end AddressedForms
