import AddressedForms.Proofs.Denotator.WellFormed
import AddressedForms.Proofs.Form.Twins
import Mathlib.Data.List.Forall2
import Mathlib.Logic.Relator
set_option autoImplicit false

/-!
Denotators under corresponding forms. The members of a set come in another order where the ids of
their forms do; everything else is as it was, and so are the answers of all that is asked of them:
which forms they go with, what they become at another address, and what can be made of them.
-/

namespace AddressedForms
namespace Denotator
variable {R : FormId → FormId → Prop} {g h : FormGraph} {d d' e e' x y z : Denotator}
  {xs ys : List Denotator} {a old new : Module} {m : Morphism}

/-- The same node but for the form, which is the corresponding one. -/
structure NodeMatches (R : FormId → FormId → Prop) (x y : Denotator) : Prop where
  form : R x.form y.form
  name : x.name = y.name
  address : x.address = y.address
  kind : x.kind = y.kind
  index : x.index? = y.index?
  morphism : x.morphism? = y.morphism?

/-- The same denotator but for the forms. Sets are sorted, each by the forms on its own side. -/
inductive Matches (R : FormId → FormId → Prop) : Denotator → Denotator → Prop
  | ordered {x y : Denotator} (hn : NodeMatches R x y) (hk : x.kind ≠ .power)
    (hf : List.Forall₂ (Matches R) x.factors y.factors) : Matches R x y
  | set {x y : Denotator} {zs : List Denotator} (hn : NodeMatches R x y) (hk : x.kind = .power)
    (hx : StrictlySorted x.factors) (hy : StrictlySorted y.factors)
    (hf : List.Forall₂ (Matches R) x.factors zs) (hp : zs.Perm y.factors) : Matches R x y

namespace Matches

theorem node (h : Matches R x y) : NodeMatches R x y := by cases h <;> assumption

theorem factors_of_ne (h : Matches R x y) (hk : x.kind ≠ .power) :
    List.Forall₂ (Matches R) x.factors y.factors := by
  cases h with
  | ordered _ _ hf => exact hf
  | set _ hk' => contradiction

theorem factors_of_power (h : Matches R x y) (hk : x.kind = .power) :
    StrictlySorted x.factors ∧ StrictlySorted y.factors ∧
      ∃ zs, List.Forall₂ (Matches R) x.factors zs ∧ zs.Perm y.factors := by
  cases h with
  | ordered _ hk' => contradiction
  | set _ _ hx hy hf hp => exact ⟨hx,hy,_,hf,hp⟩

theorem exists_factor (h : Matches R x y) {f : Denotator} (hf : f ∈ y.factors) :
    ∃ e ∈ x.factors, Matches R e f := by
  cases h with
  | ordered _ _ hfs => exact exists_of_forall₂_right hfs hf
  | set _ _ _ _ hfs hp => exact exists_of_forall₂_right hfs (hp.mem_iff.mpr hf)

theorem flip (h : Matches R x y) : Matches (fun a b => R b a) y x := by
  induction x using factor_induction generalizing y with
  | h x ih =>
    obtain ⟨hform,hname,haddress,hkind,hindex,hmorphism⟩ := h.node
    have hn : NodeMatches (fun a b => R b a) y x :=
      ⟨hform,hname.symm,haddress.symm,hkind.symm,hindex.symm,hmorphism.symm⟩
    have hback {zs : List Denotator} (hf : List.Forall₂ (Matches R) x.factors zs) :
        List.Forall₂ (Matches fun a b => R b a) zs x.factors :=
      (forall₂_of_mem hf fun a ha _ _ hab => ih a ha hab).flip
    by_cases hk : x.kind = .power
    · obtain ⟨hx,hy,zs,hf,hp⟩ := h.factors_of_power hk
      obtain ⟨ws,hw,hwp⟩ := List.perm_comp_forall₂ hp.symm (hback hf)
      exact .set hn (hkind ▸ hk) hy hx hw hwp
    · exact .ordered hn (hkind ▸ hk) (hback (h.factors_of_ne hk))

theorem rightUnique (hr : Relator.RightUnique R) : Relator.RightUnique (Matches R) := by
  intro x y z h k
  induction x using factor_induction generalizing y z with
  | h x ih =>
    obtain ⟨hform,hname,haddress,hkind,hindex,hmorphism⟩ := h.node
    obtain ⟨kform,kname,kaddress,kkind,kindex,kmorphism⟩ := k.node
    have hform : y.form = z.form := hr hform kform
    have hn : SameNode .empty y z := ⟨hform ▸ .refl _ _,hname.symm.trans kname,
      haddress.symm.trans kaddress,hkind.symm.trans kkind,hindex.symm.trans kindex,
      hmorphism.symm.trans kmorphism⟩
    have heq {ys zs : List Denotator} (hy : List.Forall₂ (Matches R) x.factors ys)
        (hz : List.Forall₂ (Matches R) x.factors zs) : ys = zs := by
      have hmem := forall₂_of_mem (S := fun f y => f ∈ x.factors ∧ Matches R f y) hy
        fun f hf _ _ hfy => ⟨hf,hfy⟩
      exact List.forall₂_eq_eq_eq ▸ (forall₂_comp hmem.flip hz).imp
        fun y z ⟨f,⟨hf,hfy⟩,hfz⟩ => ih f hf hfy hfz
    refine ext_parts hn hform ?_
    by_cases hk : x.kind = .power
    · obtain ⟨-,hys,ys,hy,hyp⟩ := h.factors_of_power hk
      obtain ⟨-,hzs,zs,hz,hzp⟩ := k.factors_of_power hk
      exact eq_of_perm hys hzs (hyp.symm.trans (heq hy hz ▸ hzp))
    · exact heq (h.factors_of_ne hk) (k.factors_of_ne hk)

theorem mono {S : FormId → FormId → Prop} (h : Matches R x y) (hr : ∀ a b, R a b → S a b) :
    Matches S x y := by
  induction x using factor_induction generalizing y with
  | h x ih =>
    obtain ⟨hform,hname,haddress,hkind,hindex,hmorphism⟩ := h.node
    have hn : NodeMatches S x y := ⟨hr _ _ hform,hname,haddress,hkind,hindex,hmorphism⟩
    by_cases hk : x.kind = .power
    · obtain ⟨hx,hy,zs,hf,hp⟩ := h.factors_of_power hk
      exact .set hn hk hx hy (forall₂_of_mem hf fun a ha _ _ hab => ih a ha hab) hp
    · exact .ordered hn hk (forall₂_of_mem (h.factors_of_ne hk) fun a ha _ _ hab => ih a ha hab)

theorem biUnique (hr : Relator.BiUnique R) : Relator.BiUnique (Matches R) := by
  have hback : Relator.RightUnique fun a b => R b a := fun _ _ _ p q => hr.1 p q
  exact ⟨fun _ _ _ h k => rightUnique hback h.flip k.flip,rightUnique hr.2⟩

theorem alike (h : Matches R x y) (hr : ∀ a b, R a b → g.Similar a b) : Alike g x y := by
  induction x using factor_induction generalizing y with
  | h x ih =>
    obtain ⟨hform,hname,haddress,hkind,hindex,hmorphism⟩ := h.node
    have hn : SameNode g x y := ⟨hr _ _ hform,hname,haddress,hkind,hindex,hmorphism⟩
    by_cases hk : x.kind = .power
    · obtain ⟨-,-,zs,hf,hp⟩ := h.factors_of_power hk
      exact .set hn hk (forall₂_of_mem hf fun a ha _ _ hab => ih a ha hab) hp
    · exact .ordered hn hk (forall₂_of_mem (h.factors_of_ne hk) fun a ha _ _ hab => ih a ha hab)

theorem isSorted (h : Matches R x y) : x.IsSorted := by
  induction x using factor_induction generalizing y with
  | h x ih =>
    have hfactors : ∀ f ∈ x.factors, f.IsSorted := by
      intro f hf
      by_cases hk : x.kind = .power
      · obtain ⟨-,-,zs,hzs,-⟩ := h.factors_of_power hk
        obtain ⟨z,-,hz⟩ := exists_of_forall₂_left hzs hf
        exact ih f hf hz
      · obtain ⟨z,-,hz⟩ := exists_of_forall₂_left (h.factors_of_ne hk) hf
        exact ih f hf hz
    intro n hn hk
    rw [nodes_eq,List.mem_cons,mem_allNodes] at hn
    rcases hn with rfl | ⟨f,hf,hn⟩
    · exact (h.factors_of_power hk).1
    · exact hfactors f hf n hn hk

theorem withHead {k l : Head} (h : Matches R x y) (hform : R k.form l.form)
    (hname : k.name = l.name) (haddress : k.address = l.address) :
    Matches R (x.withHead k) (y.withHead l) := by
  obtain ⟨-,-,-,hkind,hindex,hmorphism⟩ := h.node
  have hn : NodeMatches R (x.withHead k) (y.withHead l) := by
    refine ⟨?_,?_,?_,?_,?_,?_⟩ <;> simpa [form,name,address]
  by_cases hk : x.kind = .power
  · obtain ⟨hx,hy,zs,hf,hp⟩ := h.factors_of_power hk
    exact .set hn (by simpa using hk) (by simpa using hx) (by simpa using hy)
      (by simpa using hf) (by simpa using hp)
  · exact .ordered hn (by simpa using hk) (by simpa using h.factors_of_ne hk)

theorem named (h : Matches R x y) (name : String) : Matches R (x.named name) (y.named name) :=
  h.withHead h.node.form rfl h.node.address

end Matches

theorem matches_self (hs : d.IsSorted) (hr : ∀ n ∈ d.nodes, R n.form n.form) : Matches R d d := by
  induction d using factor_induction with
  | h d ih =>
    have hn : NodeMatches R d d := ⟨hr d (self_mem_nodes d),rfl,rfl,rfl,rfl,rfl⟩
    have hf : List.Forall₂ (Matches R) d.factors d.factors := by
      refine List.forall₂_same.mpr fun f hf => ?_
      have hbelow := mem_nodes_of_mem_factors hf
      exact ih f hf (fun n hn => hs n (nodes_trans hn hbelow))
        fun n hn => hr n (nodes_trans hn hbelow)
    by_cases hk : d.kind = .power
    · have hsorted := hs d (self_mem_nodes d) hk
      exact .set hn hk hsorted hsorted hf (.refl _)
    · exact .ordered hn hk hf

theorem Matches.eq (h : Matches R x y) (hr : ∀ a b, R a b → a = b) : x = y :=
  Matches.rightUnique (fun _ _ _ hab hac => hab.symm.trans hac)
    (matches_self h.isSorted fun _ _ => rfl) (h.mono hr)

section Sets

theorem insertFactor_of_mem (hs : StrictlySorted ys) (hx : x ∈ ys) : insertFactor x ys = ys := by
  refine (strictlySorted_insertFactor x hs).eq_of_mem_iff hs fun z => ?_
  rw [mem_insertFactor,or_iff_right_of_imp]
  rintro rfl
  exact hx

theorem exists_asSet {M : Denotator → Denotator → Prop} (hm : Relator.BiUnique M)
    (h : List.Forall₂ M xs ys) :
    ∃ zs, List.Forall₂ M (asSet xs) zs ∧ zs.Perm (asSet ys) := by
  induction h with
  | nil => exact ⟨[],.nil,.refl _⟩
  | @cons x y xs ys hxy _ ih =>
    obtain ⟨zs,hzs,hp⟩ := ih
    have hmem : x ∈ asSet xs ↔ y ∈ asSet ys := (List.rel_mem hm hxy hzs).trans hp.mem_iff
    show ∃ zs, List.Forall₂ M (insertFactor x (asSet xs)) zs ∧ zs.Perm (insertFactor y (asSet ys))
    by_cases hx : x ∈ asSet xs
    · rw [insertFactor_of_mem (strictlySorted_asSet xs) hx,
        insertFactor_of_mem (strictlySorted_asSet ys) (hmem.mp hx)]
      exact ⟨zs,hzs,hp⟩
    · obtain ⟨ws,hws,hwp⟩ := List.perm_comp_forall₂ (insertFactor_perm hx) (.cons hxy hzs)
      exact ⟨ws,hws,hwp.trans ((hp.cons y).trans (insertFactor_perm (mt hmem.mpr hx)).symm)⟩

theorem asSet_eq_of_perm (h : xs.Perm ys) : asSet xs = asSet ys :=
  (strictlySorted_asSet xs).eq_of_mem_iff (strictlySorted_asSet ys) fun d => by
    rw [mem_asSet,mem_asSet,h.mem_iff]

theorem matches_power (hr : Relator.BiUnique R) {k l : Head} (hform : R k.form l.form)
    (hname : k.name = l.name) (haddress : k.address = l.address)
    (hf : List.Forall₂ (Matches R) xs ys) :
    Matches R (.power k (asSet xs)) (.power l (asSet ys)) := by
  obtain ⟨zs,hzs,hp⟩ := exists_asSet (Matches.biUnique hr) hf
  exact .set ⟨hform,hname,haddress,rfl,rfl,rfl⟩ rfl (strictlySorted_asSet xs)
    (strictlySorted_asSet ys) hzs hp

end Sets

section Move

/-- A composite is moved whenever its factors are, each that is at the old address. -/
theorem readdress_eq_ok_iff (hd : d.morphism? = none) : d.readdress old new m = .ok e ↔
    Reworked (fun f f' => (if f.address = old then f.readdress old new m else .ok f) = .ok f')
      new d e := by
  refine ⟨fun h => reworked_of_readdress h hd,fun h => ?_⟩
  obtain ⟨es,hes,hfactors⟩ := h.factors
  have hhead := h.head
  have hkind := h.kind
  have hindex := h.index
  cases d with
  | simple => cases hd
  | colimit k i f =>
    cases e <;> cases hkind
    obtain ⟨f',_,hf',hnil,rfl⟩ := List.forall₂_cons_left_iff.mp hes
    cases hnil
    cases hhead
    cases hindex
    cases hfactors
    rw [readdress]
    split at hf' <;> rename_i hf
    · rw [if_pos hf,hf']
      rfl
    · cases hf'
      rw [if_neg hf]
      rfl
  | limit k ds | power k ds | list k ds =>
    cases e <;> cases hkind
    cases hhead
    cases hfactors
    have hall : readdressAll old new m ds = .ok es := readdressAll_eq_ok_iff.mpr hes
    rw [readdress,hall]
    rfl

theorem exists_reworked {Q : Denotator → Denotator → Prop} (hd : d.morphism? = none)
    (h : ∀ f ∈ d.factors, ∃ f', Q f f') (a : Module) : ∃ e, Reworked Q a d e := by
  obtain ⟨es,hes⟩ := exists_forall₂ h
  cases d with
  | simple => cases hd
  | limit k ds => exact ⟨.limit (movedTo k a) es,rfl,rfl,rfl,rfl,es,hes,rfl⟩
  | power k ds => exact ⟨.power (movedTo k a) (asSet es),rfl,rfl,rfl,rfl,es,hes,rfl⟩
  | list k ds => exact ⟨.list (movedTo k a) es,rfl,rfl,rfl,rfl,es,hes,rfl⟩
  | colimit k i f =>
    obtain ⟨f',_,hf',hnil,rfl⟩ := List.forall₂_cons_left_iff.mp hes
    cases hnil
    exact ⟨.colimit (movedTo k a) i f',rfl,rfl,rfl,rfl,[f'],hes,rfl⟩

theorem Matches.reworked {Q : Denotator → Denotator → Prop} (hr : Relator.BiUnique R)
    (h : Matches R d e) (hd : Reworked Q a d d') (he : Reworked Q a e e')
    (hq : ∀ f ∈ d.factors, ∀ k f' k', Matches R f k → Q f f' → Q k k' → Matches R f' k') :
    Matches R d' e' := by
  obtain ⟨hform,hname,-,hkind,hindex,-⟩ := h.node
  obtain ⟨ds,hds,hdf⟩ := hd.factors
  obtain ⟨es,hes,hef⟩ := he.factors
  have hn : NodeMatches R d' e' := by
    refine ⟨hd.form ▸ he.form ▸ hform,?_,hd.address.trans he.address.symm,
      hd.kind.trans (hkind.trans he.kind.symm),hd.index.trans (hindex.trans he.index.symm),?_⟩
    · rw [Denotator.name,Denotator.name,hd.head,he.head]
      exact hname
    · rw [morphism?_eq_of_kind hd.kind hd.composite,morphism?_eq_of_kind he.kind he.composite,
        hd.composite,he.composite]
  have hfactors {zs ws : List Denotator} (hz : List.Forall₂ (Matches R) d.factors zs)
      (hw : List.Forall₂ Q zs ws) : List.Forall₂ (Matches R) ds ws := by
    have hmem := forall₂_of_mem (S := fun f k => f ∈ d.factors ∧ Matches R f k) hz
      fun f hf _ _ hfk => ⟨hf,hfk⟩
    have hback := forall₂_comp hds.flip (forall₂_comp hmem hw)
    refine hback.imp ?_
    rintro f' k' ⟨f,hff,k,⟨hf,hfk⟩,hkk⟩
    exact hq f hf k f' k' hfk hff hkk
  by_cases hk : d.kind = .power
  · obtain ⟨-,-,zs,hz,hp⟩ := h.factors_of_power hk
    obtain ⟨ws,hw,hwp⟩ := List.perm_comp_forall₂ hp hes
    obtain ⟨vs,hv,hvp⟩ := exists_asSet (biUnique hr) (hfactors hz hw)
    rw [if_pos hk] at hdf
    rw [if_pos (hkind ▸ hk),← asSet_eq_of_perm hwp] at hef
    exact .set hn (hd.kind.trans hk) (hdf ▸ strictlySorted_asSet _) (hef ▸ strictlySorted_asSet _)
      (hdf ▸ hv) (hef ▸ hvp)
  · rw [if_neg hk] at hdf
    rw [if_neg (hkind ▸ hk)] at hef
    exact .ordered hn (hd.kind ▸ hk) (hdf ▸ hef ▸ hfactors (h.factors_of_ne hk) hes)

theorem Matches.exists_readdress (hr : Relator.BiUnique R) (h : Matches R d e)
    (hd : d.readdress old new m = .ok d') :
    ∃ e', e.readdress old new m = .ok e' ∧ Matches R d' e' := by
  induction d using factor_induction generalizing e d' with
  | h d ih =>
    obtain ⟨hform,hname,haddress,hkind,hindex,hmorphism⟩ := h.node
    by_cases hc : d.morphism? = none
    · have hstep : ∀ f ∈ d.factors, ∀ k f', Matches R f k →
          (if f.address = old then f.readdress old new m else .ok f) = .ok f' → ∃ k',
          (if k.address = old then k.readdress old new m else .ok k) = .ok k' ∧
            Matches R f' k' := by
        intro f hf k f' hfk hff
        rw [← hfk.node.address]
        split at hff <;> rename_i hold
        · rw [if_pos hold]
          exact ih f hf hfk hff
        · rw [if_neg hold]
          cases hff
          exact ⟨k,rfl,hfk⟩
      have hrd := (readdress_eq_ok_iff hc).mp hd
      have hce : e.morphism? = none := hmorphism ▸ hc
      obtain ⟨ds,hds,-⟩ := hrd.factors
      have hall : ∀ k ∈ e.factors, ∃ k',
          (if k.address = old then k.readdress old new m else .ok k) = .ok k' := by
        intro k hk
        obtain ⟨f,hf,hfk⟩ := h.exists_factor hk
        obtain ⟨f',-,hff⟩ := exists_of_forall₂_left hds hf
        exact (hstep f hf k f' hfk hff).imp fun _ => And.left
      obtain ⟨e',he⟩ := exists_reworked hce hall new
      refine ⟨e',(readdress_eq_ok_iff hce).mpr he,h.reworked hr hrd he ?_⟩
      intro f hf k f' k' hfk hff hkk
      obtain ⟨k'',hk'',hmatch⟩ := hstep f hf k f' hfk hff
      rw [hkk] at hk''
      cases hk''
      exact hmatch
    · cases d with
      | limit | colimit | power | list => exact absurd rfl hc
      | simple k c =>
        cases e <;> cases hkind
        cases hmorphism
        rw [readdress] at hd
        obtain ⟨c',hc',hd⟩ := Except.bind_eq_ok_iff.mp hd
        cases hd
        rw [readdress,hc']
        exact ⟨_,rfl,.ordered ⟨hform,hname,rfl,rfl,rfl,rfl⟩ (by rintro ⟨⟩) .nil⟩

theorem Matches.readdressTo? (hr : Relator.BiUnique R) (h : Matches R d e) (a : Module) :
    Option.Rel (Matches R) (d.readdressTo? a) (e.readdressTo? a) := by
  have hback : Relator.BiUnique fun a b => R b a :=
    ⟨fun _ _ _ p q => hr.2 p q,fun _ _ _ p q => hr.1 p q⟩
  rw [Denotator.readdressTo?,Denotator.readdressTo?,← h.node.address]
  split
  · exact .some h
  · cases Morphism.canonical? a d.address with
    | none => exact .none
    | some m =>
      show Option.Rel _ (d.readdress _ _ m).toOption (e.readdress _ _ m).toOption
      cases hd : d.readdress d.address a m with
      | ok d' =>
        obtain ⟨e',he,hmatch⟩ := h.exists_readdress hr hd
        rw [he]
        exact .some hmatch
      | error err =>
        cases he : e.readdress d.address a m with
        | error => exact .none
        | ok e' =>
          obtain ⟨d',hd',-⟩ := h.flip.exists_readdress hback he
          rw [hd] at hd'
          cases hd'

end Move

end Denotator
end AddressedForms
