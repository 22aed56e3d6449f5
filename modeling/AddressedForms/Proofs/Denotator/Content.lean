import AddressedForms.Proofs.Denotator.Fingerprint
import AddressedForms.Proofs.Denotator.WellFormed
set_option autoImplicit false

/-!
Equal denotators and their fingerprints. Similar forms have the same fingerprint, and so have equal
denotators whose factors come in the same order. Sets are sorted by the ids of forms; the same
members may so come in another order where their forms have copies, and then the fingerprints are
different as well.
-/

namespace AddressedForms
open Canonical

namespace Denotator
variable {hash : List UInt8 → Digest} {g : FormGraph} {a b x y : Denotator}
  {R S : Denotator → Denotator → Prop}

theorem Throughout.imp (hs : ∀ x y, R x y → x.factors.length = y.factors.length → S x y)
    (h : Throughout R x y) : Throughout S x y := by
  induction x using factor_induction generalizing y with
  | h x ih =>
    obtain ⟨hr,hf⟩ := throughout_iff.mp h
    exact .node (hs x y hr hf.length_eq) (forall₂_of_mem hf fun a ha _ _ hab => ih a ha hab)

theorem throughout_refl (hr : ∀ x, R x x) (x : Denotator) : Throughout R x x := by
  induction x using factor_induction with
  | h x ih => exact .node (hr x) (List.forall₂_same.mpr ih)

theorem fingerprint_eq_of_throughout (h : Throughout (SameNode g) a b) :
    a.fingerprint hash g = b.fingerprint hash g := by
  have hbound : Throughout (Bound hash g g) a b := h.imp fun x y hn hc => by
    refine ⟨hn.name,?_,hn.address,hn.kind,hn.index,hc,hn.morphism⟩
    rw [formDigest,formDigest,hn.form.fingerprint?_eq]
  exact hbound.fingerprint_eq

theorem Fits.similar_factors {b c : Body} (hx : Fits g b x) (hy : Fits g c y)
    (hb : b.Related g.Similar c) (hi : x.index? = y.index?)
    (hl : x.factors.length = y.factors.length) :
    List.Forall₂ (fun p q => g.Similar p.form q.form) x.factors y.factors := by
  have hall {base base' : FormId} {ps qs : List Denotator} (h : g.Similar base base')
      (hps : ∀ p ∈ ps, g.Similar base p.form) (hqs : ∀ q ∈ qs, g.Similar base' q.form)
      (hl : ps.length = qs.length) :
      List.Forall₂ (fun p q => g.Similar p.form q.form) ps qs := by
    refine List.forall₂_iff_zip.mpr ⟨hl,fun {p q} hpq => ?_⟩
    obtain ⟨hp,hq⟩ := List.of_mem_zip hpq
    exact (hps p hp).symm.trans (h.trans (hqs q hq))
  cases hx with
  | simple _ =>
    cases y with
    | simple => exact .nil
    | limit | colimit | power | list => cases hb.kind_eq.trans hy.kind_eq
  | limit hps =>
    obtain ⟨subs,rfl,hsubs⟩ := hb.limit_left
    cases hy with
    | limit hqs =>
      refine (forall₂_comp hps.flip (forall₂_comp hsubs hqs)).imp ?_
      rintro p q ⟨sub,hp,sub',hsub,hq⟩
      exact (FormGraph.Similar.symm hp).trans (hsub.trans hq)
  | colimit hs hp =>
    obtain ⟨subs,rfl,hsubs⟩ := hb.colimit_left
    cases hy with
    | colimit hs' hq =>
      cases hi
      obtain ⟨sub',hsub',hsub⟩ := getElem?_of_forall₂ hsubs.flip hs
      cases hs'.symm.trans hsub'
      exact .cons (hp.symm.trans (FormGraph.Similar.trans hsub hq)) .nil
  | power hps =>
    obtain ⟨base,rfl,hbase⟩ := hb.power_left
    cases hy with
    | power hqs => exact hall hbase hps hqs hl
  | list hps =>
    obtain ⟨base,rfl,hbase⟩ := hb.list_left
    cases hy with
    | list hqs => exact hall hbase hps hqs hl

theorem sameNode_throughout (hu : g.NamesUnique) (ha : a.validate g = .ok ())
    (hb : b.validate g = .ok ()) (hs : g.Similar a.form b.form)
    (h : Throughout (Bound hash g g) a b) : Throughout (SameNode g) a b := by
  induction a using factor_induction generalizing b with
  | h a ih =>
    obtain ⟨hbound,hf⟩ := throughout_iff.mp h
    obtain ⟨hna,hfa⟩ := (validate_eq_ok_iff a).mp ha
    obtain ⟨hnb,hfb⟩ := (validate_eq_ok_iff b).mp hb
    obtain ⟨e,he,hfit⟩ := (checkNode_eq_ok_iff hu).mp hna
    obtain ⟨f,hf',hfit'⟩ := (checkNode_eq_ok_iff hu).mp hnb
    obtain ⟨f',hget,-,hbody⟩ := hs.exists_form he
    cases hf'.symm.trans hget
    have hforms := hfit.similar_factors hfit' hbody hbound.index hbound.count
    refine .node ⟨hs,hbound.name,hbound.address,hbound.kind,hbound.index,hbound.morphism⟩ ?_
    exact forall₂_of_mem (forall₂_both hf hforms) fun p hp q hq ⟨hpq,hform⟩ =>
      ih p hp (hfa p hp).2 (hfb q hq).2 hform hpq

def inSets (d : Denotator) : List Denotator :=
  (d.nodes.filter (·.kind = .power)).flatMap fun n => allNodes n.factors

theorem mem_inSets {n d : Denotator} :
    n ∈ d.inSets ↔ ∃ s ∈ d.nodes, s.kind = .power ∧ n ∈ allNodes s.factors := by
  simp [inSets,and_assoc]

theorem inSets_subset {f d : Denotator} (h : f ∈ d.factors) : f.inSets ⊆ d.inSets := by
  intro n hn
  obtain ⟨s,hs,hk,hn⟩ := mem_inSets.mp hn
  exact mem_inSets.mpr ⟨s,nodes_trans hs (mem_nodes_of_mem_factors h),hk,hn⟩

/-- Equal denotators with sorted sets have their factors in the same order, if no copies of a form
meet in sets. -/
theorem Alike.throughout (h : Alike g a b) (ha : a.IsSorted) (hb : b.IsSorted)
    (hforms : ∀ x ∈ a.inSets, ∀ y ∈ b.inSets, g.Similar x.form y.form → x.form = y.form) :
    Throughout (SameNode g) a b := by
  induction a using factor_induction generalizing b with
  | h a ih =>
    refine .node h.sameNode ?_
    by_cases hk : a.kind = .power
    · obtain ⟨zs,hf,hp⟩ := h.factors_of_power hk
      have hkb : b.kind = .power := h.sameNode.kind ▸ hk
      -- members that are equal are the same, so the sets are the same list
      have heq : a.factors = zs := by
        refine List.forall₂_eq_eq_eq ▸ forall₂_of_mem hf fun x hx z hz hxz => ?_
        have hzb := hp.subset hz
        refine hxz.eq (fun n hn m hm => hforms n ?_ m ?_) (ha.of_mem_factors hx)
          (hb.of_mem_factors hzb)
        · exact mem_inSets.mpr ⟨a,self_mem_nodes a,hk,mem_allNodes.mpr ⟨x,hx,hn⟩⟩
        · exact mem_inSets.mpr ⟨b,self_mem_nodes b,hkb,mem_allNodes.mpr ⟨z,hzb,hm⟩⟩
      have hab : a.factors = b.factors :=
        eq_of_perm (ha a (self_mem_nodes a) hk) (hb b (self_mem_nodes b) hkb) (heq ▸ hp)
      exact hab ▸ List.forall₂_same.mpr fun x _ => throughout_refl (.refl g) x
    · exact forall₂_of_mem (h.factors_of_ne hk) fun x hx y hy hxy =>
        ih x hx hxy (ha.of_mem_factors hx) (hb.of_mem_factors hy)
          fun n hn m hm => hforms n (inSets_subset hx hn) m (inSets_subset hy hm)

/-- Equal denotators have the same fingerprint if their sets are sorted and no two copies of a form
meet in them. In general they have it just if their factors come in the same order, unless hashes
collide. -/
theorem equals_fingerprint (hr : g.Reachable) (ha : a.validate g = .ok ())
    (hb : b.validate g = .ok ()) (h : a.equals g b) :
    (a.IsSorted → b.IsSorted →
      (∀ x ∈ a.inSets, ∀ y ∈ b.inSets, g.equalForms x.form y.form → x.form = y.form) →
      a.fingerprint hash g = b.fingerprint hash g) ∧
    (Throughout (SameNode g) a b → a.fingerprint hash g = b.fingerprint hash g) ∧
    (a.isCountable → b.isCountable → a.fingerprint hash g = b.fingerprint hash g →
      Throughout (SameNode g) a b ∨
        ∃ x ∈ a.messages hash g, ∃ y ∈ b.messages hash g, Collide hash x y) := by
  have hu := hr.sound.namesUnique
  have halike := (equals_iff_alike hu a b).mp h
  refine ⟨fun hsa hsb hforms => ?_,fingerprint_eq_of_throughout,fun hca hcb heq => ?_⟩
  · refine fingerprint_eq_of_throughout (halike.throughout hsa hsb fun x hx y hy hs => ?_)
    exact hforms x hx y hy ((FormGraph.equalForms_iff_similar hu _ _).mpr hs)
  · exact (throughout_or_collide hca hcb heq).imp_left
      (sameNode_throughout hu ha hb halike.sameNode.form)

/-- Two notes of either copy, in sets that the copies sort differently. -/
theorem chords_fingerprint :
    let a := chord [note 0 60,note 1 67]
    let b := chord [note 0 67,note 1 60]
    a.IsSorted ∧ b.IsSorted ∧ a.equals .twinPitches b ∧ ∀ hash : List UInt8 → Digest,
      a.fingerprint hash .twinPitches = b.fingerprint hash .twinPitches →
        ∃ x ∈ a.messages hash .twinPitches, ∃ y ∈ b.messages hash .twinPitches,
          Collide hash x y := by
  intro a b
  have ha : a.validate .twinPitches = .ok () := by cbv
  have hb : b.validate .twinPitches = .ok () := by cbv
  have h : a.equals .twinPitches b := by cbv
  have hca : a.isCountable := by decide
  have hcb : b.isCountable := by decide
  have hsorted (p q : Int64) : (chord [note 0 p,note 1 q]).IsSorted := by
    intro n hn hk
    rcases List.mem_cons.mp hn with rfl | hn
    · exact List.pairwise_pair.mpr rfl
    · obtain rfl | rfl : n = note 0 p ∨ n = note 1 q := by simpa [allNodes,note,nodes] using hn
      all_goals cases hk
  have hapart : ¬ Throughout (SameNode .twinPitches) a b := by
    intro ht
    obtain ⟨-,hf⟩ := throughout_iff.mp ht
    have hnote := (throughout_iff.mp (List.forall₂_cons.mp hf).1).1
    exact absurd hnote.morphism (by decide)
  refine ⟨hsorted 60 67,hsorted 67 60,h,fun hash heq => ?_⟩
  have hcollide := (equals_fingerprint FormGraph.reachable_twinPitches ha hb h).2.2 hca hcb heq
  exact hcollide.resolve_left hapart

end Denotator
end AddressedForms
