import AddressedForms.Document.Assembly
import AddressedForms.Proofs.Denotator.Construct
import AddressedForms.Proofs.Document.Attempt
import AddressedForms.Proofs.Document.Reading
set_option autoImplicit false

/-!
Assembly of a denotator from its node and its factors. Where the node has just the address that its
factors share, what is assembled is equal to what was written.
-/

namespace AddressedForms
namespace DenotatorSketch
open Denotator

theorem buildAll_eq (env : Surroundings) (look : String → Attempt Denotator)
    (ss : List DenotatorSketch) : buildAll env look ss = ss.map (build env look) := by
  induction ss with
  | nil => rfl
  | cons s ss ih => rw [buildAll,ih,List.map_cons]

/-- All that a node says of a denotator but for the factors. -/
structure Describes (env : Surroundings) (n : Node) (y : FormId) (d : Denotator) : Prop where
  kind : kindOf n = .success d.kind
  form : formOf env n d.kind = .success y
  address : addressOf env n = .success d.address
  name : n.name? = d.name
  index : ∀ i, d.index? = some i →
    n.parsed "index" Integer.readIndex IntegerError.message = .success i
  coordinate : ∀ f, d.morphism? = some f →
    ∃ c, n.child? "Map" = some c ∧ Morphism.ofCoordinate env.leaves d.address c = .success f

section Assemble
variable {env : Surroundings} {n : Node} {y : FormId} {d : Denotator}

theorem Describes.valueOf_success (h : Describes env n y d) {es : List Denotator}
    (hl : es.length = d.factors.length) :
    valueOf env n d.kind y d.address (es.map .success) = checkedAt n (remake env.graph y d es) := by
  cases d with
  | simple k f =>
    obtain ⟨c,hc,hf⟩ := h.coordinate f rfl
    simp only [valueOf,Denotator.kind,hc,hf,Attempt.success_bind,remake]
  | colimit k i e =>
    obtain ⟨e',rfl⟩ : ∃ e', es = [e'] := List.length_eq_one_iff.mp hl
    simp only [valueOf,Denotator.kind,h.index i rfl,Attempt.success_bind,List.map_cons,remake,
      List.headD_cons]
  | limit k ds | power k ds | list k ds =>
    simp only [valueOf,Denotator.kind,Attempt.all_map_success,Attempt.success_bind,remake]

theorem Describes.reports_parts (h : Describes env n y d) {parts : List (Attempt Denotator)}
    (hl : parts.length = d.factors.length)
    (hc : (valueOf env n d.kind y d.address parts).reports = []) :
    parts.flatMap Attempt.reports = [] := by
  cases d with
  | simple k f => simp [List.length_eq_zero_iff.mp hl]
  | colimit k i e =>
    obtain ⟨p,rfl⟩ : ∃ p, parts = [p] := List.length_eq_one_iff.mp hl
    simp only [valueOf,Denotator.kind,h.index i rfl,Attempt.success_bind] at hc
    simpa using (Attempt.reports_bind_eq_nil hc).1
  | limit k ds | power k ds | list k ds =>
    simp only [valueOf,Denotator.kind] at hc
    rw [← Attempt.reports_all]
    exact (Attempt.reports_bind_eq_nil hc).1

theorem Describes.assemble_eq (h : Describes env n y d) (parts : List (Attempt Denotator)) :
    assemble env n parts = (valueOf env n d.kind y d.address parts >>= fun c =>
      movedTo n d.address c >>= fun e => .success (match d.name with
        | some name => e.named name
        | none => e)) := by
  cases hname : d.name <;>
    simp only [assemble,h.kind,h.form,h.address,h.name,hname,Attempt.success_bind]

theorem movedTo_eq {c : Denotator} {address : Module}
    (h : c.address = address ∨ c.address = .null ∧ c.factors = [] ∧ c.morphism? = none) :
    movedTo n address c = .success (c.withHead {c.head with address := address}) := by
  unfold movedTo
  split
  · rename_i he
    subst he
    exact congrArg _ (withHead_head c).symm
  · obtain ⟨ha,hf,hm⟩ := h.resolve_left ‹_›
    rw [readdressTo?_of_empty hf hm ha]

structure Placed (env : Surroundings) (y : FormId) (d : Denotator) : Prop where
  similar : env.graph.Similar y d.form
  fits : ∃ b f, Fits env.graph b d ∧ env.graph.get? y = some f ∧
    b.Related env.graph.Similar f.body

/-- A node is made of factors like its own, at the address of its coordinate or the one that the
factors share. -/
theorem Placed.exists_made (hp : Placed env y d) (hu : env.graph.NamesUnique)
    {es : List Denotator} (hes : List.Forall₂ (SameNode env.graph) es d.factors) {s : Module}
    (hs : sharedAddress es = .ok s) :
    ∃ t c, remake env.graph y d es = .ok c ∧ Made y d es t c ∧
      (t = d.address ∧ d.factors = [] ∨ t = s ∧ d.morphism? = none) := by
  obtain ⟨b,f,hfit,hf,hr⟩ := hp.fits
  obtain ⟨c,hc⟩ := exists_remake hu hfit hf hr hes hs
  obtain ⟨t,hmade,hdomain,ht⟩ := made_of_remake hc hes.length_eq
  refine ⟨t,c,hc,hmade,?_⟩
  cases hm : d.morphism? with
  | some m =>
    left
    rw [hdomain m hm]
    cases hfit with
    | simple hd =>
      cases hm
      exact ⟨hd,rfl⟩
    | limit | colimit | power | list => cases hm
  | none =>
    rw [ht hm,Except.ok.injEq] at hs
    exact .inr ⟨hs,rfl⟩

theorem Describes.assemble_eq_success (h : Describes env n y d) (hp : Placed env y d)
    {es : List Denotator} {t : Module} {c e : Denotator} (hl : es.length = d.factors.length)
    (hc : remake env.graph y d es = .ok c) (hmade : Made y d es t c)
    (hmove : movedTo n d.address c = .success e)
    (he : e.head = {c.head with address := d.address} ∧ e.kind = c.kind ∧ e.index? = c.index? ∧
      e.morphism? = c.morphism?) :
    ∃ e', assemble env n (es.map .success) = .success e' ∧ SameNode env.graph e' d ∧
      e'.factors = e.factors := by
  obtain ⟨hhead,hkind,hindex,hmorphism⟩ := he
  rw [hmade.head] at hhead
  refine ⟨e.withHead ⟨y,d.name,d.address⟩,?_,⟨?_,?_,?_,?_,?_,?_⟩,factors_withHead _ _⟩
  · rw [h.assemble_eq,h.valueOf_success hl,hc,checkedAt,Attempt.success_bind,hmove,
      Attempt.success_bind]
    cases hname : d.name with
    | none => rw [← hhead,withHead_head]
    | some name => simp [named,hhead]
  · simpa [Denotator.form] using hp.similar
  · simp [Denotator.name]
  · simp [Denotator.address]
  · rw [kind_withHead,hkind,hmade.kind]
  · rw [index?_withHead,hindex,hmade.index]
  · rw [morphism?_withHead,hmorphism,hmade.morphism]

theorem Describes.assemble_kept (h : Describes env n y d) (hp : Placed env y d)
    (hu : env.graph.NamesUnique) {es : List Denotator}
    (hes : List.Forall₂ (SameNode env.graph) es d.factors)
    (hexact : d.factors ≠ [] → sharedAddress d.factors = .ok d.address) :
    ∃ e, assemble env n (es.map .success) = .success e ∧ SameNode env.graph e d ∧
      e.factors = if d.kind = .power then asSet es else es := by
  obtain ⟨s,hs,hsd⟩ : ∃ s, sharedAddress es = .ok s ∧ (s = d.address ∨ s = .null ∧ es = []) := by
    by_cases hd : d.factors = []
    · rw [hd,List.forall₂_nil_right_iff] at hes
      exact ⟨.null,by rw [hes]; rfl,.inr ⟨rfl,hes⟩⟩
    · exact ⟨d.address,(sharedAddress_congr hes fun _ _ h => h.address).mpr (hexact hd),.inl rfl⟩
  obtain ⟨t,c,hc,hmade,ht⟩ := hp.exists_made hu hes hs
  have haddress : c.address = t := congrArg Head.address hmade.head
  have hmove : movedTo n d.address c =
      .success (c.withHead {c.head with address := d.address}) := by
    refine movedTo_eq ?_
    rcases ht with ⟨ht,-⟩ | ⟨ht,hm⟩
    · exact .inl (haddress.trans ht)
    · refine hsd.imp (haddress.trans ht).trans fun ⟨hn,he⟩ => ⟨(haddress.trans ht).trans hn,?_,?_⟩
      · rw [hmade.factors,he]
        split <;> rfl
      · rw [hmade.morphism,hm]
  obtain ⟨e,he,hnode,hfactors⟩ := h.assemble_eq_success hp hes.length_eq hc hmade hmove
    ⟨head_withHead _ _,kind_withHead _ _,index?_withHead _ _,morphism?_withHead _ _⟩
  exact ⟨e,he,hnode,by rw [hfactors,factors_withHead,hmade.factors]⟩

theorem Describes.assemble_alike (h : Describes env n y d) (hp : Placed env y d)
    (hu : env.graph.NamesUnique) {es : List Denotator}
    (hes : List.Forall₂ (Alike env.graph) es d.factors)
    (hexact : d.factors ≠ [] → sharedAddress d.factors = .ok d.address)
    (hapart : d.kind = .power → d.factors.Pairwise fun a b => ¬ Alike env.graph a b) :
    ∃ e, assemble env n (es.map .success) = .success e ∧ Alike env.graph e d := by
  obtain ⟨e,he,hnode,hfactors⟩ :=
    h.assemble_kept hp hu (hes.imp fun _ _ halike => halike.sameNode) hexact
  refine ⟨e,he,?_⟩
  by_cases hk : d.kind = .power
  · have hset := asSet_perm (nodup_of_apart hes (hapart hk))
    obtain ⟨zs,hzs,hzp⟩ := List.perm_comp_forall₂ hset hes
    refine .set hnode (hnode.kind.trans hk) ?_ hzp
    rwa [hfactors,if_pos hk]
  · refine .ordered hnode (hnode.kind ▸ hk) ?_
    rwa [hfactors,if_neg hk]

/-- Where only the node has an address, its factors are moved there along with it. -/
theorem Describes.assemble_moved (h : Describes env n y d) (hp : Placed env y d)
    (hu : env.graph.NamesUnique) {es : List Denotator}
    (hes : List.Forall₂ (SameNode env.graph) es d.factors) (hd : d.factors ≠ [])
    (hnull : ∀ f ∈ d.factors, f.address = .null) (ha : d.address ≠ .null) (hk : d.kind ≠ .power)
    (hc : (assemble env n (es.map .success)).reports = []) :
    ∃ e, assemble env n (es.map .success) = .success e ∧ SameNode env.graph e d ∧
      List.Forall₂ (fun f _ => f.address = d.address) e.factors d.factors := by
  have hs : sharedAddress es = .ok .null := (sharedAddress_congr hes fun _ _ h => h.address).mpr
    (sharedAddress_eq_ok_iff.mpr ⟨fun f hf => .inl (hnull f hf),.inl rfl⟩)
  obtain ⟨t,c,hremake,hmade,ht⟩ := hp.exists_made hu hes hs
  obtain ⟨rfl,hm⟩ := ht.resolve_left fun h => hd h.2
  have haddress : c.address = .null := congrArg Head.address hmade.head
  have hne : c.address ≠ d.address := haddress ▸ ha.symm
  rw [h.assemble_eq,h.valueOf_success hes.length_eq,hremake,checkedAt,Attempt.success_bind] at hc
  have hreports := (Attempt.reports_bind_eq_nil hc).1
  obtain ⟨e,hmove⟩ : ∃ e, c.readdressTo? d.address = some e := by
    cases hto : c.readdressTo? d.address with
    | some e => exact ⟨e,rfl⟩
    | none =>
      rw [movedTo,if_neg hne,hto] at hreports
      cases hreports
  have hmoved := moved_of_readdressTo? hmove hne
  obtain ⟨e',he',hnode,hfactors⟩ := h.assemble_eq_success hp hes.length_eq hremake hmade
    (by rw [movedTo,if_neg hne,hmove])
    ⟨hmoved.head,hmoved.kind,hmoved.index,
      morphism?_eq_of_kind hmoved.kind (hmade.morphism.trans hm)⟩
  refine ⟨e',he',hnode,?_⟩
  have hparts := hmoved.factors (hmade.kind ▸ hk)
  rw [hmade.factors,if_neg hk,haddress] at hparts
  rw [hfactors]
  refine forall₂_of_mem (forall₂_comp hparts.flip hes) fun x _ f hf ⟨z,hz,hsame⟩ => ?_
  exact hz (hsame.address.trans (hnull f hf))

end Assemble

end DenotatorSketch
end AddressedForms
