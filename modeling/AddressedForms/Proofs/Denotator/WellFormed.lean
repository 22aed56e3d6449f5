import AddressedForms.Denotator.Edit
import AddressedForms.Proofs.Address.Typing
import AddressedForms.Proofs.Denotator.Construct
import AddressedForms.Proofs.Denotator.Sets
import AddressedForms.Proofs.Denotator.Recovery
set_option autoImplicit false

/-!
Well-formed denotators: valid ones whose sets are strictly increasing and whose moduli fit a signed
word. Evaluation, change of address and replacement of factors rebuild the nodes they pass without
further checks; all of them leave a well-formed denotator well formed.
-/

namespace AddressedForms
namespace Denotator
variable {g : FormGraph} {d e f : Denotator} {a old new : Module} {m : Morphism} {x : Element}

def IsSorted (d : Denotator) : Prop := ∀ n ∈ d.nodes, n.kind = .power → StrictlySorted n.factors

theorem IsSorted.of_mem_factors (hd : d.IsSorted) (hf : f ∈ d.factors) : f.IsSorted :=
  (forall_mem_nodes.mp hd).2 f hf

structure WellFormed (g : FormGraph) (d : Denotator) : Prop where
  valid : d.validate g = .ok ()
  sorted : d.IsSorted
  proper : ∀ n ∈ d.nodes, n.address.isProper ∧ ∀ m, n.morphism? = some m → m.modulesProper

/-- What well-formedness demands of one node. -/
structure SoundNode (g : FormGraph) (d : Denotator) : Prop extends Valid g d where
  sorted : d.kind = .power → StrictlySorted d.factors
  proper : d.address.isProper
  coordinate : ∀ m, d.morphism? = some m → m.modulesProper

theorem wellFormed_iff (hu : g.NamesUnique) : WellFormed g d ↔
    SoundNode g d ∧ ∀ f ∈ d.factors, WellFormed g f := by
  constructor
  · rintro ⟨hv,hs,hp⟩
    obtain ⟨-,hfactors⟩ := (validate_eq_ok_iff d).mp hv
    obtain ⟨hsorted,hsf⟩ := forall_mem_nodes.mp hs
    obtain ⟨⟨haddress,hcoordinate⟩,hpf⟩ := forall_mem_nodes.mp hp
    have hvalid := valid_of_validate hu hv d (self_mem_nodes d)
    exact ⟨⟨hvalid,hsorted,haddress,hcoordinate⟩,fun f hf => ⟨(hfactors f hf).2,hsf f hf,hpf f hf⟩⟩
  · rintro ⟨h,hfactors⟩
    have hvalid : d.validate g = .ok () :=
      (validate_eq_ok_iff d).mpr ⟨(checkNode_eq_ok_iff hu).mpr h.node,fun f hf =>
        ⟨checkAddress_eq_ok_iff.mpr (h.address f hf),(hfactors f hf).valid⟩⟩
    exact ⟨hvalid,forall_mem_nodes.mpr ⟨h.sorted,fun f hf => (hfactors f hf).sorted⟩,
      forall_mem_nodes.mpr ⟨⟨h.proper,h.coordinate⟩,fun f hf => (hfactors f hf).proper⟩⟩

theorem wellFormed_simple_iff (hu : g.NamesUnique) {k : Head} : WellFormed g (.simple k m) ↔
    (∃ f, g.get? k.form = some f ∧ f.body = .simple m.codomain) ∧ m.domain = k.address ∧
      m.modulesProper := by
  rw [wellFormed_iff hu]
  constructor
  · rintro ⟨⟨⟨⟨⟨name,body,labels,registered⟩,hf,hfit⟩,-⟩,-,-,hm⟩,-⟩
    generalize hb : body = b at hfit
    cases hfit with
    | simple hd => exact ⟨⟨_,hf,hb⟩,hd,hm m rfl⟩
  · rintro ⟨⟨f,hf,hb⟩,hd,hm⟩
    have hfit : Fits g f.body (.simple k m) := hb ▸ .simple hd
    have hproper : k.address.isProper := hd ▸ Morphism.isProper_domain hm
    exact ⟨⟨⟨⟨f,hf,hfit⟩,by simp [factors]⟩,nofun,hproper,by simpa [morphism?] using hm⟩,
      by simp [factors]⟩

/-- The same node over another address, with its factors replaced one for one. -/
structure Reworked (Q : Denotator → Denotator → Prop) (a : Module) (d e : Denotator) : Prop where
  composite : d.morphism? = none
  head : e.head = movedTo d.head a
  kind : e.kind = d.kind
  index : e.index? = d.index?
  factors : ∃ es, List.Forall₂ Q d.factors es ∧
    e.factors = if d.kind = .power then asSet es else es

theorem Reworked.form {Q : Denotator → Denotator → Prop} (h : Reworked Q a d e) :
    e.form = d.form := by rw [Denotator.form,h.head]; rfl

theorem Reworked.address {Q : Denotator → Denotator → Prop} (h : Reworked Q a d e) :
    e.address = a := by rw [Denotator.address,h.head]; rfl

theorem Reworked.no_morphism {Q : Denotator → Denotator → Prop} (h : Reworked Q a d e) :
    e.morphism? = none := (morphism?_eq_of_kind h.kind h.composite).trans h.composite

theorem Reworked.exists_of_mem {Q : Denotator → Denotator → Prop} (h : Reworked Q a d e)
    {f' : Denotator} (hf : f' ∈ e.factors) : ∃ f ∈ d.factors, Q f f' := by
  obtain ⟨es,hes,he⟩ := h.factors
  refine exists_of_forall₂_right hes ?_
  rw [he] at hf
  split at hf
  · exact (mem_asSet f' es).mp hf
  · exact hf

theorem Fits.reworked {Q : Denotator → Denotator → Prop} {b : Body} (hd : Fits g b d)
    (h : Reworked Q a d e) (hq : ∀ f ∈ d.factors, ∀ f', Q f f' → f'.form = f.form) :
    Fits g b e := by
  have hall {base : FormId} (hds : ∀ f ∈ d.factors, g.Similar base f.form) :
      ∀ f ∈ e.factors, g.Similar base f.form := by
    intro f' hf'
    obtain ⟨f,hf,hff⟩ := h.exists_of_mem hf'
    exact hq f hf f' hff ▸ hds f hf
  have hkind := h.kind
  cases hd with
  | simple hd => cases h.composite
  | @limit subs k ds hsubs =>
    cases e <;> cases hkind
    obtain ⟨es,hes,he⟩ := h.factors
    obtain rfl : _ = es := he
    have hforms := forall₂_of_mem hes fun f hf f' _ => hq f hf f'
    exact .limit ((forall₂_comp hsubs hforms).imp fun sub f' ⟨f,hs,hff⟩ => hff ▸ hs)
  | @colimit subs sub k i f hs hf =>
    cases e <;> cases hkind
    obtain rfl : _ = i := Option.some.inj h.index
    obtain ⟨f',hf',hff⟩ := h.exists_of_mem List.mem_cons_self
    obtain rfl := List.mem_singleton.mp hf'
    exact .colimit hs (hq _ hf' _ hff ▸ hf)
  | power hf => cases e <;> cases hkind; exact .power (hall hf)
  | list hf => cases e <;> cases hkind; exact .list (hall hf)

theorem wellFormed_of_factors (hu : g.NamesUnique) {b : Form} (hb : g.get? e.form = some b)
    (hfit : Fits g b.body e) (hm : e.morphism? = none)
    (hs : e.kind = .power → StrictlySorted e.factors) (ha : e.address.isProper)
    (hf : ∀ f ∈ e.factors, WellFormed g f ∧ (f.address = .null ∨ f.address = e.address)) :
    WellFormed g e :=
  (wellFormed_iff hu).mpr ⟨⟨⟨⟨b,hb,hfit⟩,fun f h => (hf f h).2⟩,hs,ha,by simp [hm]⟩,
    fun f h => (hf f h).1⟩

theorem WellFormed.reworked {Q : Denotator → Denotator → Prop} (hu : g.NamesUnique)
    (hd : WellFormed g d) (h : Reworked Q a d e) (ha : a.isProper)
    (hq : ∀ f ∈ d.factors, ∀ f', Q f f' → f'.form = f.form ∧ WellFormed g f' ∧
      (f'.address = .null ∨ f'.address = a)) : WellFormed g e := by
  obtain ⟨b,hb,hfit⟩ := ((wellFormed_iff hu).mp hd).1.node
  have hfits := hfit.reworked h fun f hf f' hff => (hq f hf f' hff).1
  refine wellFormed_of_factors hu (h.form ▸ hb) hfits ?_ (fun hk => ?_) (h.address ▸ ha) ?_
  · exact h.no_morphism
  · obtain ⟨es,-,he⟩ := h.factors
    rw [he,if_pos (h.kind ▸ hk)]
    exact strictlySorted_asSet es
  · intro f' hf'
    obtain ⟨f,hf,hff⟩ := h.exists_of_mem hf'
    exact h.address ▸ (hq f hf f' hff).2

theorem evaluateAll_eq_ok_iff {ds es : List Denotator} : evaluateAll x ds = .ok es ↔
    List.Forall₂ (fun d e => d.evaluate x = .ok e) ds es := by
  induction ds generalizing es with
  | nil => cases es <;> simp [evaluateAll]
  | cons d ds ih =>
    rw [evaluateAll,Except.bind_eq_ok_iff]
    constructor
    · rintro ⟨e,he,h⟩
      obtain ⟨es',hes,h⟩ := Except.bind_eq_ok_iff.mp h
      cases h
      exact .cons he (ih.mp hes)
    · intro h
      cases h with
      | cons he hes => exact ⟨_,he,Except.bind_eq_ok_iff.mpr ⟨_,ih.mpr hes,rfl⟩⟩

theorem evaluate_of_null (ha : d.address = .null) : d.evaluate x = .ok d := by
  cases d <;> exact if_pos (Module.isNull_iff.mpr ha)

theorem evaluate_of_valueAt (h : d.valueAt x = .ok e) : d.evaluate x = .ok e := by
  unfold valueAt at h
  split at h
  · rename_i ha
    rw [← h]
    exact evaluate_of_null (Module.isNull_iff.mp ha)
  · split at h
    · exact h
    · contradiction

theorem exists_of_evaluate_simple {k : Head} (hk : k.address ≠ .null)
    (h : (simple k m).evaluate x = .ok e) :
    ∃ w, m.apply x = .ok w ∧ e = .simple (movedTo k .null) (.constant .null w) := by
  rw [evaluate,if_neg (mt Module.isNull_iff.mp hk)] at h
  obtain ⟨w,hw,h⟩ := Except.bind_eq_ok_iff.mp h
  cases h
  exact ⟨w,hw,rfl⟩

theorem reworked_of_evaluate (h : d.evaluate x = .ok e) (hd : d.morphism? = none)
    (ha : d.address ≠ .null) : Reworked (fun f f' => f.evaluate x = .ok f') .null d e := by
  have hnull (k : Head) (hk : d.head = k) : ¬ k.address.isNull := by
    rw [Module.isNull_iff]
    exact hk ▸ ha
  cases d with
  | simple k c => cases hd
  | colimit k i f =>
    rw [evaluate,if_neg (hnull k rfl)] at h
    obtain ⟨e',he',h⟩ := Except.bind_eq_ok_iff.mp h
    cases h
    exact ⟨rfl,rfl,rfl,rfl,[e'],.cons he' .nil,rfl⟩
  | limit k ds | power k ds | list k ds =>
    rw [evaluate,if_neg (hnull k rfl)] at h
    obtain ⟨es,hes,h⟩ := Except.bind_eq_ok_iff.mp h
    cases h
    exact ⟨rfl,rfl,rfl,rfl,es,evaluateAll_eq_ok_iff.mp hes,rfl⟩

/-- A value at an element has no address left. -/
theorem WellFormed.evaluate (hu : g.NamesUnique) (hd : WellFormed g d)
    (h : d.evaluate x = .ok e) : WellFormed g e ∧ e.form = d.form ∧ e.address = .null := by
  induction d using factor_induction generalizing e with
  | h d ih =>
    by_cases ha : d.address = .null
    · rw [evaluate_of_null ha] at h
      cases h
      exact ⟨hd,rfl,ha⟩
    obtain ⟨hnode,hfactors⟩ := (wellFormed_iff hu).mp hd
    by_cases hm : d.morphism? = none
    · have hr := reworked_of_evaluate h hm ha
      refine ⟨hd.reworked hu hr rfl fun f hf f' hff => ?_,hr.form,hr.address⟩
      obtain ⟨hwf,hform,haddress⟩ := ih f hf (hfactors f hf) hff
      exact ⟨hform,hwf,.inl haddress⟩
    · cases d with
      | limit | colimit | power | list => exact absurd rfl hm
      | simple k c =>
        have hk : ¬ k.address.isNull := mt Module.isNull_iff.mp ha
        rw [Denotator.evaluate,if_neg hk] at h
        obtain ⟨v,hv,h⟩ := Except.bind_eq_ok_iff.mp h
        cases h
        obtain ⟨⟨b,hb,hbody⟩,-,hc⟩ := (wellFormed_simple_iff hu).mp hd
        have hmodule := Morphism.module_of_apply hv hc
        refine ⟨(wellFormed_simple_iff hu).mpr ⟨⟨b,hb,?_⟩,rfl,?_⟩,rfl,rfl⟩
        · rw [hbody,← hmodule]; rfl
        · simp [Morphism.modulesProper,Module.isProper,hmodule,Morphism.isProper_codomain hc]

theorem WellFormed.valueAt (hu : g.NamesUnique) (hd : WellFormed g d)
    (h : d.valueAt x = .ok e) : WellFormed g e := by
  unfold Denotator.valueAt at h
  split at h
  · cases h
    exact hd
  · split at h
    · exact (hd.evaluate hu h).1
    · contradiction

theorem reworked_of_readdress (h : d.readdress old new m = .ok e) (hd : d.morphism? = none) :
    Reworked (fun f f' => (if f.address = old then f.readdress old new m else .ok f) = .ok f')
      new d e := by
  cases d with
  | simple k c => cases hd
  | colimit k i f =>
    have h' : ((if f.address = old then f.readdress old new m else .ok f) >>= fun f' =>
        .ok (.colimit (movedTo k new) i f')) = .ok e := by
      rw [← h,readdress]
      split <;> rfl
    obtain ⟨f',hf',h'⟩ := Except.bind_eq_ok_iff.mp h'
    cases h'
    exact ⟨rfl,rfl,rfl,rfl,[f'],.cons hf' .nil,rfl⟩
  | limit k ds | power k ds | list k ds =>
    rw [readdress] at h
    obtain ⟨es,hes,h⟩ := Except.bind_eq_ok_iff.mp h
    cases h
    exact ⟨rfl,rfl,rfl,rfl,es,readdressAll_eq_ok_iff.mp hes,rfl⟩

theorem WellFormed.readdress (hu : g.NamesUnique) (hd : WellFormed g d)
    (hm : m.Leads new d.address) (h : d.readdress d.address new m = .ok e) :
    WellFormed g e ∧ e.form = d.form ∧ e.address = new := by
  have hnew : new.isProper := hm.domain ▸ Morphism.isProper_domain hm.proper
  generalize hold : d.address = old at h hm
  induction d using factor_induction generalizing e with
  | h d ih =>
    obtain ⟨hnode,hfactors⟩ := (wellFormed_iff hu).mp hd
    by_cases hc : d.morphism? = none
    · have hr := reworked_of_readdress h hc
      refine ⟨hd.reworked hu hr hnew fun f hf f' hff => ?_,hr.form,hr.address⟩
      split at hff <;> rename_i hf'
      · obtain ⟨hwf,hform,haddress⟩ := ih f hf (hfactors f hf) hf' hff
        exact ⟨hform,hwf,.inr haddress⟩
      · cases hff
        have hnull := (hnode.address f hf).resolve_right fun he => hf' (he.trans hold)
        exact ⟨rfl,hfactors f hf,.inl hnull⟩
    · cases d with
      | limit | colimit | power | list => exact absurd rfl hc
      | simple k c =>
        rw [Denotator.readdress] at h
        obtain ⟨c',hc',h⟩ := Except.bind_eq_ok_iff.mp h
        cases h
        obtain ⟨⟨b,hb,hbody⟩,-,hproper⟩ := (wellFormed_simple_iff hu).mp hd
        have hleads := Morphism.leads_of_compose hc' hproper hm.proper
        refine ⟨(wellFormed_simple_iff hu).mpr ⟨⟨b,hb,?_⟩,?_,hleads.proper⟩,rfl,rfl⟩
        · rw [hbody,hleads.codomain]
        · exact hleads.domain.trans hm.domain

theorem WellFormed.isProper (hd : WellFormed g d) : d.address.isProper :=
  (hd.proper d (self_mem_nodes d)).1

theorem WellFormed.readdressTo? (hu : g.NamesUnique) (hd : WellFormed g d) (ha : a.isProper)
    (h : d.readdressTo? a = some e) :
    WellFormed g e ∧ e.form = d.form ∧ e.address = a := by
  unfold Denotator.readdressTo? at h
  split at h
  · cases h
    exact ⟨hd,rfl,‹_›⟩
  · obtain ⟨m,hm,h⟩ := Option.bind_eq_some_iff.mp h
    have hleads := Morphism.leads_of_canonical? hm ha hd.isProper
    cases hr : d.readdress d.address a m with
    | error err => rw [hr] at h; cases h
    | ok e' =>
      rw [hr] at h
      cases h
      exact hd.readdress hu hleads hr

theorem WellFormed.readdressAlong (hu : g.NamesUnique) (hd : WellFormed g d)
    (hm : m.modulesProper) (h : d.readdressAlong m = .ok e) : WellFormed g e := by
  unfold Denotator.readdressAlong at h
  split at h
  · split at h
    · cases h
      exact (hd.readdressTo? hu (Morphism.isProper_domain hm) ‹_›).1
    · contradiction
  · split at h
    · contradiction
    · rename_i hc
      have hleads : m.Leads m.domain d.address := ⟨rfl,not_not.mp hc,hm⟩
      cases hr : d.readdress d.address m.domain m with
      | error err => rw [hr] at h; cases h
      | ok e' =>
        rw [hr] at h
        cases h
        exact (hd.readdress hu hleads hr).1


end Denotator
end AddressedForms
