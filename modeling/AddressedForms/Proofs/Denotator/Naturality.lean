import AddressedForms.Proofs.Address.Composition
import AddressedForms.Proofs.Denotator.WellFormed
import AddressedForms.Proofs.Document.DenotatorRoundTrip
set_option autoImplicit false

/-!
Naturality of the change of address. A denotator that is moved along a morphism has at every element
the value that it had at the image of the element, sets that merge on the way included.
-/

namespace AddressedForms
namespace Denotator
variable {g : FormGraph} {d e u v : Denotator} {a b old new : Module} {m : Morphism} {x y : Element}

theorem Reworked.unique {P Q R : Denotator → Denotator → Prop} (he : Reworked P a d e)
    (hu : Reworked Q b e u) (hv : Reworked R b d v)
    (h : ∀ f ∈ d.factors, ∀ e' u' v', P f e' → Q e' u' → R f v' → u' = v') : u = v := by
  have hkind : u.kind = v.kind := hu.kind.trans (he.kind.trans hv.kind.symm)
  refine ext_head ?_ hkind (hu.index.trans (he.index.trans hv.index.symm))
    (morphism?_eq_of_kind hkind hv.no_morphism) ?_
  · rw [hu.head,he.head,hv.head]
    rfl
  obtain ⟨es,hes,hefactors⟩ := he.factors
  obtain ⟨us,hus,hufactors⟩ := hu.factors
  obtain ⟨vs,hvs,hvfactors⟩ := hv.factors
  rw [hufactors,hvfactors,he.kind]
  rw [hefactors] at hus
  by_cases hk : d.kind = .power
  · rw [if_pos hk] at hus ⊢
    rw [if_pos hk]
    refine (strictlySorted_asSet us).eq_of_mem_iff (strictlySorted_asSet vs) fun z => ?_
    rw [mem_asSet,mem_asSet]
    constructor
    · intro hz
      obtain ⟨e',he',hq⟩ := exists_of_forall₂_right hus hz
      obtain ⟨f,hf,hp⟩ := exists_of_forall₂_right hes ((mem_asSet e' es).mp he')
      obtain ⟨v',hv',hr⟩ := exists_of_forall₂_left hvs hf
      exact h f hf e' z v' hp hq hr ▸ hv'
    · intro hz
      obtain ⟨f,hf,hr⟩ := exists_of_forall₂_right hvs hz
      obtain ⟨e',he',hp⟩ := exists_of_forall₂_left hes hf
      obtain ⟨u',hu',hq⟩ := exists_of_forall₂_left hus ((mem_asSet e' es).mpr he')
      exact h f hf e' u' z hp hq hr ▸ hu'
  · rw [if_neg hk] at hus ⊢
    rw [if_neg hk]
    have hmem := forall₂_of_mem hes fun f hf e' _ hp => And.intro hf hp
    have hboth := forall₂_comp (forall₂_comp hmem hus).flip hvs
    rw [← List.forall₂_eq_eq_eq]
    refine hboth.imp fun u' v' huv => ?_
    obtain ⟨f,⟨e',⟨hf,hp⟩,hq⟩,hr⟩ := huv
    exact h f hf e' u' v' hp hq hr

/-- Of a simple node and of a composite alike, the value after a change of address is the value at
the image of the element. -/
theorem evaluate_readdress (hv : d.validate g = .ok ()) (hold : d.address = old)
    (hnull : old ≠ .null) (hnew : new ≠ .null)
    (hp : ∀ n ∈ d.nodes, ∀ f, n.morphism? = some f → f.modulesProper ∧ ¬ f.scalesReals)
    (hm : m.modulesProper) (hy : m.apply x = .ok y) (he : d.readdress old new m = .ok e)
    (hu : e.evaluate x = .ok u) (hdv : d.evaluate y = .ok v) : u = v := by
  induction d using factor_induction generalizing e u v with
  | h d ih =>
    have hd : d.address ≠ .null := hold ▸ hnull
    have he' : e.address ≠ .null := address_of_readdress he ▸ hnew
    by_cases hc : d.morphism? = none
    · have hr := reworked_of_readdress he hc
      refine hr.unique (reworked_of_evaluate hu hr.no_morphism he')
        (reworked_of_evaluate hdv hc hd) ?_
      intro f hf f' u' v' hff hu' hv'
      obtain ⟨hvalid,haddress⟩ := validate_of_mem_factors hv hf
      split at hff <;> rename_i hfo
      · exact ih f hf hvalid hfo (fun n hn => hp n (nodes_trans hn (mem_nodes_of_mem_factors hf)))
          hff hu' hv'
      · cases hff
        have hfn : f.address = .null := haddress.resolve_right fun h => hfo (h.trans hold)
        rw [evaluate_of_null hfn] at hu' hv'
        cases hu'
        cases hv'
        rfl
    · cases d with
      | limit | colimit | power | list => exact absurd rfl hc
      | simple k c =>
        obtain ⟨hcp,hcr⟩ := hp _ (self_mem_nodes _) c rfl
        rw [readdress] at he
        obtain ⟨c',hc',he⟩ := Except.bind_eq_ok_iff.mp he
        cases he
        obtain ⟨w,hw,rfl⟩ := exists_of_evaluate_simple he' hu
        obtain ⟨z,hz,rfl⟩ := exists_of_evaluate_simple hd hdv
        rw [Morphism.apply_compose hc' hcp hm hcr hw hy hz]
        rfl

theorem exists_readdress_of_readdressTo? (h : d.readdressTo? a = some e) (ha : d.address ≠ a) :
    ∃ c, Morphism.canonical? a d.address = some c ∧ d.readdress d.address a c = .ok e := by
  rw [readdressTo?,if_neg ha] at h
  obtain ⟨c,hc,h⟩ := Option.bind_eq_some_iff.mp h
  cases hr : d.readdress d.address a c with
  | error err => rw [hr] at h; cases h
  | ok e' =>
    rw [hr] at h
    cases h
    exact ⟨c,hc,hr⟩

theorem module_of_valueAt (h : d.valueAt x = .ok u) (ha : d.address ≠ .null) :
    x.module = d.address := by
  rw [valueAt,if_neg (mt Module.isNull_iff.mp ha)] at h
  split at h
  · rename_i hc
    exact of_decide_eq_true hc
  · contradiction

/-- Moving along a morphism and then taking the value at an element is taking the value at its
image; along a canonical morphism the image always exists. -/
theorem valueAt_naturality (hv : d.validate g = .ok ()) (ha : d.address ≠ .null)
    (hp : ∀ n ∈ d.nodes, n.address.isProper ∧ ∀ f, n.morphism? = some f → f.modulesProper)
    (hr : ∀ n ∈ d.nodes, ∀ f, n.morphism? = some f → ¬ f.scalesReals) :
    (∀ m e x y u v, m.modulesProper → m.domain ≠ .null → d.readdressAlong m = .ok e →
      e.valueAt x = .ok u → m.apply x = .ok y → d.valueAt y = .ok v → u = v) ∧
    ∀ a e x u, a.isProper → a ≠ .null → d.readdressTo? a = some e → e.valueAt x = .ok u →
      ∃ c y, Morphism.canonical? a d.address = some c ∧ c.apply x = .ok y ∧
        ∀ v, d.valueAt y = .ok v → u = v := by
  have hnodes : ∀ n ∈ d.nodes, ∀ f, n.morphism? = some f → f.modulesProper ∧ ¬ f.scalesReals :=
    fun n hn f hf => ⟨(hp n hn).2 f hf,hr n hn f hf⟩
  refine ⟨fun m e x y u v hm hnew he hu hy hdv => ?_,fun a e x u hap hnew he hu => ?_⟩
  · rw [readdressAlong,if_neg (mt Module.isNull_iff.mp ha)] at he
    split at he
    · contradiction
    · exact evaluate_readdress hv rfl ha hnew hnodes hm hy (Except.mapError_eq_ok_iff.mp he)
        (evaluate_of_valueAt hu) (evaluate_of_valueAt hdv)
  · by_cases had : d.address = a
    · subst had
      rw [readdressTo?,if_pos rfl] at he
      cases he
      refine ⟨.identity d.address,x,if_pos rfl,?_,fun v hdv => Except.ok.inj (hu.symm.trans hdv)⟩
      have hx := Morphism.requireIn_eq_ok_iff.mpr (module_of_valueAt hu ha)
      exact Except.check_eq_ok_iff.mpr ⟨hx,rfl⟩
    · obtain ⟨c,hc,he⟩ := exists_readdress_of_readdressTo? he had
      have hea := address_of_readdress he
      have hx := module_of_valueAt hu (hea ▸ hnew)
      obtain ⟨y,hy⟩ := Morphism.exists_of_canonical? hc (hx.trans hea)
      have hm := (Morphism.leads_of_canonical? hc hap (hp d (self_mem_nodes d)).1).proper
      exact ⟨c,y,hc,hy,fun v hdv => evaluate_readdress hv rfl ha hnew hnodes hm hy he
        (evaluate_of_valueAt hu) (evaluate_of_valueAt hdv)⟩

def cadence : Denotator :=
  .power ⟨⟨2⟩,none,.z⟩
    [.list ⟨⟨1⟩,none,.z⟩ [.simple ⟨⟨0⟩,none,.z⟩ (.constant .z (.z 60))],
      .list ⟨⟨1⟩,none,.z⟩ [.simple ⟨⟨0⟩,none,.z⟩ (.identity .z)]]

def cadenceAt (address : Module) : Denotator :=
  .power ⟨⟨2⟩,none,address⟩
    [.list ⟨⟨1⟩,none,address⟩ [.simple ⟨⟨0⟩,none,address⟩ (.constant address (.z 60))]]

/-- Moved along a constant, the two chords become one, which has the value of both. -/
theorem valueAt_cadence : cadence.readdressAlong (.constant .q (.z 60)) = .ok (cadenceAt .q) ∧
    (cadenceAt .q).valueAt (.q (.ofInt64 5)) = .ok (cadenceAt .null) ∧
    cadence.valueAt (.z 60) = .ok (cadenceAt .null) := by
  have hnodes : ∀ n ∈ cadence.nodes, (n.address.isProper ∧
      ∀ f, n.morphism? = some f → f.modulesProper) ∧
      ∀ f, n.morphism? = some f → ¬ f.scalesReals := by
    intro n hn
    simp only [cadence,nodes,allNodes,List.cons_append,List.nil_append,List.mem_cons,
      List.not_mem_nil,or_false] at hn
    rcases hn with rfl | rfl | rfl | rfl | rfl <;>
      exact ⟨⟨by decide,by rintro _ ⟨⟩ <;> decide⟩,by rintro _ ⟨⟩ <;> decide⟩
  obtain ⟨hmoved,-⟩ := @valueAt_naturality .scores cadence (by cbv) (by decide)
    (fun n hn => (hnodes n hn).1) fun n hn => (hnodes n hn).2
  have he : cadence.readdressAlong (.constant .q (.z 60)) = .ok (cadenceAt .q) := by cbv
  have hu : (cadenceAt .q).valueAt (.q (.ofInt64 5)) = .ok (cadenceAt .null) := by cbv
  have hok : (cadence.valueAt (.z 60)).toOption.isSome := by cbv
  cases hv : cadence.valueAt (.z 60) with
  | error err => rw [hv] at hok; cases hok
  | ok v =>
    have hy : (Morphism.constant .q (.z 60)).apply (.q (.ofInt64 5)) = .ok (.z 60) := by cbv
    have huv := hmoved _ _ _ _ _ v (by decide) (by decide) he hu hy hv
    exact ⟨he,hu,congrArg Except.ok huv.symm⟩

end Denotator
end AddressedForms
