import AddressedForms.Proofs.Denotator.WellFormed
import AddressedForms.Proofs.Document.DenotatorRoundTrip
set_option autoImplicit false

/-!
The operations on denotators, constructors and edits alike, make well-formed denotators of
well-formed ones.
-/

namespace AddressedForms
namespace Denotator
variable {g : FormGraph} {d e f new : Denotator} {ds : List Denotator} {a parent : Module}
  {m : Morphism} {x : Element} {form sub : FormId} {b : Form} {i k : Nat} {path : List Nat}

theorem WellFormed.of_mem_nodes (hu : g.NamesUnique) (hd : WellFormed g d) {n : Denotator}
    (hn : n ∈ d.nodes) : WellFormed g n := by
  induction d using factor_induction with
  | h d ih =>
    rw [nodes_eq,List.mem_cons,mem_allNodes] at hn
    rcases hn with rfl | ⟨f,hf,hn⟩
    · exact hd
    · exact ih f hf (((wellFormed_iff hu).mp hd).2 f hf) hn

theorem WellFormed.of_mem_factors (hu : g.NamesUnique) (hd : WellFormed g d)
    (hf : f ∈ d.factors) : WellFormed g f := hd.of_mem_nodes hu (mem_nodes_of_mem_factors hf)

section Constructors

theorem WellFormed.ofElement (hu : g.NamesUnique) (hg : g.ModulesProper)
    (hx : x.module.isProper) (h : ofElement g form x = .ok d) : WellFormed g d := by
  obtain ⟨⟨name,body,labels,registered⟩,hf,h⟩ := Except.bind_eq_ok_iff.mp h
  obtain ⟨hf,hk⟩ := requireKind_eq_ok_iff.mp hf
  obtain ⟨n,rfl⟩ : ∃ n, body = .simple n := by
    cases body <;> cases hk
    exact ⟨_,rfl⟩
  have hn : n.isProper := hg form _ n hf rfl
  have hvalue (v : Element) (hv : v.module = n) :
      WellFormed g (.simple ⟨form,none,.null⟩ (.constant .null v)) :=
    (wellFormed_simple_iff hu).mpr ⟨⟨_,hf,congrArg Body.simple hv.symm⟩,rfl,
      by simp [Morphism.modulesProper,Module.isProper,hv,hn]⟩
  dsimp only [Form.module?,Option.getD_some] at h
  split at h
  · cases h
    rename_i hx
    exact hvalue x (of_decide_eq_true hx)
  · split at h
    · rename_i c hc
      obtain ⟨v,hv,h⟩ := Except.bind_eq_ok_iff.mp h
      cases h
      have hleads := Morphism.leads_of_canonical? hc hx hn
      have happly := Except.mapError_eq_ok_iff.mp hv
      exact hvalue v ((Morphism.module_of_apply happly hleads.proper).trans hleads.codomain)
    · cases h

theorem WellFormed.ofMorphism (hu : g.NamesUnique) (hm : m.modulesProper)
    (h : ofMorphism g form m = .ok d) : WellFormed g d := by
  obtain ⟨⟨name,body,labels,registered⟩,hf,h⟩ := Except.bind_eq_ok_iff.mp h
  obtain ⟨hf,hk⟩ := requireKind_eq_ok_iff.mp hf
  cases body <;> cases hk
  dsimp only at h
  split at h <;> cases h
  rename_i hc
  exact (wellFormed_simple_iff hu).mpr ⟨⟨_,hf,congrArg Body.simple hc.symm⟩,rfl,hm⟩

theorem isProper_of_sharedAddress (hds : ∀ d ∈ ds, WellFormed g d)
    (hs : sharedAddress ds = .ok a) : a.isProper ∧
      ∀ d ∈ ds, WellFormed g d ∧ (d.address = .null ∨ d.address = a) := by
  obtain ⟨hall,hsome⟩ := sharedAddress_eq_ok_iff.mp hs
  refine ⟨?_,fun d hd => ⟨hds d hd,hall d hd⟩⟩
  rcases hsome with rfl | ⟨d,hd,rfl⟩
  · rfl
  · exact (hds d hd).isProper

theorem WellFormed.ofLimit (hu : g.NamesUnique) (hds : ∀ d ∈ ds, WellFormed g d)
    (h : ofLimit g form ds = .ok d) : WellFormed g d := by
  obtain ⟨⟨name,body,labels,registered⟩,hf,h⟩ := Except.bind_eq_ok_iff.mp h
  obtain ⟨hf,hk⟩ := requireKind_eq_ok_iff.mp hf
  cases body <;> cases hk
  split at h
  · contradiction
  · rename_i hlen
    obtain ⟨hforms,h⟩ := Except.check_eq_ok_iff.mp h
    obtain ⟨s,hs,h⟩ := Except.bind_eq_ok_iff.mp h
    cases h
    obtain ⟨hproper,hfactors⟩ := isProper_of_sharedAddress hds hs
    have hfit := (checkForms_eq_ok_iff hu (not_not.mp hlen).symm).mp hforms
    exact wellFormed_of_factors hu hf (.limit hfit) rfl nofun hproper hfactors

theorem WellFormed.ofVariant (hu : g.NamesUnique) (he : WellFormed g e)
    (h : ofVariant g form i e = .ok d) : WellFormed g d := by
  obtain ⟨⟨name,body,labels,registered⟩,hf,h⟩ := Except.bind_eq_ok_iff.mp h
  obtain ⟨hf,hk⟩ := requireKind_eq_ok_iff.mp hf
  cases body <;> cases hk
  obtain ⟨sub,hsub,h⟩ := Except.bind_eq_ok_iff.mp h
  obtain ⟨hform,h⟩ := Except.check_eq_ok_iff.mp h
  cases h
  have hfit := Fits.colimit (h := ⟨form,none,e.address⟩) (subForm_colimit_eq_ok_iff.mp hsub)
    ((checkForm_eq_ok_iff hu).mp hform)
  refine wellFormed_of_factors hu hf hfit rfl nofun he.isProper fun f hf => ?_
  obtain rfl := List.mem_singleton.mp hf
  exact ⟨he,.inr rfl⟩

theorem WellFormed.ofSet (hu : g.NamesUnique) (hds : ∀ d ∈ ds, WellFormed g d)
    (h : ofSet g form ds = .ok d) : WellFormed g d := by
  obtain ⟨⟨name,body,labels,registered⟩,hf,h⟩ := Except.bind_eq_ok_iff.mp h
  obtain ⟨hf,hk⟩ := requireKind_eq_ok_iff.mp hf
  cases body <;> cases hk
  obtain ⟨base,hbase,h⟩ := Except.bind_eq_ok_iff.mp h
  cases hbase
  obtain ⟨hforms,h⟩ := Except.check_eq_ok_iff.mp h
  obtain ⟨s,hs,h⟩ := Except.bind_eq_ok_iff.mp h
  cases h
  obtain ⟨hproper,hfactors⟩ := isProper_of_sharedAddress hds hs
  have hmem (d : Denotator) : d ∈ asSet ds → d ∈ ds := (mem_asSet d ds).mp
  have hfit := (checkAll_eq_ok_iff hu).mp hforms
  exact wellFormed_of_factors hu hf (.power fun d hd => hfit d (hmem d hd)) rfl
    (fun _ => strictlySorted_asSet ds) hproper fun d hd => hfactors d (hmem d hd)

theorem WellFormed.ofList (hu : g.NamesUnique) (hds : ∀ d ∈ ds, WellFormed g d)
    (h : ofList g form ds = .ok d) : WellFormed g d := by
  obtain ⟨⟨name,body,labels,registered⟩,hf,h⟩ := Except.bind_eq_ok_iff.mp h
  obtain ⟨hf,hk⟩ := requireKind_eq_ok_iff.mp hf
  cases body <;> cases hk
  obtain ⟨base,hbase,h⟩ := Except.bind_eq_ok_iff.mp h
  cases hbase
  obtain ⟨hforms,h⟩ := Except.check_eq_ok_iff.mp h
  obtain ⟨s,hs,h⟩ := Except.bind_eq_ok_iff.mp h
  cases h
  obtain ⟨hproper,hfactors⟩ := isProper_of_sharedAddress hds hs
  exact wellFormed_of_factors hu hf (.list ((checkAll_eq_ok_iff hu).mp hforms)) rfl nofun hproper
    hfactors

theorem Fits.withHead {body : Body} {k : Head} (hd : Fits g body d) (hk : k.address = d.address) :
    Fits g body (d.withHead k) := by
  cases hd with
  | simple hd => exact .simple (hd.trans hk.symm)
  | limit hf => exact .limit hf
  | colimit hs hf => exact .colimit hs hf
  | power hf => exact .power hf
  | list hf => exact .list hf

theorem WellFormed.rename (hu : g.NamesUnique) (hd : WellFormed g d) (name : Option String) :
    WellFormed g (d.withHead {d.head with name := name}) := by
  obtain ⟨hnode,hfactors⟩ := (wellFormed_iff hu).mp hd
  obtain ⟨b,hb,hfit⟩ := hnode.node
  have hform : (d.withHead {d.head with name := name}).form = d.form := by simp [Denotator.form]
  have haddress : (d.withHead {d.head with name := name}).address = d.address := by
    simp [Denotator.address]
  refine (wellFormed_iff hu).mpr ⟨⟨⟨⟨b,hform ▸ hb,hfit.withHead rfl⟩,?_⟩,?_,?_,?_⟩,?_⟩
  · simpa [haddress] using hnode.address
  · simpa using hnode.sorted
  · exact haddress ▸ hnode.proper
  · simpa using hnode.coordinate
  · simpa using hfactors

end Constructors

section Edits

/-- The form of a denotator has a sub-form in some position that is like a form. -/
def Expects (g : FormGraph) (d : Denotator) (i : Nat) (id : FormId) : Prop :=
  ∃ b sub, g.get? d.form = some b ∧ b.subForm i = .ok sub ∧ g.Similar sub id

/-- A factor that is fitted keeps its form and goes with the address it is stored under. -/
structure Fitted (g : FormGraph) (parent : Module) (f f' : Denotator) (a : Module) : Prop where
  wellFormed : WellFormed g f'
  form : f'.form = f.form
  address : f'.address = .null ∨ f'.address = a
  parent : parent = .null ∨ parent = a
  proper : a.isProper

theorem fitted_of_fitUnder (hu : g.NamesUnique) (hf : WellFormed g f) (hp : parent.isProper)
    {f' : Denotator} (h : fitUnder parent f = .ok (f',a)) : Fitted g parent f f' a := by
  unfold fitUnder at h
  split at h
  · cases h
    rename_i ha
    exact ⟨hf,rfl,ha.imp_left Module.isNull_iff.mp,.inr rfl,hp⟩
  · split at h
    · cases h
      rename_i hn
      exact ⟨hf,rfl,.inr rfl,.inl (Module.isNull_iff.mp hn),hf.isProper⟩
    · split at h
      · cases h
        rename_i hm
        obtain ⟨hwf,hform,haddress⟩ := hf.readdressTo? hu hp hm
        exact ⟨hwf,hform,.inr haddress,.inr rfl,hp⟩
      · contradiction

theorem SoundNode.goesWith (hd : SoundNode g d) (ha : d.address = .null ∨ d.address = a) :
    ∀ f ∈ d.factors, f.address = .null ∨ f.address = a := by
  intro f hf
  rcases hd.address f hf with h | h
  · exact .inl h
  · exact ha.imp h.trans h.trans

theorem WellFormed.withFactor (hu : g.NamesUnique) (hd : WellFormed g d)
    (hm : d.morphism? = none) (he : Expects g d i f.form) {f' : Denotator}
    (hf : Fitted g d.address f f' a) : WellFormed g (d.withFactor i a f') := by
  obtain ⟨b,sub,hb,hsub,hform⟩ := he
  obtain ⟨hnode,hfactors⟩ := (wellFormed_iff hu).mp hd
  have hother := hnode.goesWith hf.parent
  obtain ⟨b',hb',hfit⟩ := hnode.node
  cases hb.symm.trans hb'
  rw [← hf.form] at hform
  obtain ⟨name,body,labels,registered⟩ := b
  have hset {ds : List Denotator} {P : Denotator → Prop} (hds : ∀ d ∈ ds, P d) (hnew : P f') :
      ∀ d ∈ ds.set i f', P d := by
    intro d hd
    rcases List.mem_or_eq_of_mem_set hd with hd | rfl
    · exact hds d hd
    · exact hnew
  have hall : ∀ f ∈ d.factors, WellFormed g f ∧ (f.address = .null ∨ f.address = a) :=
    fun f hf => ⟨hfactors f hf,hother f hf⟩
  have hnew : WellFormed g f' ∧ (f'.address = .null ∨ f'.address = a) :=
    ⟨hf.wellFormed,hf.address⟩
  generalize hbody : body = body' at hfit
  cases hfit with
  | simple hd => cases hm
  | @limit subs k ds hsubs =>
    subst hbody
    have hi : subs[i]? = some sub := by
      cases hs : subs[i]? <;> simp_all [Form.subForm]
    exact wellFormed_of_factors hu hb (.limit (forall₂_set hsubs hi hform)) rfl (by rintro ⟨⟩)
      hf.proper (hset hall hnew)
  | @colimit subs sub' k j e hs he =>
    subst hbody
    have hi : subs[i]? = some sub := by
      cases hs : subs[i]? <;> simp_all [Form.subForm]
    refine wellFormed_of_factors hu hb (.colimit hi hform) rfl (by rintro ⟨⟩) hf.proper
      fun f hf => ?_
    obtain rfl := List.mem_singleton.mp hf
    exact hnew
  | @power base k ds hds =>
    subst hbody
    cases hsub
    have hmem (d : Denotator) : d ∈ asSet (ds.set i f') → d ∈ ds.set i f' := (mem_asSet d _).mp
    exact wellFormed_of_factors hu hb (.power fun d hd => hset hds hform d (hmem d hd)) rfl
      (fun _ => strictlySorted_asSet _) hf.proper fun d hd => hset hall hnew d (hmem d hd)
  | @list base k ds hds =>
    subst hbody
    cases hsub
    exact wellFormed_of_factors hu hb (.list (hset hds hform)) rfl (by rintro ⟨⟩) hf.proper
      (hset hall hnew)

theorem WellFormed.withNewFactor (hu : g.NamesUnique) (hd : WellFormed g d)
    (hk : d.kind = .power ∨ d.kind = .list) (he : Expects g d i f.form) {f' : Denotator}
    (hf : Fitted g d.address f f' a) : WellFormed g (d.withNewFactor a f') := by
  obtain ⟨b,sub,hb,hsub,hform⟩ := he
  obtain ⟨hnode,hfactors⟩ := (wellFormed_iff hu).mp hd
  obtain ⟨b',hb',hfit⟩ := hnode.node
  cases hb.symm.trans hb'
  rw [← hf.form] at hform
  obtain ⟨name,body,labels,registered⟩ := b
  have hpush {ds : List Denotator} {P : Denotator → Prop} (hds : ∀ d ∈ ds, P d) (hnew : P f') :
      ∀ d ∈ ds ++ [f'], P d := by
    simpa [or_imp,forall_and] using ⟨hds,hnew⟩
  have hall : ∀ f ∈ d.factors, WellFormed g f ∧ (f.address = .null ∨ f.address = a) :=
    fun f h => ⟨hfactors f h,hnode.goesWith hf.parent f h⟩
  have hnew : WellFormed g f' ∧ (f'.address = .null ∨ f'.address = a) :=
    ⟨hf.wellFormed,hf.address⟩
  generalize hbody : body = body' at hfit
  cases hfit with
  | simple | limit | colimit => simp [kind] at hk
  | @power base k ds hds =>
    subst hbody
    cases hsub
    have hmem (d : Denotator) : d ∈ asSet (ds ++ [f']) → d ∈ ds ++ [f'] := (mem_asSet d _).mp
    exact wellFormed_of_factors hu hb (.power fun d hd => hpush hds hform d (hmem d hd)) rfl
      (fun _ => strictlySorted_asSet _) hf.proper fun d hd => hpush hall hnew d (hmem d hd)
  | @list base k ds hds =>
    subst hbody
    cases hsub
    exact wellFormed_of_factors hu hb (.list (hpush hds hform)) rfl (by rintro ⟨⟩) hf.proper
      (hpush hall hnew)

theorem expects_of_accept (hu : g.NamesUnique) (hb : g.get? d.form = some b)
    (h : accept g b i k new = .ok f) : f = new ∧ Expects g d i new.form := by
  obtain ⟨sub,hsub,h⟩ := Except.bind_eq_ok_iff.mp h
  obtain ⟨hform,h⟩ := Except.check_eq_ok_iff.mp h
  cases h
  have hsub := Except.mapError_eq_ok_iff.mp (Except.mapError_eq_ok_iff.mp hsub)
  exact ⟨rfl,b,sub,hb,hsub,(checkForm_eq_ok_iff hu).mp hform⟩

theorem morphism?_of_step (h : d.step i k = .ok f) : d.morphism? = none := by
  cases d <;> first | rfl | cases h

theorem Fits.exists_subForm (hd : Fits g b.body d) (h : d.step i k = .ok f) :
    ∃ sub, b.subForm i = .ok sub ∧ g.Similar sub f.form := by
  obtain ⟨name,body,labels,registered⟩ := b
  obtain ⟨j,hj,hplace⟩ := step_eq_ok_iff.mp h
  generalize hbody : body = body' at hd
  cases hd with
  | simple => simp [factors] at hj
  | limit hf =>
    subst hbody
    obtain rfl : j = i := by simpa [index?] using hplace
    obtain ⟨sub,hsub,hs⟩ := getElem?_of_forall₂ hf hj
    exact ⟨sub,by simp [Form.subForm,hsub],hs⟩
  | @colimit subs sub h i' f' hs hf =>
    subst hbody
    obtain ⟨rfl,rfl⟩ : i' = i ∧ j = 0 := by simpa [index?] using hplace
    cases hj
    exact ⟨sub,by simp [Form.subForm,hs],hf⟩
  | power hf | list hf =>
    subst hbody
    exact ⟨_,rfl,hf f (List.mem_of_getElem? hj)⟩

theorem WellFormed.expects (hu : g.NamesUnique) (hd : WellFormed g d) (h : d.step i k = .ok f) :
    Expects g d i f.form := by
  obtain ⟨b,hb,hfit⟩ := ((wellFormed_iff hu).mp hd).1.node
  obtain ⟨sub,hsub,hs⟩ := hfit.exists_subForm h
  exact ⟨b,sub,hb,hsub,hs⟩

theorem form_withFactor (d : Denotator) (i : Nat) (a : Module) (f : Denotator) :
    (d.withFactor i a f).form = d.form := by cases d <;> rfl

/-- What a replacement below a node stores: the new denotator at the end of the path, and what the
factor in that position becomes before the end. -/
structure Replaces (g : FormGraph) (new : Denotator) (k i : Nat) (path : List Nat)
    (d e child f : Denotator) (a : Module) : Prop where
  composite : d.morphism? = none
  fit : fitUnder d.address child = .ok (f,a)
  stored : e = d.withFactor i a f
  child : child = new ∧ Expects g d i new.form ∨ path ≠ [] ∧
    ∃ f, d.step i k = .ok f ∧ replaceFrom g new (k+1) path f = .ok child

theorem exists_replaces (hu : g.NamesUnique) (h : replaceFrom g new k (i :: path) d = .ok e) :
    ∃ child f a, Replaces g new k i path d e child f a := by
  obtain ⟨b,hb,h⟩ := Except.bind_eq_ok_iff.mp h
  replace hb := requireForm_eq_ok_iff.mp hb
  have hstored {child : Denotator} (hm : d.morphism? = none)
      (h : (fitUnder d.address child >>= fun p => .ok (d.withFactor i p.2 p.1)) = .ok e)
      (hc : child = new ∧ Expects g d i new.form ∨ path ≠ [] ∧
        ∃ f, d.step i k = .ok f ∧ replaceFrom g new (k+1) path f = .ok child) :
      ∃ child f a, Replaces g new k i path d e child f a := by
    obtain ⟨⟨f,a⟩,hfit,h⟩ := Except.bind_eq_ok_iff.mp h
    cases h
    exact ⟨child,f,a,hm,hfit,rfl,hc⟩
  split at h
  · cases h
  · obtain ⟨child,hc,h⟩ := Except.bind_eq_ok_iff.mp h
    exact hstored rfl h (.inl (expects_of_accept hu hb hc))
  · obtain ⟨f,hf,h⟩ := Except.bind_eq_ok_iff.mp h
    obtain ⟨child,hc,h⟩ := Except.bind_eq_ok_iff.mp h
    exact hstored (morphism?_of_step (Except.mapError_eq_ok_iff.mp hf)) h
      (.inl (expects_of_accept hu hb hc))
  · obtain ⟨f,hf,h⟩ := Except.bind_eq_ok_iff.mp h
    obtain ⟨child,hc,h⟩ := Except.bind_eq_ok_iff.mp h
    have hstep := Except.mapError_eq_ok_iff.mp hf
    exact hstored (morphism?_of_step hstep) h (.inr ⟨List.cons_ne_nil _ _,f,hstep,hc⟩)

theorem WellFormed.replaceFrom (hu : g.NamesUnique) (hd : WellFormed g d)
    (hn : WellFormed g new) (h : replaceFrom g new k path d = .ok e) :
    WellFormed g e ∧ (path ≠ [] → e.form = d.form) := by
  induction path generalizing d e k with
  | nil =>
    cases h
    exact ⟨hn,fun h => absurd rfl h⟩
  | cons i path ih =>
    obtain ⟨child,f',a,hm,hfit,rfl,hchild⟩ := exists_replaces hu h
    have hwf : WellFormed g child ∧ Expects g d i child.form := by
      rcases hchild with ⟨rfl,hexp⟩ | ⟨hpath,f,hstep,hc⟩
      · exact ⟨hn,hexp⟩
      · obtain ⟨hwf,hform⟩ := ih (hd.of_mem_factors hu (mem_factors_of_step hstep)) hc
        exact ⟨hwf,hform hpath ▸ hd.expects hu hstep⟩
    have hfitted := fitted_of_fitUnder hu hwf.1 hd.isProper hfit
    exact ⟨hd.withFactor hu hm hwf.2 hfitted,fun _ => form_withFactor d i a f'⟩

theorem WellFormed.replace (hu : g.NamesUnique) (hd : WellFormed g d) (hn : WellFormed g new)
    (h : d.replace g path new = .ok e) : WellFormed g e := by
  cases path with
  | nil =>
    obtain ⟨-,h⟩ := Except.check_eq_ok_iff.mp h
    cases h
    exact hn
  | cons i path => exact (hd.replaceFrom hu hn h).1

theorem mem_nodes_of_get {d n : Denotator} {path : List Nat} (h : d.get path = .ok n) :
    n ∈ d.nodes := by
  induction path generalizing d with
  | nil =>
    cases h
    exact self_mem_nodes _
  | cons i path ih =>
    obtain ⟨f,hf,h⟩ := get_cons_eq_ok_iff.mp h
    exact nodes_trans (ih h) (mem_nodes_of_mem_factors (mem_factors_of_step hf))

theorem exists_of_map (h : d.map g path m = .ok e) : ∃ k c composed,
    d.get path = .ok (.simple k c) ∧ (m.domain = c.codomain ∧ m.codomain = c.codomain) ∧
      m.compose c = .ok composed ∧ d.replace g path (.simple k composed) = .ok e := by
  obtain ⟨target,htarget,h⟩ := Except.bind_eq_ok_iff.mp h
  have hget := Except.mapError_eq_ok_iff.mp htarget
  split at h
  · contradiction
  · rename_i c hc
    split at h
    · contradiction
    · rename_i hends
      obtain ⟨composed,hcomposed,h⟩ := Except.bind_eq_ok_iff.mp h
      cases target with
      | limit | colimit | power | list => cases hc
      | simple k c' =>
        cases hc
        rw [not_or,not_not,not_not] at hends
        exact ⟨k,c,composed,hget,hends,Except.mapError_eq_ok_iff.mp hcomposed,h⟩

theorem WellFormed.map (hu : g.NamesUnique) (hd : WellFormed g d) (hm : m.modulesProper)
    (h : d.map g path m = .ok e) : WellFormed g e := by
  obtain ⟨k,c,composed,hget,⟨-,hcodomain⟩,hcomposed,h⟩ := exists_of_map h
  have hwf := hd.of_mem_nodes hu (mem_nodes_of_get hget)
  obtain ⟨hform,hdomain,hproper⟩ := (wellFormed_simple_iff hu).mp hwf
  have hleads := Morphism.leads_of_compose hcomposed hm hproper
  exact hd.replace hu ((wellFormed_simple_iff hu).mpr
    ⟨hleads.codomain.trans hcodomain ▸ hform,hleads.domain.trans hdomain,hleads.proper⟩) h

theorem exists_of_setFactor (hu : g.NamesUnique) (h : d.setFactor g i new = .ok e) : ∃ f' a,
    d.morphism? = none ∧ Expects g d i new.form ∧ fitUnder d.address new = .ok (f',a) ∧
      e = d.withFactor i a f' := by
  obtain ⟨b,hb,h⟩ := Except.bind_eq_ok_iff.mp h
  obtain ⟨length,hlength,h⟩ := Except.bind_eq_ok_iff.mp h
  have hm : d.morphism? = none := by
    cases d <;> first | rfl | cases hlength
  split at h
  · contradiction
  · obtain ⟨f,hf,hstore⟩ := Except.bind_eq_ok_iff.mp h
    obtain ⟨rfl,hexp⟩ := expects_of_accept hu (requireForm_eq_ok_iff.mp hb) hf
    obtain ⟨⟨f',a⟩,hfit,hstore⟩ := Except.bind_eq_ok_iff.mp hstore
    cases hstore
    exact ⟨f',a,hm,hexp,hfit,rfl⟩

theorem WellFormed.setFactor (hu : g.NamesUnique) (hd : WellFormed g d) (hn : WellFormed g new)
    (h : d.setFactor g i new = .ok e) : WellFormed g e := by
  obtain ⟨f',a,hm,hexp,hfit,rfl⟩ := exists_of_setFactor hu h
  exact hd.withFactor hu hm hexp (fitted_of_fitUnder hu hn hd.isProper hfit)

theorem exists_of_pushFactor (hu : g.NamesUnique) (h : d.pushFactor g new = .ok e) : ∃ f' a,
    (d.kind = .power ∨ d.kind = .list) ∧ Expects g d 0 new.form ∧
      fitUnder d.address new = .ok (f',a) ∧ e = d.withNewFactor a f' := by
  obtain ⟨b,hb,h⟩ := Except.bind_eq_ok_iff.mp h
  split at h
  · contradiction
  · rename_i hk
    obtain ⟨f,hf,hstore⟩ := Except.bind_eq_ok_iff.mp h
    obtain ⟨rfl,hexp⟩ := expects_of_accept hu (requireForm_eq_ok_iff.mp hb) hf
    obtain ⟨⟨f',a⟩,hfit,hstore⟩ := Except.bind_eq_ok_iff.mp hstore
    cases hstore
    exact ⟨f',a,by tauto,hexp,hfit,rfl⟩

theorem WellFormed.pushFactor (hu : g.NamesUnique) (hd : WellFormed g d) (hn : WellFormed g new)
    (h : d.pushFactor g new = .ok e) : WellFormed g e := by
  obtain ⟨f',a,hk,hexp,hfit,rfl⟩ := exists_of_pushFactor hu h
  exact hd.withNewFactor hu hk hexp (fitted_of_fitUnder hu hn hd.isProper hfit)

end Edits

end Denotator

/-- The operations that make denotators, with the denotators and leaves they are applied to. -/
inductive Operation where
  | element (form : FormId) (x : Element)
  | morphism (form : FormId) (m : Morphism)
  | limit (form : FormId) (ds : List Denotator)
  | variant (form : FormId) (index : Nat) (d : Denotator)
  | set (form : FormId) (ds : List Denotator)
  | list (form : FormId) (ds : List Denotator)
  | named (d : Denotator) (name : String)
  | anonymous (d : Denotator)
  | valueAt (d : Denotator) (x : Element)
  | readdressTo (d : Denotator) (address : Module)
  | readdressAlong (d : Denotator) (m : Morphism)
  | replace (d : Denotator) (path : List Nat) (new : Denotator)
  | map (d : Denotator) (path : List Nat) (m : Morphism)
  | setFactor (d : Denotator) (index : Nat) (new : Denotator)
  | pushFactor (d : Denotator) (new : Denotator)

namespace Operation

def inputs : Operation → List Denotator
  | .element _ _ | .morphism _ _ => []
  | .limit _ ds | .set _ ds | .list _ ds => ds
  | .variant _ _ d | .named d _ | .anonymous d | .valueAt d _ | .readdressTo d _
  | .readdressAlong d _ | .map d _ _ => [d]
  | .replace d _ new | .setFactor d _ new | .pushFactor d new => [d,new]

def modulesProper : Operation → Bool
  | .element _ x | .valueAt _ x => x.module.isProper
  | .morphism _ m | .readdressAlong _ m | .map _ _ m => m.modulesProper
  | .readdressTo _ address => address.isProper
  | _ => true

def run (g : FormGraph) : Operation → Option Denotator
  | .element form x => (Denotator.ofElement g form x).toOption
  | .morphism form m => (Denotator.ofMorphism g form m).toOption
  | .limit form ds => (Denotator.ofLimit g form ds).toOption
  | .variant form index d => (Denotator.ofVariant g form index d).toOption
  | .set form ds => (Denotator.ofSet g form ds).toOption
  | .list form ds => (Denotator.ofList g form ds).toOption
  | .named d name => some (d.named name)
  | .anonymous d => some d.anonymous
  | .valueAt d x => (d.valueAt x).toOption
  | .readdressTo d address => d.readdressTo? address
  | .readdressAlong d m => (d.readdressAlong m).toOption
  | .replace d path new => (d.replace g path new).toOption
  | .map d path m => (d.map g path m).toOption
  | .setFactor d index new => (d.setFactor g index new).toOption
  | .pushFactor d new => (d.pushFactor g new).toOption

variable {g : FormGraph} {o : Operation} {d : Denotator}

theorem wellFormed_of_run (hu : g.NamesUnique) (hg : g.ModulesProper) (ho : o.modulesProper)
    (hi : ∀ d ∈ o.inputs, d.WellFormed g) (h : o.run g = some d) : d.WellFormed g := by
  have hok {ε : Type} {r : Except ε Denotator} (h : r.toOption = some d) : r = .ok d := by
    cases r <;> cases h
    rfl
  cases o with
  | element form x => exact .ofElement hu hg ho (hok h)
  | morphism form m => exact .ofMorphism hu ho (hok h)
  | limit form ds => exact .ofLimit hu hi (hok h)
  | variant form index e => exact .ofVariant hu (hi e List.mem_cons_self) (hok h)
  | set form ds => exact .ofSet hu hi (hok h)
  | list form ds => exact .ofList hu hi (hok h)
  | named e name => cases h; exact (hi e List.mem_cons_self).rename hu (some name)
  | anonymous e => cases h; exact (hi e List.mem_cons_self).rename hu none
  | valueAt e x => exact (hi e List.mem_cons_self).valueAt hu (hok h)
  | readdressTo e address => exact ((hi e List.mem_cons_self).readdressTo? hu ho h).1
  | readdressAlong e m => exact (hi e List.mem_cons_self).readdressAlong hu ho (hok h)
  | map e path m => exact (hi e List.mem_cons_self).map hu ho (hok h)
  | replace e path new =>
    exact (hi e List.mem_cons_self).replace hu (hi new (by simp [inputs])) (hok h)
  | setFactor e index new =>
    exact (hi e List.mem_cons_self).setFactor hu (hi new (by simp [inputs])) (hok h)
  | pushFactor e new =>
    exact (hi e List.mem_cons_self).pushFactor hu (hi new (by simp [inputs])) (hok h)

/-- Every operation that succeeds on well-formed denotators has a well-formed result. -/
theorem run_preserves (hr : g.Reachable) (hg : g.ModulesProper) (ho : o.modulesProper)
    (hi : ∀ d ∈ o.inputs, d.WellFormed g) (h : o.run g = some d) : d.WellFormed g :=
  wellFormed_of_run hr.sound.namesUnique hg ho hi h

/-- A set without an address takes that of a further chord, which comes before the other one. -/
theorem run_pushFactor_score :
    let root := .simple ⟨⟨0⟩,some "Root",.null⟩ (.constant .null (.z 60))
    let glide := .simple ⟨⟨0⟩,none,.z⟩ (.identity .z)
    (pushFactor (.power ⟨⟨2⟩,none,.null⟩ [.list ⟨⟨1⟩,some "Tonic",.null⟩ [root,root]])
      (.list ⟨⟨1⟩,none,.z⟩ [root,glide])).run .scores = some .score ∧
    Denotator.score.WellFormed .scores := by
  intro root glide
  have hrun : (pushFactor (.power ⟨⟨2⟩,none,.null⟩ [.list ⟨⟨1⟩,some "Tonic",.null⟩ [root,root]])
      (.list ⟨⟨1⟩,none,.z⟩ [root,glide])).run .scores = some .score := by cbv
  have made {o : Operation} {d : Denotator} (ho : o.modulesProper)
      (hi : ∀ d ∈ o.inputs, d.WellFormed .scores) (h : o.run .scores = some d) :
      d.WellFormed .scores :=
    wellFormed_of_run FormGraph.reachable_scores.sound.namesUnique FormGraph.modulesProper_scores
      ho hi h
  have hnote := @made (.element ⟨0⟩ (.z 60)) _ rfl (by simp [inputs]) rfl
  have hroot : root.WellFormed .scores := @made (.named _ "Root") _ rfl (by simpa [inputs]) rfl
  have hglide : glide.WellFormed .scores :=
    @made (.morphism ⟨0⟩ (.identity .z)) _ rfl (by simp [inputs]) rfl
  have hchord := @made (.list ⟨1⟩ [root,root]) _ rfl (by simpa [inputs]) rfl
  have htonic := @made (.named _ "Tonic") _ rfl (by simpa [inputs]) rfl
  have hset := @made (.set ⟨2⟩ [_]) _ rfl (by simpa [inputs]) rfl
  have hnew := @made (.list ⟨1⟩ [root,glide]) _ rfl (by simp [inputs,hroot,hglide]) rfl
  exact ⟨hrun,run_preserves FormGraph.reachable_scores FormGraph.modulesProper_scores rfl
    (by simpa [inputs] using ⟨hset,hnew⟩) hrun⟩

end Operation

namespace Denotator

/-- What any number of operations make from leaves. -/
inductive Built (g : FormGraph) : Denotator → Prop
  | run {o : Operation} {d : Denotator} (ho : o.modulesProper) (hi : ∀ d ∈ o.inputs, Built g d)
    (h : o.run g = some d) : Built g d

theorem Built.wellFormed {g : FormGraph} (hu : g.NamesUnique) (hg : g.ModulesProper)
    {d : Denotator} (h : Built g d) : WellFormed g d := by
  induction h with
  | run ho _ h ih => exact Operation.wellFormed_of_run hu hg ho ih h

end Denotator
end AddressedForms
