import AddressedForms.Proofs.Denotator.Operations
set_option autoImplicit false

/-!
The members of sets. Every operation leaves all sets strictly increasing, whatever it is applied to,
and takes all forms from there. So nothing is a member of a set twice; but two members may be equal
up to their forms, where two copies of a form come together.
-/

namespace AddressedForms
namespace Denotator
variable {g : FormGraph} {P : FormId → Prop} {C : FormId → FormId → Prop}
  {d e f x y new : Denotator} {ds : List Denotator} {form : FormId} {a old parent : Module}
  {m : Morphism} {v : Element} {i k : Nat} {path : List Nat}

/-- Whether all forms are among some and all sets are strictly increasing. -/
def Tidy (P : FormId → Prop) (d : Denotator) : Prop :=
  ∀ n ∈ d.nodes, P n.form ∧ (n.kind = .power → StrictlySorted n.factors)

theorem tidy_iff : Tidy P d ↔ (P d.form ∧ (d.kind = .power → StrictlySorted d.factors)) ∧
    ∀ f ∈ d.factors, Tidy P f := forall_mem_nodes

theorem Tidy.isSorted (h : Tidy P d) : d.IsSorted := fun n hn => (h n hn).2

theorem Tidy.of_mem_nodes (h : Tidy P d) (hf : f ∈ d.nodes) : Tidy P f :=
  fun n hn => h n (nodes_trans hn hf)

/-- A node of a form with some factors, which it sorts if it is a set. -/
structure Gathers (form : FormId) (ds : List Denotator) (d : Denotator) : Prop where
  form : d.form = form
  factors : d.factors = if d.kind = .power then asSet ds else ds

theorem Gathers.tidy (h : Gathers form ds d) (hp : P form) (hds : ∀ f ∈ ds, Tidy P f) :
    Tidy P d := by
  refine tidy_iff.mpr ⟨⟨h.form ▸ hp,fun hk => ?_⟩,fun f hf => hds f ?_⟩
  · rw [h.factors,if_pos hk]
    exact strictlySorted_asSet ds
  · rw [h.factors] at hf
    split at hf
    · exact (mem_asSet f ds).mp hf
    · exact hf

theorem Gathers.tidy_nil (h : Gathers form [] d) (hp : P form) : Tidy P d := h.tidy hp nofun

section Constructors

theorem gathers_ofElement (h : ofElement g form v = .ok d) : Gathers form [] d := by
  obtain ⟨f,-,h⟩ := Except.bind_eq_ok_iff.mp h
  dsimp only at h
  split at h
  · cases h
    exact ⟨rfl,rfl⟩
  · split at h
    · obtain ⟨w,-,h⟩ := Except.bind_eq_ok_iff.mp h
      cases h
      exact ⟨rfl,rfl⟩
    · cases h

theorem gathers_of_remake (h : remake g form d ds = .ok e) (hl : ds.length = d.factors.length) :
    Gathers form ds e := by
  obtain ⟨_,hm,-⟩ := made_of_remake h hl
  exact ⟨congrArg Head.form hm.head,hm.kind ▸ hm.factors⟩

theorem gathers_ofMorphism (h : ofMorphism g form m = .ok e) : Gathers form [] e :=
  gathers_of_remake (d := .simple ⟨form,none,.null⟩ m) h rfl

theorem gathers_ofLimit (h : ofLimit g form ds = .ok e) : Gathers form ds e :=
  gathers_of_remake (d := .limit ⟨form,none,.null⟩ ds) h rfl

theorem gathers_ofVariant (h : ofVariant g form i f = .ok e) : Gathers form [f] e :=
  gathers_of_remake (d := .colimit ⟨form,none,.null⟩ i f) h rfl

theorem gathers_ofSet (h : ofSet g form ds = .ok e) : Gathers form ds e :=
  gathers_of_remake (d := .power ⟨form,none,.null⟩ ds) h rfl

theorem gathers_ofList (h : ofList g form ds = .ok e) : Gathers form ds e :=
  gathers_of_remake (d := .list ⟨form,none,.null⟩ ds) h rfl

theorem Tidy.withHead (h : Tidy P d) {k : Head} (hk : k.form = d.form) : Tidy P (d.withHead k) := by
  rw [tidy_iff] at h ⊢
  simpa [Denotator.form,hk] using h

end Constructors

section Moves

theorem Reworked.tidy {Q : Denotator → Denotator → Prop} (h : Reworked Q a d e) (hd : Tidy P d)
    (hq : ∀ f ∈ d.factors, ∀ f', Q f f' → Tidy P f') : Tidy P e := by
  obtain ⟨es,hes,he⟩ := h.factors
  refine Gathers.tidy ⟨h.form,h.kind ▸ he⟩ (hd d (self_mem_nodes d)).1 fun f' hf' => ?_
  obtain ⟨f,hf,hff⟩ := exists_of_forall₂_right hes hf'
  exact hq f hf f' hff

theorem Tidy.evaluate (hd : Tidy P d) (h : d.evaluate v = .ok e) : Tidy P e := by
  induction d using factor_induction generalizing e with
  | h d ih =>
    by_cases ha : d.address = .null
    · rw [evaluate_of_null ha] at h
      cases h
      exact hd
    by_cases hm : d.morphism? = none
    · exact (reworked_of_evaluate h hm ha).tidy hd fun f hf f' hff =>
        ih f hf ((tidy_iff.mp hd).2 f hf) hff
    · cases d with
      | limit | colimit | power | list => exact absurd rfl hm
      | simple k c =>
        have hk : ¬ k.address.isNull := mt Module.isNull_iff.mp ha
        rw [Denotator.evaluate,if_neg hk] at h
        obtain ⟨w,-,h⟩ := Except.bind_eq_ok_iff.mp h
        cases h
        exact Gathers.tidy_nil ⟨rfl,rfl⟩ (hd _ (self_mem_nodes _)).1

theorem Tidy.valueAt (hd : Tidy P d) (h : d.valueAt v = .ok e) : Tidy P e := by
  unfold Denotator.valueAt at h
  split at h
  · cases h
    exact hd
  · split at h
    · exact hd.evaluate h
    · contradiction

theorem Tidy.readdress (hd : Tidy P d) (h : d.readdress old a m = .ok e) : Tidy P e := by
  induction d using factor_induction generalizing e with
  | h d ih =>
    by_cases hm : d.morphism? = none
    · refine (reworked_of_readdress h hm).tidy hd fun f hf f' hff => ?_
      have htidy := (tidy_iff.mp hd).2 f hf
      split at hff
      · exact ih f hf htidy hff
      · cases hff
        exact htidy
    · cases d with
      | limit | colimit | power | list => exact absurd rfl hm
      | simple k c =>
        obtain ⟨w,-,h⟩ := Except.bind_eq_ok_iff.mp h
        cases h
        exact Gathers.tidy_nil ⟨rfl,rfl⟩ (hd _ (self_mem_nodes _)).1

theorem Tidy.readdressTo? (hd : Tidy P d) (h : d.readdressTo? a = some e) : Tidy P e := by
  unfold Denotator.readdressTo? at h
  split at h
  · cases h
    exact hd
  · obtain ⟨m,-,h⟩ := Option.bind_eq_some_iff.mp h
    cases hr : d.readdress d.address a m with
    | error err => rw [hr] at h; cases h
    | ok e' =>
      rw [hr] at h
      cases h
      exact hd.readdress hr

theorem Tidy.readdressAlong (hd : Tidy P d) (h : d.readdressAlong m = .ok e) : Tidy P e := by
  unfold Denotator.readdressAlong at h
  split at h
  · split at h
    · cases h
      exact hd.readdressTo? ‹_›
    · contradiction
  · split at h
    · contradiction
    · exact hd.readdress (Except.mapError_eq_ok_iff.mp h)

end Moves

section Edits

theorem Tidy.fitUnder (hf : Tidy P f) {f' : Denotator}
    (h : fitUnder parent f = .ok (f',a)) : Tidy P f' := by
  unfold Denotator.fitUnder at h
  split at h
  · cases h
    exact hf
  · split at h
    · cases h
      exact hf
    · split at h
      · cases h
        exact hf.readdressTo? ‹_›
      · contradiction

theorem Tidy.withFactor (hd : Tidy P d) (hf : Tidy P f) : Tidy P (d.withFactor i a f) := by
  obtain ⟨⟨hform,-⟩,hfactors⟩ := tidy_iff.mp hd
  have hset (ds : List Denotator) (hds : ∀ d ∈ ds, Tidy P d) : ∀ d ∈ ds.set i f, Tidy P d := by
    intro d hd
    rcases List.mem_or_eq_of_mem_set hd with hd | rfl
    · exact hds d hd
    · exact hf
  cases d with
  | simple => exact Gathers.tidy_nil ⟨rfl,rfl⟩ hform
  | colimit => exact @Gathers.tidy _ _ [f] _ ⟨rfl,rfl⟩ hform (by simpa using hf)
  | limit _ ds | power _ ds | list _ ds =>
    exact @Gathers.tidy _ _ (ds.set i f) _ ⟨rfl,rfl⟩ hform (hset ds hfactors)

theorem Tidy.withNewFactor (hd : Tidy P d) (hf : Tidy P f) : Tidy P (d.withNewFactor a f) := by
  obtain ⟨⟨hform,-⟩,hfactors⟩ := tidy_iff.mp hd
  have hpush (ds : List Denotator) (hds : ∀ d ∈ ds, Tidy P d) : ∀ d ∈ ds ++ [f], Tidy P d := by
    simpa [or_imp,forall_and] using ⟨hds,hf⟩
  cases d with
  | simple | limit | colimit => exact hd.withHead rfl
  | power _ ds | list _ ds =>
    exact @Gathers.tidy _ _ (ds ++ [f]) _ ⟨rfl,rfl⟩ hform (hpush ds hfactors)

theorem Tidy.replaceFrom (hu : g.NamesUnique) (hd : Tidy P d) (hn : Tidy P new)
    (h : replaceFrom g new k path d = .ok e) : Tidy P e := by
  induction path generalizing d e k with
  | nil =>
    cases h
    exact hn
  | cons i path ih =>
    obtain ⟨child,f',a,-,hfit,rfl,hchild⟩ := exists_replaces hu h
    have hc : Tidy P child := by
      rcases hchild with ⟨rfl,-⟩ | ⟨-,f,hstep,hc⟩
      · exact hn
      · exact ih ((tidy_iff.mp hd).2 f (mem_factors_of_step hstep)) hc
    exact hd.withFactor (hc.fitUnder hfit)

theorem Tidy.replace (hu : g.NamesUnique) (hd : Tidy P d) (hn : Tidy P new)
    (h : d.replace g path new = .ok e) : Tidy P e := by
  cases path with
  | nil =>
    obtain ⟨-,h⟩ := Except.check_eq_ok_iff.mp h
    cases h
    exact hn
  | cons i path => exact hd.replaceFrom hu hn h

theorem Tidy.map (hu : g.NamesUnique) (hd : Tidy P d) (h : d.map g path m = .ok e) :
    Tidy P e := by
  obtain ⟨k,c,composed,hget,-,-,h⟩ := exists_of_map h
  have hsimple : Gathers k.form [] (.simple k composed) := ⟨rfl,rfl⟩
  exact hd.replace hu (hsimple.tidy_nil (hd _ (mem_nodes_of_get hget)).1) h

theorem Tidy.setFactor (hu : g.NamesUnique) (hd : Tidy P d) (hn : Tidy P new)
    (h : d.setFactor g i new = .ok e) : Tidy P e := by
  obtain ⟨f',a,-,-,hfit,rfl⟩ := exists_of_setFactor hu h
  exact hd.withFactor (hn.fitUnder hfit)

theorem Tidy.pushFactor (hu : g.NamesUnique) (hd : Tidy P d) (hn : Tidy P new)
    (h : d.pushFactor g new = .ok e) : Tidy P e := by
  obtain ⟨f',a,-,-,hfit,rfl⟩ := exists_of_pushFactor hu h
  exact hd.withNewFactor (hn.fitUnder hfit)

end Edits

section Members

/-- Equal denotators that are not the same contain two copies of a form, if their sets are
sorted. -/
theorem exists_copies (hu : g.NamesUnique) (hx : x.IsSorted) (hy : y.IsSorted) (hne : x ≠ y)
    (h : x.equals g y) : ∃ p ∈ x.nodes, ∃ q ∈ y.nodes, p.form ≠ q.form ∧
      g.equalForms p.form q.form := by
  by_contra hc
  refine hne (((equals_iff_alike hu x y).mp h).eq (fun p hp q hq hs => ?_) hx hy)
  by_contra hpq
  exact hc ⟨p,hp,q,hq,hpq,(FormGraph.equalForms_iff_similar hu _ _).mpr hs⟩

theorem pairwise_asSet_iff (hu : g.NamesUnique) (ds : List Denotator) :
    (asSet ds).Pairwise (fun x y => ¬ x.equals g y) ↔ ∀ x ∈ ds, ∀ y ∈ ds, x.equals g y → x = y := by
  have : Std.Symm fun x y : Denotator => ¬ x.equals g y := ⟨fun x y h hyx =>
    h ((equals_iff_alike hu x y).mpr ((equals_iff_alike hu y x).mp hyx).symm)⟩
  constructor
  · intro h x hx y hy he
    by_contra hne
    exact h.forall ((mem_asSet x ds).mpr hx) ((mem_asSet y ds).mpr hy) hne he
  · intro h
    refine (strictlySorted_asSet ds).nodup.imp_of_mem fun {x y} hx hy hne he => hne ?_
    exact h x ((mem_asSet x ds).mp hx) y ((mem_asSet y ds).mp hy) he

/-- One member of a set comes before another one; if they are equal, they contain two related copies
of a form. -/
structure Apart (g : FormGraph) (C : FormId → FormId → Prop) (x y : Denotator) : Prop where
  before : x.compare y = .lt
  copies : x.equals g y → ∃ p ∈ x.nodes, ∃ q ∈ y.nodes, p.form ≠ q.form ∧
    g.equalForms p.form q.form ∧ C p.form q.form

def MembersApart (g : FormGraph) (C : FormId → FormId → Prop) (d : Denotator) : Prop :=
  ∀ n ∈ d.nodes, n.kind = .power → n.factors.Pairwise (Apart g C)

theorem Tidy.membersApart (hu : g.NamesUnique) (hd : Tidy P d)
    (hC : ∀ p q, P p → P q → p ≠ q → g.equalForms p q → C p q) : d.MembersApart g C := by
  intro n hn hk
  refine ((hd n hn).2 hk).imp_of_mem fun {x y} hx hy hlt => ⟨hlt,fun h => ?_⟩
  have hxd : Tidy P x := hd.of_mem_nodes (nodes_trans (mem_nodes_of_mem_factors hx) hn)
  have hyd : Tidy P y := hd.of_mem_nodes (nodes_trans (mem_nodes_of_mem_factors hy) hn)
  have hne : x ≠ y := by
    intro he
    rw [(compare_eq_iff x y).mpr he] at hlt
    contradiction
  obtain ⟨p,hp,q,hq,hpq,hforms⟩ := exists_copies hu hxd.isSorted hyd.isSorted hne h
  exact ⟨p,hp,q,hq,hpq,hforms,hC _ _ (hxd p hp).1 (hyd q hq).1 hpq hforms⟩

end Members

end Denotator

namespace Operation
variable {g : FormGraph} {o : Operation} {P : FormId → Prop} {d : Denotator}

def form? : Operation → Option FormId
  | .element form _ | .morphism form _ | .limit form _ | .variant form _ _ | .set form _
  | .list form _ => some form
  | _ => none

/-- The forms that an operation is given, by themselves or in denotators. -/
def Gives (o : Operation) (id : FormId) : Prop :=
  o.form? = some id ∨ ∃ d ∈ o.inputs, ∃ n ∈ d.nodes, n.form = id

theorem tidy_of_run (hu : g.NamesUnique) (hf : ∀ form, o.form? = some form → P form)
    (hi : ∀ d ∈ o.inputs, d.Tidy P) (h : o.run g = some d) : d.Tidy P := by
  have hok {ε : Type} {r : Except ε Denotator} (h : r.toOption = some d) : r = .ok d := by
    cases r <;> cases h
    rfl
  cases o with
  | element form x => exact (Denotator.gathers_ofElement (hok h)).tidy_nil (hf _ rfl)
  | morphism form m => exact (Denotator.gathers_ofMorphism (hok h)).tidy_nil (hf _ rfl)
  | limit form ds => exact (Denotator.gathers_ofLimit (hok h)).tidy (hf _ rfl) hi
  | variant form index e => exact (Denotator.gathers_ofVariant (hok h)).tidy (hf _ rfl) hi
  | set form ds => exact (Denotator.gathers_ofSet (hok h)).tidy (hf _ rfl) hi
  | list form ds => exact (Denotator.gathers_ofList (hok h)).tidy (hf _ rfl) hi
  | named e name => cases h; exact (hi e List.mem_cons_self).withHead rfl
  | anonymous e => cases h; exact (hi e List.mem_cons_self).withHead rfl
  | valueAt e x => exact (hi e List.mem_cons_self).valueAt (hok h)
  | readdressTo e address => exact (hi e List.mem_cons_self).readdressTo? h
  | readdressAlong e m => exact (hi e List.mem_cons_self).readdressAlong (hok h)
  | map e path m => exact (hi e List.mem_cons_self).map hu (hok h)
  | replace e path new =>
    exact (hi e List.mem_cons_self).replace hu (hi new (by simp [inputs])) (hok h)
  | setFactor e index new =>
    exact (hi e List.mem_cons_self).setFactor hu (hi new (by simp [inputs])) (hok h)
  | pushFactor e new =>
    exact (hi e List.mem_cons_self).pushFactor hu (hi new (by simp [inputs])) (hok h)

/-- Copies of forms come together only if the operation is given them. -/
theorem membersApart_of_run (hr : g.Reachable) (hi : ∀ d ∈ o.inputs, d.IsSorted)
    (h : o.run g = some d) : d.MembersApart g fun p q => o.Gives p ∧ o.Gives q := by
  have htidy : d.Tidy o.Gives := tidy_of_run hr.sound.namesUnique (fun _ => .inl) (fun e he n hn =>
    ⟨.inr ⟨e,he,n,hn,rfl⟩,hi e he n hn⟩) h
  exact htidy.membersApart hr.sound.namesUnique fun p q hp hq _ _ => ⟨hp,hq⟩

end Operation
end AddressedForms
