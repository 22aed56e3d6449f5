import AddressedForms.Proofs.Form.Bisimulation
set_option autoImplicit false

/-!
The form graphs that occur: those that any sequence of declarations, definitions and registrations
makes of the empty one. All of them are sound, and in a sound graph equality of forms is decided by
comparison and agrees with the short cut through names.
-/

namespace AddressedForms
namespace FormGraph

/-- What holds of every graph that occurs. -/
structure Sound (g : FormGraph) : Prop where
  held : ∀ name id, g.lookup? name = some id ↔
    ∃ f, g.get? id = some f ∧ f.registered ∧ f.name = name
  nonempty : ∀ id f, g.get? id = some f → f.subForms = [] → f.kind = .simple
  issued : ∀ id f, g.get? id = some f → ∀ sub ∈ f.subForms, g.contains sub
  labelled : ∀ id f l, g.get? id = some f → f.labels = some l →
    (f.kind = .limit ∨ f.kind = .colimit) ∧ l.names.length = f.count

theorem Sound.namesUnique {g : FormGraph} (h : g.Sound) : g.NamesUnique := by
  intro a b x y hx hy hrx hry hn
  have ha := (h.held x.name a).mpr ⟨x,hx,hrx,rfl⟩
  have hb := (h.held x.name b).mpr ⟨y,hy,hry,hn.symm⟩
  exact Option.some.inj (ha.symm.trans hb)

theorem sound_empty : empty.Sound where
  held := by simp [lookup?,empty,get?,slot?]
  nonempty := by simp [empty,get?,slot?]
  issued := by simp [empty,get?,slot?]
  labelled := by simp [empty,get?,slot?]

theorem Sound.declare {g : FormGraph} (h : g.Sound) (name : String) (kind : Kind) :
    (g.declare name kind).2.Sound where
  held := by simpa only [get?_declare,lookup?_declare] using h.held
  nonempty := by simpa only [get?_declare] using h.nonempty
  issued := by
    intro id f hf sub hs
    rw [get?_declare] at hf
    exact contains_declare (h.issued id f hf sub hs) name kind
  labelled := by simpa only [get?_declare] using h.labelled

theorem Sound.store {g : FormGraph} (h : g.Sound) {id : FormId} (hc : g.contains id) {f : Form}
    (hreg : ∀ name, g.lookup? name = some id ↔ f.registered ∧ f.name = name)
    (hne : f.subForms = [] → f.kind = .simple) (hin : ∀ sub ∈ f.subForms, g.contains sub)
    (hl : ∀ l, f.labels = some l → (f.kind = .limit ∨ f.kind = .colimit) ∧
      l.names.length = f.count) : (g.store id f).Sound where
  held name j := by
    rw [lookup?_store,get?_store hc]
    by_cases hj : j = id
    · subst hj
      simpa using hreg name
    · simpa [hj] using h.held name j
  nonempty j e he := by
    rw [get?_store hc] at he
    split at he
    · cases he; exact hne
    · exact h.nonempty j e he
  issued j e he sub hs := by
    rw [get?_store hc] at he
    rw [contains_store]
    split at he
    · cases he; exact hin sub hs
    · exact h.issued j e he sub hs
  labelled j e l he hel := by
    rw [get?_store hc] at he
    split at he
    · cases he; exact hl l hel
    · exact h.labelled j e l he hel

theorem Sound.define {g g' : FormGraph} (h : g.Sound) {id : FormId} {body : Body}
    {labels : Option (List String)} (hd : g.define id body labels = .ok g') : g'.Sound := by
  obtain ⟨name,ls,hs,hne,hin,hl,rfl⟩ := define_eq_ok_iff.mp hd
  refine h.store (contains_of_slot? hs) (fun n => ?_) hne hin (labelsFor?_eq_ok hl).2
  -- a declared form is not registered yet
  have hnone : g.get? id = none := by simp [get?,hs,Slot.form?]
  simp [h.held,hnone]

theorem Sound.enter {g : FormGraph} (h : g.Sound) {id : FormId} {f : Form}
    (hf : g.get? id = some f) (hfree : g.lookup? f.name = none) : (g.enter id f).Sound where
  held name j := by
    rw [lookup?_enter,get?_enter (contains_of_get? hf)]
    by_cases hn : name = f.name <;> by_cases hj : j = id
    · simp [hn,hj]
    · have hnot := (h.held f.name j).not.mp (by rw [hfree]; exact nofun)
      simp only [hn,hj,if_true,if_false,Option.some.injEq]
      exact ⟨fun he => absurd he.symm hj,fun he => absurd he hnot⟩
    · subst hj
      have hnot := (h.held name j).not
      rw [hf] at hnot
      simp only [hn,if_true,if_false,Option.some.injEq,exists_eq_left',true_and,Ne.symm hn,
        iff_false]
      exact hnot.mpr (by simp [Ne.symm hn])
    · simpa only [hn,hj,if_false] using h.held name j
  nonempty j e he := by
    rw [get?_enter (contains_of_get? hf)] at he
    split at he
    · cases he; exact h.nonempty id f hf
    · exact h.nonempty j e he
  issued j e he sub hs := by
    rw [get?_enter (contains_of_get? hf)] at he
    rw [contains_enter]
    split at he
    · cases he; exact h.issued id f hf sub hs
    · exact h.issued j e he sub hs
  labelled j e l he hel := by
    rw [get?_enter (contains_of_get? hf)] at he
    split at he
    · cases he; exact h.labelled id f l hf hel
    · exact h.labelled j e l he hel

theorem Sound.register {g g' : FormGraph} (h : g.Sound) {id held : FormId}
    (hr : g.register id = .ok (held,g')) : g'.Sound := by
  obtain ⟨f,hf,⟨-,-,rfl⟩ | ⟨hfree,-,rfl⟩⟩ := register_eq_ok_iff.mp hr
  · exact h
  · exact h.enter hf hfree

/-- The form that holds the name after a registration is the registered one or its like. -/
theorem Sound.held_of_register {g g' : FormGraph} (h : g.Sound) {id held : FormId} {f : Form}
    (hr : g.register id = .ok (held,g')) (hf : g.get? id = some f) :
    ∃ e, g'.get? held = some e ∧ e.registered ∧ e.name = f.name ∧ e.body.kind = f.body.kind ∧
      e.count = f.count := by
  obtain ⟨f',hf',hcase⟩ := register_eq_ok_iff.mp hr
  cases hf.symm.trans hf'
  rcases hcase with ⟨hl,hsame,rfl⟩ | ⟨-,rfl,rfl⟩
  · obtain ⟨e,he,hreg,hn⟩ := (h.held _ _).mp hl
    refine ⟨e,he,hreg,hn,?_⟩
    have hs : g'.Similar held id := by
      rcases hsame with rfl | hsame
      · exact .refl _ _
      · exact (sameForm_iff_similar h.namesUnique _ _).mp hsame
    rcases hs.agree with rfl | ⟨x,y,hx,hy,-,hb⟩
    · cases hf.symm.trans he
      exact ⟨rfl,rfl⟩
    · cases he.symm.trans hx
      cases hf.symm.trans hy
      exact ⟨hb.kind_eq,hb.subForms.length_eq⟩
  · refine ⟨{f with registered := true},?_,rfl,rfl,rfl,rfl⟩
    rw [get?_enter (contains_of_get? hf),if_pos rfl]

theorem Sound.registerLabelled {g g' : FormGraph} (h : g.Sound) {id held : FormId}
    {labels : List String} (hr : g.registerLabelled id labels = .ok (held,g')) : g'.Sound := by
  obtain ⟨f,hf,hr⟩ := Except.bind_eq_ok_iff.mp hr
  obtain ⟨l,hl,hr⟩ := Except.bind_eq_ok_iff.mp hr
  obtain ⟨⟨held',g''⟩,hg,hr⟩ := Except.bind_eq_ok_iff.mp hr
  obtain ⟨rfl,rfl⟩ := Prod.mk.inj (Except.ok.inj hr)
  have hsound := h.register hg
  obtain ⟨e,he,hreg,hname,hkind,hcount⟩ := h.held_of_register hg (require_eq_ok_iff.mp hf)
  obtain ⟨hk,hnames,hlen⟩ := labelsFor_eq_ok hl
  unfold relabel
  rw [he]
  refine hsound.store (contains_of_get? he) (fun name => ?_) (hsound.nonempty _ e he)
    (hsound.issued _ e he) ?_
  · simp [hsound.held,he]
  · rintro l' hl'
    cases hl'
    have hc : l.names.length = e.count := by
      rw [hnames,hlen,hcount]
      rfl
    exact ⟨by simpa [Form.kind,hkind] using hk,hc⟩

inductive Reachable : FormGraph → Prop
  | empty : Reachable .empty
  | declare {g : FormGraph} (h : Reachable g) (name : String) (kind : Kind) :
    Reachable (g.declare name kind).2
  | define {g g' : FormGraph} (h : Reachable g) {id : FormId} {body : Body}
    {labels : Option (List String)} (hd : g.define id body labels = .ok g') : Reachable g'
  | register {g g' : FormGraph} (h : Reachable g) {id held : FormId}
    (hr : g.register id = .ok (held,g')) : Reachable g'
  | registerLabelled {g g' : FormGraph} (h : Reachable g) {id held : FormId}
    {labels : List String} (hr : g.registerLabelled id labels = .ok (held,g')) : Reachable g'

theorem Reachable.sound {g : FormGraph} (h : g.Reachable) : g.Sound := by
  induction h with
  | empty => exact sound_empty
  | declare _ name kind ih => exact ih.declare name kind
  | define _ hd ih => exact ih.define hd
  | register _ hr ih => exact ih.register hr
  | registerLabelled _ hr ih => exact ih.registerLabelled hr

theorem Reachable.add {g : FormGraph} (h : g.Reachable) (name : String) (body : Body) :
    (g.add name body).2.Reachable := by
  unfold FormGraph.add
  dsimp only
  split <;> rename_i hd
  · exact (h.declare name body.kind).define hd
  · exact h.declare name body.kind

/-- Comparison of forms is the largest bisimulation, whatever room above the number of pairs of
slots it is given; it is an equivalence, and names give the same answer between registered forms. -/
theorem Reachable.sameForm_iff_exists_bisimulation {g : FormGraph} (h : g.Reachable) :
    (∀ a b, g.sameForm a b ↔ ∃ R : FormId → FormId → Prop, R a b ∧ g.IsBisimulation R) ∧
    (∀ a b fuel, g.size*g.size < fuel → g.allSame fuel [] [(a,b)] = g.sameForm a b) ∧
    Equivalence (fun a b => g.sameForm a b = true) ∧
    ∀ a b, g.equalForms a b = g.sameForm a b := by
  have hu := h.sound.namesUnique
  have hs := sameForm_iff_similar hu
  refine ⟨hs,fun a b fuel hf => ?_,⟨fun a => ?_,fun {a b} hab => ?_,fun {a b c} hab hbc => ?_⟩,
    equalForms_eq_sameForm hu⟩
  · rw [Bool.eq_iff_iff,allSame_iff_similar hu hf,hs]
  · exact (hs a a).mpr (.refl g a)
  · exact (hs b a).mpr ((hs a b).mp hab).symm
  · exact (hs a c).mpr (((hs a b).mp hab).trans ((hs b c).mp hbc))

/-- Two copies of two sums that are each other's only variant; one form is registered. -/
def twinCycles : FormGraph :=
  let sum (name : String) (variant : Nat) (registered : Bool) : Slot :=
    .defined ⟨name,.colimit [⟨variant⟩],none,registered⟩
  ⟨[sum "A" 1 true,sum "B" 0 false,sum "A" 3 false,sum "B" 2 false],.ofList [("A",⟨0⟩)]⟩

theorem reachable_twinCycles : twinCycles.Reachable := by
  have declared := (((Reachable.empty.declare "A" .colimit).declare "B" .colimit).declare "A"
    .colimit).declare "B" .colimit
  have a := @Reachable.define _ _ declared ⟨0⟩ (.colimit [⟨1⟩]) none rfl
  have b := @Reachable.define _ _ a ⟨1⟩ (.colimit [⟨0⟩]) none rfl
  have c := @Reachable.define _ _ b ⟨2⟩ (.colimit [⟨3⟩]) none rfl
  have d := @Reachable.define _ _ c ⟨3⟩ (.colimit [⟨2⟩]) none rfl
  exact @Reachable.register _ _ d ⟨0⟩ ⟨0⟩ rfl

theorem twinCycles_bisimulation : twinCycles.Reachable ∧
    (∃ R : FormId → FormId → Prop, R ⟨0⟩ ⟨2⟩ ∧ twinCycles.IsBisimulation R) ∧
    ¬ ∃ R : FormId → FormId → Prop, R ⟨0⟩ ⟨3⟩ ∧ twinCycles.IsBisimulation R := by
  have h := reachable_twinCycles.sameForm_iff_exists_bisimulation.1
  have same : twinCycles.sameForm ⟨0⟩ ⟨2⟩ := by
    simp [sameForm,allSame,obligations?,get?,slot?,size,twinCycles,Slot.form?,Form.kind,Body.kind,
      Body.subForms]
  have different : twinCycles.sameForm ⟨0⟩ ⟨3⟩ = false := by
    simp [sameForm,allSame,obligations?,get?,slot?,size,twinCycles,Slot.form?]
  refine ⟨reachable_twinCycles,(h ⟨0⟩ ⟨2⟩).mp same,fun hn => ?_⟩
  exact Bool.false_ne_true (different.symm.trans ((h ⟨0⟩ ⟨3⟩).mpr hn))

end FormGraph
end AddressedForms
