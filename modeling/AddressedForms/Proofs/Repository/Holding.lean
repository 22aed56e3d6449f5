import AddressedForms.Proofs.Form.Registry
import AddressedForms.Proofs.Repository.Registration
set_option autoImplicit false

/-!
What a repository holds: forms and valid denotators under whose names there is something equal. To
register these changes nothing, and all that is registered without a report is held afterwards.
-/

namespace AddressedForms

namespace Repository
variable {r s : Repository} {x y : FormId} {d e : Denotator}

def HoldsForm (r : Repository) (x : FormId) : Prop := ∃ f held, r.forms.get? x = some f ∧
  r.form? f.name = some held ∧ r.forms.Similar held x

def HoldsDenotator (r : Repository) (d : Denotator) : Prop := d.validate r.forms = .ok () ∧
  ∃ name held, d.name = some name ∧ r.denotator? name = some held ∧ held.Alike r.forms d

theorem holdsForm_iff : r.HoldsForm x ↔ ∃ held, r.forms.Names held x := exists_comm

theorem HoldsForm.follows (h : r.HoldsForm x) (hs : r.Follows s) : s.HoldsForm x := by
  obtain ⟨held,hnames⟩ := holdsForm_iff.mp h
  exact holdsForm_iff.mpr ⟨held,hnames.grows hs.forms.grows⟩

theorem HoldsDenotator.follows (hr : r.forms.Reachable) (h : r.HoldsDenotator d)
    (hs : r.Follows s) : s.HoldsDenotator d := by
  obtain ⟨hv,name,held,hname,hheld,halike⟩ := h
  have hkeeps := hs.forms.grows.keeps
  have hu := (hs.forms.reachable hr).sound.namesUnique
  exact ⟨Denotator.validate_extend hr.sound.namesUnique hu hkeeps hv,name,held,hname,
    hs.kept name held hheld,halike.extend hkeeps⟩

theorem HoldsForm.similar (h : r.HoldsForm x) (hxy : r.forms.Similar x y) : r.HoldsForm y := by
  obtain ⟨f,held,hf,hheld,hsim⟩ := h
  obtain ⟨e,he,hname,-⟩ := hxy.exists_form hf
  exact ⟨e,held,he,hname.symm ▸ hheld,hsim.trans hxy⟩

theorem HoldsDenotator.alike (hu : r.forms.NamesUnique) (h : r.HoldsDenotator d)
    (hde : d.Alike r.forms e) : r.HoldsDenotator e := by
  obtain ⟨hv,name,held,hname,hheld,halike⟩ := h
  exact ⟨hde.validate hu hv,name,held,hde.sameNode.name.symm.trans hname,hheld,halike.trans hde⟩

theorem HoldsForm.registerForm (hu : r.forms.NamesUnique) (h : r.HoldsForm x) :
    ∃ held, r.registerForm x = .ok (held,r) := by
  obtain ⟨held,hnames⟩ := holdsForm_iff.mp h
  exact ⟨held,by rw [Repository.registerForm,hnames.register hu]; rfl⟩

theorem HoldsDenotator.registerDenotator (hu : r.forms.NamesUnique) (h : r.HoldsDenotator d) :
    r.registerDenotator d = .ok r := by
  obtain ⟨hv,name,held,hname,hheld,halike⟩ := h
  have hequals := (Denotator.equals_iff_alike hu held d).mpr halike
  exact registerDenotator_eq_ok_iff.mpr ⟨name,hname,hv,.inl ⟨held,hheld,hequals,rfl⟩⟩

theorem holdsForm_of_registerForm (hr : r.forms.Reachable) {held : FormId}
    (h : r.registerForm x = .ok (held,s)) : s.HoldsForm x := by
  obtain ⟨⟨held',k⟩,hk,h⟩ := Except.bind_eq_ok_iff.mp h
  cases h
  exact holdsForm_iff.mpr ⟨held,hr.sound.names_of_register hk⟩

theorem holdsDenotator_of_registerDenotator (hr : r.forms.Reachable)
    (h : r.registerDenotator d = .ok s) : s.HoldsDenotator d := by
  obtain ⟨name,hname,hv,⟨held,hheld,hequals,rfl⟩ | ⟨-,rfl⟩⟩ := registerDenotator_eq_ok_iff.mp h
  · exact ⟨hv,name,held,hname,hheld,
      (Denotator.equals_iff_alike hr.sound.namesUnique held d).mp hequals⟩
  · exact ⟨hv,name,d,hname,Table.get?_insert_self _ _ _,.refl _ _⟩

end Repository

namespace Reading
variable {g : Reading}

theorem registerForm_eq_self (hu : g.repository.forms.NamesUnique) (name : String) {id : FormId}
    (h : g.repository.HoldsForm id) : g.registerForm name id = g := by
  obtain ⟨held,hr⟩ := h.registerForm hu
  rw [registerForm,hr]

theorem registerDenotator_eq_self (hu : g.repository.forms.NamesUnique) (name : String)
    {d : Denotator} (h : g.repository.HoldsDenotator d) : g.registerDenotator name d = g := by
  rw [registerDenotator,h.registerDenotator hu]

/-- What is held already is registered without a trace. -/
theorem register_eq_self (hu : g.repository.forms.NamesUnique)
    (hf : ∀ e ∈ g.forms, g.repository.HoldsForm e.2)
    (hd : ∀ e ∈ g.symbols.denotators, g.repository.HoldsDenotator e.2) : g.register = g := by
  have hfold {α : Type} {step : Reading → α → Reading} (xs : List α)
      (h : ∀ x ∈ xs, step g x = g) : xs.foldl step g = g := by
    induction xs with
    | nil => rfl
    | cons x xs ih =>
      rw [List.forall_mem_cons] at h
      rw [List.foldl_cons,h.1,ih h.2]
  rw [register,hfold g.forms fun e he => registerForm_eq_self hu e.1 (hf e he)]
  exact hfold _ fun e he => registerDenotator_eq_self hu e.1 (hd e he)

theorem holdsForm_of_quiet (hg : g.repository.forms.Reachable) {name : String} {id : FormId}
    (h : (g.registerForm name id).reports = g.reports) :
    (g.registerForm name id).repository.HoldsForm id := by
  unfold registerForm at h ⊢
  split <;> rename_i hr <;> rw [hr] at h
  · exact Repository.holdsForm_of_registerForm hg hr
  · simp at h

theorem holdsDenotator_of_quiet (hg : g.repository.forms.Reachable) {name : String} {d : Denotator}
    (h : (g.registerDenotator name d).reports = g.reports) :
    (g.registerDenotator name d).repository.HoldsDenotator d := by
  unfold registerDenotator at h ⊢
  split <;> rename_i hr
  · exact Repository.holdsDenotator_of_registerDenotator hg hr
  · simp [hr] at h
  · simp [hr] at h

/-- A step that registers something, after which `P` holds of it unless there is a report. -/
structure RegisterStep {α : Type} (step : Reading → α → Reading) (P : Repository → α → Prop) :
    Prop where
  registered : ∀ (g : Reading) x, Registered g (step g x)
  follows : ∀ (g : Reading) x, g.repository.Follows (step g x).repository
  kept : ∀ (r s : Repository) x, r.forms.Reachable → r.Follows s → P r x → P s x
  quiet : ∀ (g : Reading) x, g.repository.forms.Reachable → (step g x).reports = g.reports →
    P (step g x).repository x

theorem registerStep_form : RegisterStep (fun g (e : String × FormId) => g.registerForm e.1 e.2)
    fun r e => r.HoldsForm e.2 where
  registered g e := registered_registerForm g e.1 e.2
  follows g e := Repository.follows_readingForm g e.1 e.2
  kept _ _ _ _ hs h := h.follows hs
  quiet _ _ hg h := holdsForm_of_quiet hg h

theorem registerStep_denotator :
    RegisterStep (fun g (e : String × Denotator) => g.registerDenotator e.1 e.2)
      fun r e => r.HoldsDenotator e.2 where
  registered g e := registered_registerDenotator g e.1 e.2
  follows g e := Repository.follows_readingDenotator g e.1 e.2
  kept _ _ _ hr hs h := h.follows hr hs
  quiet _ _ hg h := holdsDenotator_of_quiet hg h

/-- Run lemma: nothing that a step has done is undone by the later ones. -/
theorem RegisterStep.foldl {α : Type} {step : Reading → α → Reading} {P : Repository → α → Prop}
    (h : RegisterStep step P) (xs : List α) (hg : g.repository.forms.Reachable) :
    Registered g (xs.foldl step g) ∧ g.repository.Follows (xs.foldl step g).repository ∧
    ((xs.foldl step g).reports = g.reports → ∀ x ∈ xs, P (xs.foldl step g).repository x) := by
  induction xs using List.reverseRecOn with
  | nil => exact ⟨.refl g,.refl _,by simp⟩
  | append_singleton xs x ih =>
    rw [List.foldl_append]
    obtain ⟨hreg,hfollows,hholds⟩ := ih
    generalize xs.foldl step g = k at hreg hfollows hholds
    have hstep := h.registered k x
    have hk := hfollows.forms.reachable hg
    refine ⟨hreg.trans hstep,hfollows.trans (h.follows k x),fun hq y hy => ?_⟩
    have hquiet : k.reports = g.reports :=
      (hreg.reports.eq_of_length_le (hstep.reports.length_le.trans_eq (congrArg _ hq))).symm
    rcases List.mem_append.mp hy with hy | hy
    · exact h.kept _ _ y hk (h.follows k x) (hholds hquiet y hy)
    · cases List.mem_singleton.mp hy
      exact h.quiet k x hk (hq.trans hquiet.symm)

theorem holds_of_register (hg : g.repository.forms.Reachable) (h : g.register.reports = g.reports) :
    (∀ e ∈ g.forms, g.register.repository.HoldsForm e.2) ∧
    ∀ e ∈ g.symbols.denotators, g.register.repository.HoldsDenotator e.2 := by
  rw [register] at h ⊢
  obtain ⟨hreg,hfollows,hforms⟩ := registerStep_form.foldl g.forms hg
  generalize g.forms.foldl _ g = k at hreg hfollows hforms h ⊢
  have hk := hfollows.forms.reachable hg
  obtain ⟨hreg',hfollows',hdenotators⟩ := registerStep_denotator.foldl g.symbols.denotators hk
  have hquiet : k.reports = g.reports :=
    (hreg.reports.eq_of_length_le (hreg'.reports.length_le.trans_eq (congrArg _ h))).symm
  exact ⟨fun e he => (hforms hquiet e he).follows hfollows',hdenotators (h.trans hquiet.symm)⟩

end Reading
end AddressedForms
