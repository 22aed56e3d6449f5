import AddressedForms.Proofs.Form.Growth
set_option autoImplicit false

/-!
What registering a form comes to. It succeeds unless another form has the name; afterwards the name
belongs to the form or to its like for good, and asking again changes nothing. Labels are judged
first, so a request with labels either fails before it has changed anything or does what a request
without them does.
-/

namespace AddressedForms

def Form.Takes (f : Form) (labels : List String) : Prop :=
  (f.kind = .limit ∨ f.kind = .colimit) ∧ labels.Nodup ∧ labels.length = f.count

namespace FormGraph
variable {g h k : FormGraph} {id held : FormId} {f : Form} {labels : List String}

theorem register_of_require (hf : g.require id = .ok f) :
    g.register id = match g.lookup? f.name with
      | some held =>
        if held = id ∨ g.sameForm held id then .ok (held,g) else .error (.duplicateName f.name)
      | none => .ok (id,g.enter id f) := by
  rw [register,hf]
  rfl

theorem registerLabelled_of_require (hf : g.require id = .ok f) :
    g.registerLabelled id labels = match labelsFor f.name f.body labels with
      | .ok l => (g.register id).map fun r => (r.1,r.2.relabel r.1 l)
      | .error e => .error e := by
  rw [registerLabelled,hf]
  show (labelsFor f.name f.body labels >>= _) = _
  cases labelsFor f.name f.body labels with
  | error e => rfl
  | ok l => cases g.register id <;> rfl

theorem labelsFor_of_takes (h : f.Takes labels) :
    ∃ l, labelsFor f.name f.body labels = .ok l ∧ l.names = labels := by
  obtain ⟨hkind,hnodup,hlen⟩ := h
  refine ⟨⟨labels,hnodup⟩,?_,rfl⟩
  cases hb : f.body <;>
    simp_all [labelsFor,Labels.ofList?,Form.kind,Form.count,Form.subForms,Body.kind,Body.subForms]

theorem labelsFor_of_not_takes (h : ¬ f.Takes labels) :
    labelsFor f.name f.body labels = .error (.invalidLabels f.name) := by
  cases hl : labelsFor f.name f.body labels with
  | error e =>
    cases hb : f.body <;> simp only [labelsFor,hb] at hl <;> grind
  | ok l =>
    obtain ⟨hkind,rfl,hlen⟩ := labelsFor_eq_ok hl
    exact absurd ⟨hkind,l.distinct,hlen⟩ h

def Names (g : FormGraph) (held id : FormId) : Prop :=
  ∃ f, g.get? id = some f ∧ g.lookup? f.name = some held ∧ g.Similar held id

theorem Sound.names_of_register (hg : g.Sound) (h : g.register id = .ok (held,k)) :
    k.Names held id := by
  obtain ⟨f,hf,⟨hheld,hsame,rfl⟩ | ⟨-,rfl,rfl⟩⟩ := register_eq_ok_iff.mp h
  · refine ⟨f,hf,hheld,?_⟩
    rcases hsame with rfl | hsame
    · exact .refl _ _
    · exact (sameForm_iff_similar hg.namesUnique held id).mp hsame
  · refine ⟨{f with registered := true},?_,?_,.refl _ _⟩
    · simp [get?_enter (contains_of_get? hf)]
    · simp [lookup?_enter]

theorem Names.grows (hn : g.Names held id) (hg : g.Grows h) : h.Names held id := by
  obtain ⟨f,hf,hheld,hsim⟩ := hn
  obtain ⟨e,he,hname,-⟩ := hg.keeps id f hf
  exact ⟨e,he,hname ▸ hg.held f.name held hheld,hsim.extend hg.keeps⟩

theorem Names.lookup? {name : String} (hn : g.Names held id) (hname : g.name? id = some name) :
    g.lookup? name = some held := by
  obtain ⟨f,hf,hheld,-⟩ := hn
  rw [name?_of_get? hf,Option.some.injEq] at hname
  rw [← hname,hheld]

theorem Names.register (hu : g.NamesUnique) (hn : g.Names held id) :
    g.register id = .ok (held,g) := by
  obtain ⟨f,hf,hheld,hsim⟩ := hn
  have hsame := (sameForm_iff_similar hu held id).mpr hsim
  exact register_eq_ok_iff.mpr ⟨f,hf,.inl ⟨hheld,.inr hsame,rfl⟩⟩

/-- The only reason to refuse a form is another form of its name. -/
theorem Sound.register_eq_error_iff (hg : g.Sound) (hf : g.get? id = some f) {e : FormError} :
    g.register id = .error e ↔ e = .duplicateName f.name ∧ ∃ other k,
      g.get? other = some k ∧ k.registered ∧ k.name = f.name ∧ ¬ g.sameForm other id := by
  have hself : g.sameForm id id := (sameForm_iff_similar hg.namesUnique id id).mpr (.refl g id)
  have hother : (∃ other k, g.get? other = some k ∧ k.registered ∧ k.name = f.name ∧
      ¬ g.sameForm other id) ↔ ∃ other, g.lookup? f.name = some other ∧ ¬ g.sameForm other id :=
    exists_congr fun other => by simp only [hg.held,← and_assoc,exists_and_right]
  rw [hother,register_of_require (require_eq_ok_iff.mpr hf)]
  cases g.lookup? f.name with
  | none => simp
  | some held =>
    by_cases hsame : g.sameForm held id
    · simp [hsame]
    · have hne : held ≠ id := by
        rintro rfl
        contradiction
      simpa [hsame,hne] using eq_comm

structure Relabels (labels : List String) (id : FormId) (g h : FormGraph) : Prop where
  registry : h.registry = g.registry
  others : ∀ x, x ≠ id → h.slot? x = g.slot? x
  labelled : ∃ e l, g.get? id = some e ∧ h.get? id = some {e with labels := some l} ∧
    l.names = labels ∧ labels.length = e.count

theorem relabels_relabel {l : Labels} (hf : g.get? id = some f) (hl : l.names.length = f.count) :
    Relabels l.names id g (g.relabel id l) := by
  have hc := contains_of_get? hf
  simp only [relabel,hf]
  refine ⟨rfl,fun x hx => ?_,f,l,hf,?_,rfl,hl⟩
  · rw [slot?_store hc,if_neg hx]
  · rw [get?_store hc,if_pos rfl]

/-- With labels that a form can have, the answer is that of a request without labels; if it is
accepted, nothing but the labels of the form that has the name is different. -/
theorem Sound.registerLabelled_of_takes (hg : g.Sound) (hf : g.get? id = some f)
    (ht : f.Takes labels) :
    (g.registerLabelled id labels).map Prod.fst = (g.register id).map Prod.fst ∧
    ∀ held h, g.register id = .ok (held,h) →
      ∃ k, g.registerLabelled id labels = .ok (held,k) ∧ Relabels labels held h k := by
  obtain ⟨l,hl,rfl⟩ := labelsFor_of_takes ht
  rw [registerLabelled_of_require (require_eq_ok_iff.mpr hf),hl]
  refine ⟨by cases g.register id <;> rfl,fun held h hr => ?_⟩
  obtain ⟨e,he,-,-,-,hcount⟩ := hg.held_of_register hr hf
  refine ⟨h.relabel held l,by rw [hr]; rfl,relabels_relabel he ?_⟩
  rw [ht.2.2,hcount]

theorem registerLabelled_of_not_takes (hf : g.get? id = some f) (ht : ¬ f.Takes labels) :
    g.registerLabelled id labels = .error (.invalidLabels f.name) := by
  rw [registerLabelled_of_require (require_eq_ok_iff.mpr hf),labelsFor_of_not_takes ht]

/-- Requests that change a graph in place: what is done before a failure stays done. -/
abbrev InPlace (α : Type) := ExceptT FormError (StateM FormGraph) α

namespace InPlace
variable {α : Type}

def answer (q : InPlace α) (g : FormGraph) : Except FormError α × FormGraph := q.run.run g

def checked (r : Except FormError α) : InPlace α := ExceptT.mk (pure r)

/-- The form is marked before it is entered under its name. -/
def register (id : FormId) : InPlace FormId := do
  let g ← get
  let f ← checked (g.require id)
  match g.lookup? f.name with
  | some held =>
    if held = id ∨ g.sameForm held id then pure held else throw (.duplicateName f.name)
  | none => do
    modify fun g => g.store id {f with registered := true}
    modify fun g => {g with registry := g.registry.insert f.name id}
    pure id

def registerLabelled (id : FormId) (labels : List String) : InPlace FormId := do
  let g ← get
  let f ← checked (g.require id)
  let l ← checked (labelsFor f.name f.body labels)
  let held ← register id
  modify fun g => g.relabel held l
  pure held

def settled (g : FormGraph) : Except FormError (α × FormGraph) → Except FormError α × FormGraph
  | .ok (x,h) => (.ok x,h)
  | .error e => (.error e,g)

section Answers
variable {β : Type} (q : InPlace α) (r : α → InPlace β) (g : FormGraph)

theorem answer_bind : (q >>= r).answer g = match q.answer g with
    | (.ok x,h) => (r x).answer h
    | (.error e,h) => (.error e,h) := by
  unfold answer ExceptT.run StateT.run
  simp only [bind,ExceptT.bind,ExceptT.mk,StateT.bind]
  rcases q g with ⟨_ | _,_⟩ <;> rfl

@[simp] theorem answer_get : (get : InPlace FormGraph).answer g = (.ok g,g) := rfl

@[simp] theorem answer_modify (f : FormGraph → FormGraph) :
    (modify f : InPlace Unit).answer g = (.ok (),f g) := rfl

@[simp] theorem answer_pure (x : α) : (pure x : InPlace α).answer g = (.ok x,g) := rfl

@[simp] theorem answer_throw (e : FormError) :
    (throw e : InPlace α).answer g = (.error e,g) := rfl

@[simp] theorem answer_checked (r : Except FormError α) :
    (checked r).answer g = (r,g) := rfl

end Answers

theorem answer_register (g : FormGraph) (id : FormId) :
    (register id).answer g = settled g (g.register id) := by
  simp only [register,answer_bind,answer_get,answer_checked]
  cases hf : g.require id with
  | error e =>
    rw [FormGraph.register,hf]
    rfl
  | ok f =>
    rw [register_of_require hf]
    cases hl : g.lookup? f.name with
    | none =>
      simp only [hl,answer_bind,answer_modify,answer_pure]
      rfl
    | some held => by_cases h : held = id ∨ g.sameForm held id <;> simp [hl,h,settled]

theorem answer_registerLabelled (g : FormGraph) (id : FormId) (labels : List String) :
    (registerLabelled id labels).answer g = settled g (g.registerLabelled id labels) := by
  simp only [registerLabelled,answer_bind,answer_get,answer_checked,answer_register]
  cases hf : g.require id with
  | error e =>
    rw [FormGraph.registerLabelled,hf]
    rfl
  | ok f =>
    rw [registerLabelled_of_require hf]
    cases hl : labelsFor f.name f.body labels with
    | error e => simp [hl,settled]
    | ok l => cases hr : g.register id <;> simp [hl,hr,settled,Except.map]

end InPlace

end FormGraph
end AddressedForms
