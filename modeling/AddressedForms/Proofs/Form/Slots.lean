import AddressedForms.Form.Registry
set_option autoImplicit false

/-!
What the operations on a form graph do to its slots: which slot each of them touches, what it needs
to succeed, and that everything else stays as it is.
-/

namespace AddressedForms

theorem FormId.ext_index {a b : FormId} (h : a.index = b.index) : a = b := by
  cases a; cases b; simp_all

namespace FormGraph

theorem slot?_eq_none_iff (g : FormGraph) (id : FormId) :
    g.slot? id = none ↔ g.contains id = false := by
  rw [contains,decide_eq_false_iff_not,Nat.not_lt]
  exact List.getElem?_eq_none_iff

theorem contains_of_slot? {g : FormGraph} {id : FormId} {s : Slot} (h : g.slot? id = some s) :
    g.contains id := by
  cases hc : g.contains id with
  | true => rfl
  | false => rw [(slot?_eq_none_iff g id).mpr hc] at h; contradiction

theorem get?_eq_some_iff {g : FormGraph} {id : FormId} {f : Form} :
    g.get? id = some f ↔ g.slot? id = some (.defined f) := by
  unfold get?
  cases h : g.slot? id with
  | none => simp
  | some s => cases s <;> simp [Slot.form?]

theorem contains_of_get? {g : FormGraph} {id : FormId} {f : Form} (h : g.get? id = some f) :
    g.contains id := contains_of_slot? (get?_eq_some_iff.mp h)

theorem name?_of_get? {g : FormGraph} {id : FormId} {f : Form} (h : g.get? id = some f) :
    g.name? id = some f.name := by
  simp [name?,get?_eq_some_iff.mp h,Slot.name]

theorem kind?_of_get? {g : FormGraph} {id : FormId} {f : Form} (h : g.get? id = some f) :
    g.kind? id = some f.kind := by
  simp [kind?,get?_eq_some_iff.mp h,Slot.kind]

theorem subForms_of_get? {g : FormGraph} {id : FormId} {f : Form} (h : g.get? id = some f) :
    g.subForms id = f.subForms := by simp [subForms,h]

theorem get?_of_mem_subForms {g : FormGraph} {id sub : FormId} (h : sub ∈ g.subForms id) :
    ∃ f, g.get? id = some f ∧ sub ∈ f.subForms := by
  unfold subForms at h
  cases hf : g.get? id with
  | none => simp [hf] at h
  | some f => exact ⟨f,rfl,by simpa [hf] using h⟩

@[simp] theorem size_declare (g : FormGraph) (name : String) (kind : Kind) :
    (g.declare name kind).2.size = g.size+1 := by simp [declare,size]

@[simp] theorem size_store (g : FormGraph) (id : FormId) (f : Form) :
    (g.store id f).size = g.size := by simp [store,size]

@[simp] theorem lookup?_declare (g : FormGraph) (name : String) (kind : Kind) (n : String) :
    (g.declare name kind).2.lookup? n = g.lookup? n := rfl

@[simp] theorem lookup?_store (g : FormGraph) (id : FormId) (f : Form) (n : String) :
    (g.store id f).lookup? n = g.lookup? n := rfl

theorem slot?_declare (g : FormGraph) (name : String) (kind : Kind) (id : FormId) :
    (g.declare name kind).2.slot? id =
      if id.index = g.size then some (.declared name kind) else g.slot? id := by
  show (g.slots ++ [Slot.declared name kind])[id.index]? = _
  by_cases h : id.index = g.size
  · rw [if_pos h,h]
    exact List.getElem?_concat_length
  · rw [if_neg h]
    by_cases hl : id.index < g.slots.length
    · exact List.getElem?_append_left hl
    · have hg : g.size < id.index := by unfold size at *; omega
      unfold size at hg
      rw [List.getElem?_eq_none (by simp; omega),slot?,List.getElem?_eq_none (by omega)]

theorem slot?_store {g : FormGraph} {id : FormId} (h : g.contains id) (f : Form) (j : FormId) :
    (g.store id f).slot? j = if j = id then some (.defined f) else g.slot? j := by
  have hi : id.index < g.slots.length := of_decide_eq_true h
  simp only [store,slot?]
  by_cases hj : j = id
  · subst hj
    simp [hi]
  · have : id.index ≠ j.index := fun he => hj (FormId.ext_index he.symm)
    simp [hj,this]

theorem get?_declare (g : FormGraph) (name : String) (kind : Kind) (id : FormId) :
    (g.declare name kind).2.get? id = g.get? id := by
  unfold get?
  rw [slot?_declare]
  split <;> rename_i h
  · have : g.slot? id = none := by simp [slot?_eq_none_iff,contains,h]
    simp [this,Slot.form?]
  · rfl

theorem get?_store {g : FormGraph} {id : FormId} (h : g.contains id) (f : Form) (j : FormId) :
    (g.store id f).get? j = if j = id then some f else g.get? j := by
  unfold get?
  rw [slot?_store h]
  split <;> rfl

@[simp] theorem contains_store (g : FormGraph) (id j : FormId) (f : Form) :
    (g.store id f).contains j = g.contains j := by simp [contains]

theorem contains_declare {g : FormGraph} {id : FormId} (h : g.contains id) (name : String)
    (kind : Kind) : (g.declare name kind).2.contains id := by
  simp only [contains,size_declare,decide_eq_true_eq] at h ⊢
  omega

theorem require_eq_ok_iff {g : FormGraph} {id : FormId} {f : Form} :
    g.require id = .ok f ↔ g.get? id = some f := by
  rw [get?_eq_some_iff]
  unfold require
  cases h : g.slot? id with
  | none => simp
  | some s => cases s <;> simp

/-- A definition succeeds on a declared form of the kind of the body, with the sub-forms issued and
the labels in order, and fills its slot. -/
theorem define_eq_ok_iff {g g' : FormGraph} {id : FormId} {body : Body}
    {labels : Option (List String)} :
    g.define id body labels = .ok g' ↔ ∃ name ls, g.slot? id = some (.declared name body.kind) ∧
      (body.subForms = [] → body.kind = .simple) ∧ (∀ sub ∈ body.subForms, g.contains sub) ∧
      labelsFor? name body labels = .ok ls ∧ g' = g.store id ⟨name,body,ls,false⟩ := by
  unfold define
  cases hs : g.slot? id with
  | none => simp
  | some s =>
    cases s with
    | defined f => simp
    | declared name kind =>
      by_cases hk : body.kind = kind
      · subst hk
        by_cases he : body.subForms = [] ∧ body.kind ≠ .simple
        · simp [he]
        · have he' : body.subForms = [] → body.kind = .simple := by simpa using he
          cases hm : body.subForms.find? (fun sub => !g.contains sub) with
          | some sub =>
            have hmem := List.mem_of_find?_eq_some hm
            have hout := List.find?_some hm
            simp only [ne_eq,not_true_eq_false,ite_false,he]
            constructor
            · intro h; cases h
            · rintro ⟨_,_,_,_,hin,_,_⟩
              simp [hin sub hmem] at hout
          | none =>
            have hin : ∀ sub ∈ body.subForms, g.contains sub := by simpa using hm
            cases hl : labelsFor? name body labels with
            | error e => simp [he,hl,bind,Except.bind]
            | ok ls =>
              simp only [ne_eq,not_true_eq_false,ite_false,he,hl,bind,Except.bind,
                Except.ok.injEq,Option.some.injEq,Slot.declared.injEq,and_true]
              constructor
              · rintro rfl
                exact ⟨name,ls,rfl,he',hin,hl,rfl⟩
              · rintro ⟨_,_,rfl,_,_,hl',rfl⟩
                rw [hl] at hl'
                cases hl'
                rfl
      · simp [hk]
        intro h; exact absurd h.symm hk

theorem labelsFor_eq_ok {name : String} {body : Body} {labels : List String} {l : Labels}
    (h : labelsFor name body labels = .ok l) :
    (body.kind = .limit ∨ body.kind = .colimit) ∧ l.names = labels ∧
      labels.length = body.subForms.length := by
  cases body <;> simp only [labelsFor] at h <;> try contradiction
  all_goals
    split at h <;> rename_i hl
    · split at h <;> rename_i hd
      · cases h
        unfold Labels.ofList? at hd
        split at hd
        · cases hd
          exact ⟨by simp [Body.kind],rfl,hl.symm⟩
        · contradiction
      · contradiction
    · contradiction

theorem labelsFor?_eq_ok {name : String} {body : Body} {labels : Option (List String)}
    {ls : Option Labels} (h : labelsFor? name body labels = .ok ls) :
    ls.map Labels.names = labels ∧ ∀ l, ls = some l →
      (body.kind = .limit ∨ body.kind = .colimit) ∧ l.names.length = body.subForms.length := by
  cases labels with
  | none =>
    cases h
    simp
  | some labels =>
    simp only [labelsFor?] at h
    cases hl : labelsFor name body labels with
    | error e => simp [hl,Except.map] at h
    | ok l =>
      simp only [hl,Except.map,Except.ok.injEq] at h
      subst h
      obtain ⟨hk,hn,hc⟩ := labelsFor_eq_ok hl
      exact ⟨by simp [hn],fun l' h => by cases h; exact ⟨hk,by rw [hn,hc]⟩⟩

theorem lookup?_enter (g : FormGraph) (id : FormId) (f : Form) (n : String) :
    (g.enter id f).lookup? n = if n = f.name then some id else g.lookup? n :=
  Table.get?_insert g.registry f.name n id

theorem get?_enter {g : FormGraph} {id : FormId} (h : g.contains id) (f : Form) (j : FormId) :
    (g.enter id f).get? j = if j = id then some {f with registered := true} else g.get? j :=
  get?_store h _ j

@[simp] theorem contains_enter (g : FormGraph) (id j : FormId) (f : Form) :
    (g.enter id f).contains j = g.contains j := contains_store g id j _

/-- A registration keeps the graph, if the name is held by an equal form, or enters the form. -/
theorem register_eq_ok_iff {g g' : FormGraph} {id held : FormId} :
    g.register id = .ok (held,g') ↔ ∃ f, g.get? id = some f ∧
      ((g.lookup? f.name = some held ∧ (held = id ∨ g.sameForm held id) ∧ g' = g) ∨
        (g.lookup? f.name = none ∧ held = id ∧ g' = g.enter id f)) := by
  unfold register
  cases hr : g.require id with
  | error e =>
    have : g.get? id = none := by
      cases hg : g.get? id with
      | none => rfl
      | some f => rw [require_eq_ok_iff.mpr hg] at hr; contradiction
    simp [this,bind,Except.bind]
  | ok f =>
    have hg := require_eq_ok_iff.mp hr
    have hunique (P : Form → Prop) : (∃ f', g.get? id = some f' ∧ P f') ↔ P f := by simp [hg]
    simp only [bind,Except.bind,hunique]
    cases hl : g.lookup? f.name with
    | none =>
      constructor
      · intro h; cases h; exact .inr ⟨rfl,rfl,rfl⟩
      · rintro (⟨h,-⟩ | ⟨-,rfl,rfl⟩)
        · contradiction
        · rfl
    | some h =>
      by_cases he : h = id ∨ g.sameForm h id
      · simp only [he,if_true,Except.ok.injEq,Prod.mk.injEq,Option.some.injEq]
        constructor
        · rintro ⟨rfl,rfl⟩
          exact .inl ⟨rfl,he,rfl⟩
        · rintro (⟨rfl,-,rfl⟩ | ⟨h,-⟩)
          · exact ⟨rfl,rfl⟩
          · contradiction
      · simp only [he,if_false]
        constructor
        · intro h; contradiction
        · rintro (⟨hh,hs,-⟩ | ⟨h,-⟩)
          · cases hh; exact absurd hs he
          · contradiction

end FormGraph
end AddressedForms
