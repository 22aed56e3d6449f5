import AddressedForms.Proofs.Form.Twins
set_option autoImplicit false

/-!
Two graphs that coincide in some of their numbers, but for which forms are registered. Where these
numbers include those of all sub-forms, nothing that is asked about them tells the graphs apart.
-/

namespace AddressedForms

def Slot.unmarked : Slot → Slot
  | .declared name kind => .declared name kind
  | .defined f => .defined {f with registered := false}

@[simp] theorem Slot.name_unmarked (s : Slot) : s.unmarked.name = s.name := by cases s <;> rfl

@[simp] theorem Slot.kind_unmarked (s : Slot) : s.unmarked.kind = s.kind := by cases s <;> rfl

namespace FormGraph
variable {P : FormId → Prop} {g h : FormGraph} {x y : FormId}

structure Coincide (P : FormId → Prop) (g h : FormGraph) : Prop where
  slots : ∀ x, P x → (h.slot? x).map Slot.unmarked = (g.slot? x).map Slot.unmarked
  closed : ∀ x f, P x → g.get? x = some f → ∀ sub ∈ f.subForms, P sub

theorem get?_of_unmarked {f : Form}
    (hs : (h.slot? x).map Slot.unmarked = (g.slot? x).map Slot.unmarked) (hf : g.get? x = some f) :
    ∃ e, h.get? x = some e ∧ e.name = f.name ∧ e.body = f.body := by
  rw [get?_eq_some_iff.mp hf] at hs
  cases hslot : h.slot? x with
  | none => simp [hslot] at hs
  | some s =>
    cases s with
    | declared name kind => simp [hslot,Slot.unmarked] at hs
    | defined e =>
      simp only [hslot,Option.map_some,Option.some.injEq,Slot.unmarked,Slot.defined.injEq,
        Form.mk.injEq] at hs
      exact ⟨e,get?_eq_some_iff.mpr hslot,hs.1,hs.2.1⟩

theorem Coincide.get? (hc : Coincide P g h) (hx : P x) {f : Form} (hf : g.get? x = some f) :
    ∃ e, h.get? x = some e ∧ e.name = f.name ∧ e.body = f.body :=
  get?_of_unmarked (hc.slots x hx) hf

theorem Coincide.symm (hc : Coincide P g h) : Coincide P h g where
  slots x hx := (hc.slots x hx).symm
  closed x f hx hf sub hsub := by
    obtain ⟨e,he,-,hbody⟩ := get?_of_unmarked (hc.slots x hx).symm hf
    refine hc.closed x e hx he sub ?_
    rwa [Form.subForms,hbody]

theorem Coincide.name?_eq (hc : Coincide P g h) (hx : P x) : h.name? x = g.name? x := by
  have hname (k : FormGraph) : k.name? x = ((k.slot? x).map Slot.unmarked).map Slot.name := by
    simp [name?,Function.comp_def]
  rw [hname h,hname g,hc.slots x hx]

theorem Coincide.kind?_eq (hc : Coincide P g h) (hx : P x) : h.kind? x = g.kind? x := by
  have hkind (k : FormGraph) : k.kind? x = ((k.slot? x).map Slot.unmarked).map Slot.kind := by
    simp [kind?,Function.comp_def]
  rw [hkind h,hkind g,hc.slots x hx]

/-- Similarity in one graph is a bisimulation of the other. -/
theorem Coincide.similar (hc : Coincide P g h) (hx : P x) (hy : P y) (hs : g.Similar x y) :
    h.Similar x y := by
  refine ⟨fun a b => P a ∧ P b ∧ g.Similar a b,⟨hx,hy,hs⟩,?_⟩
  rintro a b ⟨ha,hb,hab⟩
  refine hab.agree.imp_right ?_
  rintro ⟨e,f,he,hf,hn,hbody⟩
  obtain ⟨e',he',hen,heb⟩ := hc.get? ha he
  obtain ⟨f',hf',hfn,hfb⟩ := hc.get? hb hf
  refine ⟨e',f',he',hf',hen.trans (hn.trans hfn.symm),?_⟩
  rw [heb,hfb]
  refine ⟨hbody.kind_eq,hbody.module_eq,forall₂_of_mem hbody.subForms ?_⟩
  exact fun c hec d hfd hcd => ⟨hc.closed a e ha he c hec,hc.closed b f hb hf d hfd,hcd⟩

theorem Coincide.similar_iff (hc : Coincide P g h) (hx : P x) (hy : P y) :
    h.Similar x y ↔ g.Similar x y := ⟨hc.symm.similar hx hy,hc.similar hx hy⟩

theorem Coincide.twins (hc : Coincide P g h) (hg : g.NamesUnique) (hh : h.NamesUnique) :
    g.Twins (fun x y => x = y ∧ P x) h where
  unique := by
    constructor
    · rintro x y z ⟨rfl,-⟩ ⟨rfl,-⟩
      rfl
    · rintro x y z ⟨rfl,-⟩ ⟨rfl,-⟩
      rfl
  name := by
    rintro x _ ⟨rfl,hx⟩
    simp [nameOrId,hc.name?_eq hx]
  kind := by
    rintro x _ ⟨rfl,hx⟩
    exact (hc.kind?_eq hx).symm
  form := by
    rintro x _ ⟨rfl,hx⟩
    cases hf : g.get? x with
    | some f =>
      obtain ⟨e,he,hn,hb⟩ := hc.get? hx hf
      rw [he]
      refine .some ⟨hn.symm,?_⟩
      rw [hb]
      exact Body.related_self fun sub hsub => ⟨rfl,hc.closed x f hx hf sub hsub⟩
    | none =>
      cases he : h.get? x with
      | none => exact .none
      | some e =>
        obtain ⟨f,hf',-⟩ := hc.symm.get? hx he
        rw [hf] at hf'
        cases hf'
  undefined := by
    rintro x _ ⟨rfl,-⟩ -
    rfl
  equal := by
    rintro x _ y _ ⟨rfl,hx⟩ ⟨rfl,hy⟩
    rw [Bool.eq_iff_iff,equalForms_iff_similar hg,equalForms_iff_similar hh,hc.similar_iff hx hy]

end FormGraph
end AddressedForms
