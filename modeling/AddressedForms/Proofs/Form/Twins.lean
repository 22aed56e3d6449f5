import AddressedForms.Proofs.Form.Growth
import Mathlib.Logic.Relator
set_option autoImplicit false

/-!
Two graphs that hold the same forms under different numbers, as far as anything but the order of
numbers is concerned; and graphs in which new forms leave the similarity of old ones alone.
-/

namespace AddressedForms

theorem Body.related_self {R : FormId → FormId → Prop} {b : Body} (h : ∀ id ∈ b.subForms, R id id) :
    b.Related R b := ⟨rfl,rfl,List.forall₂_same.mpr h⟩

namespace FormGraph

/-- A correspondence of numbers, under which all that can be read off the forms of one graph can be
read off those of the other. -/
structure Twins (R : FormId → FormId → Prop) (g h : FormGraph) : Prop where
  unique : Relator.BiUnique R
  name : ∀ a b, R a b → g.nameOrId a = h.nameOrId b
  kind : ∀ a b, R a b → g.kind? a = h.kind? b
  form : ∀ a b, R a b → Option.Rel (fun x y => x.name = y.name ∧ x.body.Related R y.body)
    (g.get? a) (h.get? b)
  undefined : ∀ a b, R a b → g.get? a = none → a = b
  equal : ∀ a b c d, R a b → R c d → g.equalForms a c = h.equalForms b d

theorem twins_eq (g : FormGraph) : g.Twins Eq g where
  unique := ⟨fun _ _ _ h k => h.trans k.symm,fun _ _ _ h k => h.symm.trans k⟩
  name _ _ h := h ▸ rfl
  kind _ _ h := h ▸ rfl
  form a b h := by
    subst h
    cases g.get? a with
    | none => exact .none
    | some f => exact .some ⟨rfl,Body.related_self fun _ _ => rfl⟩
  undefined _ _ h _ := h
  equal _ _ _ _ hab hcd := by rw [hab,hcd]

def Retains (g h : FormGraph) : Prop := ∀ x, g.contains x → h.slot? x = g.slot? x

variable {g h : FormGraph} {a b : FormId}

theorem Retains.get? (hr : g.Retains h) (ha : g.contains a) : h.get? a = g.get? a :=
  congrArg (Option.bind · Slot.form?) (hr a ha)

theorem Retains.keeps (hr : g.Retains h) : g.Keeps h :=
  keeps_of_get? fun _ _ hf => (hr.get? (contains_of_get? hf)).trans hf

theorem Retains.contains (hr : g.Retains h) (ha : g.contains a) : h.contains a := by
  obtain ⟨n,hn⟩ := contains_iff_name?.mp ha
  refine contains_iff_name?.mpr ⟨n,?_⟩
  rw [name?,hr a ha]
  exact hn

theorem Retains.similar_iff (hr : g.Retains h) (hg : g.Sound) (ha : g.contains a)
    (hb : g.contains b) : h.Similar a b ↔ g.Similar a b := by
  refine ⟨fun hs => ?_,fun hs => hs.extend hr.keeps⟩
  refine ⟨fun x y => g.contains x ∧ g.contains y ∧ h.Similar x y,⟨ha,hb,hs⟩,?_⟩
  rintro x y ⟨hx,hy,hxy⟩
  refine hxy.agree.imp_right fun ⟨e,f,he,hf,hn,hbody⟩ => ?_
  rw [hr.get? hx] at he
  rw [hr.get? hy] at hf
  refine ⟨e,f,he,hf,hn,hbody.kind_eq,hbody.module_eq,forall₂_of_mem hbody.subForms ?_⟩
  exact fun c hc d hd hcd => ⟨hg.issued x e he c hc,hg.issued y f hf d hd,hcd⟩

end FormGraph
end AddressedForms
