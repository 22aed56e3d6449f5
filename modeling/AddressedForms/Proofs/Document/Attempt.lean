import AddressedForms.Document.Error
import AddressedForms.Proofs.Lists
set_option autoImplicit false

/-!
Attempts one after the other and side by side: they succeed together, and report together.
-/

namespace AddressedForms
namespace Attempt
variable {α β : Type}

theorem value?_ofOption (x : Option α) : (ofOption x).value? = x := by
  cases x <;> rfl

theorem successes {f : α → Attempt β} {P : α → β → Prop} {xs : List α}
    (h : ∀ x ∈ xs, ∃ y, f x = .success y ∧ P x y) : ∃ ys, List.Forall₂ P xs ys ∧
      (xs.map f).filterMap value? = ys ∧ (xs.map f).flatMap reports = [] := by
  induction xs with
  | nil => exact ⟨[],.nil,rfl,rfl⟩
  | cons x xs ih =>
    obtain ⟨y,hy,hp⟩ := h x (by simp)
    obtain ⟨ys,hys,hvalues,hreports⟩ := ih fun z hz => h z (List.mem_cons_of_mem _ hz)
    exact ⟨y :: ys,.cons hp hys,by simp [hy,success,hvalues],by simpa [hy,success] using hreports⟩

theorem reports_bind_eq_nil {a : Attempt α} {f : α → Attempt β} (h : (a >>= f).reports = []) :
    a.reports = [] ∧ ∀ x, a.value? = some x → (f x).reports = [] := by
  obtain ⟨v,es⟩ := a
  cases v with
  | none => exact ⟨h,by simp⟩
  | some x =>
    obtain ⟨hes,hf⟩ := List.append_eq_nil_iff.mp h
    refine ⟨hes,fun y hy => ?_⟩
    cases hy
    exact hf

theorem reports_all (as : List (Attempt α)) : (all as).reports = as.flatMap reports := by
  induction as with
  | nil => rfl
  | cons a as ih => simp [all,cons,ih]

theorem all_map_success (xs : List α) : all (xs.map success) = success xs := by
  induction xs with
  | nil => rfl
  | cons x xs ih => simp [all,ih,cons,success]

@[simp] theorem reports_map_success (xs : List α) :
    (xs.map success).flatMap reports = [] := by
  simp [List.flatMap_map,success]

@[simp] theorem values_map_success (xs : List α) : (xs.map success).filterMap value? = xs := by
  simp [List.filterMap_map,Function.comp_def,success]

/-- An attempt succeeds with a property, at least if it reports nothing where that is supposed. -/
def Yields (supposed : Prop) (a : Attempt α) (P : α → Prop) : Prop :=
  (supposed → a.reports = []) → ∃ x, a = .success x ∧ P x

theorem successes_of_forall₂ {γ : Type} {R : γ → α → Prop} {P : β → γ → Prop} {f : α → Attempt β}
    {zs : List γ} {xs : List α} (h : List.Forall₂ R zs xs)
    (hs : ∀ z ∈ zs, ∀ x ∈ xs, R z x → ∃ y, f x = .success y ∧ P y z) :
    ∃ ys, xs.map f = ys.map .success ∧ List.Forall₂ P ys zs := by
  induction h with
  | nil => exact ⟨[],rfl,.nil⟩
  | @cons z x zs xs hzx _ ih =>
    obtain ⟨y,hy,hp⟩ := hs z (by simp) x (by simp) hzx
    obtain ⟨ys,hys,hps⟩ := ih fun w hw v hv =>
      hs w (List.mem_cons_of_mem _ hw) v (List.mem_cons_of_mem _ hv)
    exact ⟨y :: ys,by simp [hy,hys],.cons hp hps⟩

end Attempt
end AddressedForms
