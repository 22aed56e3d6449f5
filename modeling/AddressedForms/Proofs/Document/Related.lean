import AddressedForms.Document.Resolution
import AddressedForms.Proofs.Document.Attempt
import AddressedForms.Proofs.Lists
import AddressedForms.Proofs.Table
set_option autoImplicit false

/-!
Two runs that differ in their values, by a relation, and in nothing else: they fail together, report
the same, and have related values.
-/

namespace AddressedForms
variable {α β γ δ : Type} {R : α → β → Prop} {S : γ → δ → Prop}

namespace Attempt

structure Rel (R : α → β → Prop) (a : Attempt α) (b : Attempt β) : Prop where
  value : Option.Rel R a.value? b.value?
  reports : a.reports = b.reports

theorem rel_success {x : α} {y : β} (h : R x y) : Rel R (success x) (success y) := ⟨.some h,rfl⟩

theorem rel_failure (e : ReadError) : Rel R (failure e) (failure e) := ⟨.none,rfl⟩

theorem rel_silent : Rel R silent silent := ⟨.none,rfl⟩

theorem rel_self {a : Attempt α} {R : α → α → Prop} (h : ∀ x, a.value? = some x → R x x) :
    Rel R a a := by
  obtain ⟨v,es⟩ := a
  cases v with
  | none => exact ⟨.none,rfl⟩
  | some x => exact ⟨.some (h x rfl),rfl⟩

theorem rel_ofOption {x : Option α} {y : Option β} (h : Option.Rel R x y) :
    Rel R (ofOption x) (ofOption y) := by
  cases h with
  | none => exact rel_silent
  | some h => exact rel_success h

theorem Rel.eq {a b : Attempt α} {R : α → α → Prop} (h : Rel R a b) (hr : ∀ x y, R x y → x = y) :
    a = b := by
  obtain ⟨v,es⟩ := a
  obtain ⟨w,fs⟩ := b
  obtain ⟨hv,rfl⟩ := h
  cases hv with
  | none => rfl
  | some hxy => rw [hr _ _ hxy]

theorem Rel.bind {a : Attempt α} {b : Attempt β} {f : α → Attempt γ} {g : β → Attempt δ}
    (h : Rel R a b) (hf : ∀ x y, R x y → Rel S (f x) (g y)) : Rel S (a >>= f) (b >>= g) := by
  obtain ⟨v,es⟩ := a
  obtain ⟨w,fs⟩ := b
  obtain ⟨hv,rfl⟩ := h
  cases hv with
  | none => exact ⟨.none,rfl⟩
  | some hxy => exact ⟨(hf _ _ hxy).value,congrArg _ (hf _ _ hxy).reports⟩

theorem rel_all {as : List (Attempt α)} {bs : List (Attempt β)} (h : List.Forall₂ (Rel R) as bs) :
    Rel (List.Forall₂ R) (all as) (all bs) := by
  induction h with
  | nil => exact rel_success .nil
  | @cons a b as bs hab _ ih =>
    obtain ⟨v,es⟩ := a
    obtain ⟨w,fs⟩ := b
    obtain ⟨hv,rfl⟩ := hab
    refine ⟨?_,congrArg _ ih.reports⟩
    have hall := ih.value
    show Option.Rel _ (cons ⟨v,es⟩ (all as)).value? (cons ⟨w,es⟩ (all bs)).value?
    simp only [cons]
    cases hv with
    | none => exact .none
    | some hxy =>
      generalize (all as).value? = xs, (all bs).value? = ys at hall
      cases hall with
      | none => exact .none
      | some hxs => exact .some (.cons hxy hxs)

end Attempt

namespace Resolution

inductive Rel (R : α → β → Prop) : Resolution α → Resolution β → Prop
  | pending : Rel R .pending .pending
  | failed : Rel R .failed .failed
  | value {x : α} {y : β} (h : R x y) : Rel R (.value x) (.value y)

theorem rel_ofOption {x : Option α} {y : Option β} (h : Option.Rel R x y) :
    Rel R (ofOption x) (ofOption y) := by
  cases h with
  | none => exact .failed
  | some h => exact .value h

theorem Rel.eq {x y : Resolution α} {R : α → α → Prop} (h : Rel R x y)
    (hr : ∀ x y, R x y → x = y) : x = y := by
  cases h with
  | pending | failed => rfl
  | value h => rw [hr _ _ h]

variable {t : Table (Resolution α)} {u : Table (Resolution β)}

theorem rel_lookup (h : t.Alike (Rel R) u) (s : Symbol) {outside : String → Option α}
    {outside' : String → Option β} (ho : ∀ name, Option.Rel R (outside name) (outside' name))
    (name : String) : Attempt.Rel R (lookup s outside t name) (lookup s outside' u name) := by
  have hget := h.get? name
  unfold lookup
  generalize t.get? name = x, u.get? name = y at hget
  cases hget with
  | none => exact Attempt.rel_ofOption (ho name)
  | some hxy =>
    cases hxy with
    | pending => exact Attempt.rel_failure _
    | failed => exact Attempt.rel_silent
    | value h => exact Attempt.rel_success h

theorem forall₂_values (h : t.Alike (Rel R) u) :
    List.Forall₂ (fun a b => a.1 = b.1 ∧ R a.2 b.2) (values t) (values u) := by
  refine List.rel_filterMap (fun a b hab => ?_) h
  obtain ⟨k,v⟩ := a
  obtain ⟨j,w⟩ := b
  obtain ⟨rfl,hvw⟩ := hab
  cases hvw with
  | pending | failed => exact .none
  | value h => exact .some ⟨rfl,h⟩

structure Progress.Rel (R : α → β → Prop) (p : Progress α) (q : Progress β) : Prop where
  table : p.table.Alike (Resolution.Rel R) q.table
  reports : p.reports = q.reports

theorem Progress.Rel.eq {p q : Progress α} {R : α → α → Prop} (h : p.Rel R q)
    (hr : ∀ x y, R x y → x = y) : p = q := by
  have htable : p.table = q.table := h.table.eq fun _ _ hxy => hxy.eq hr
  have hreports := h.reports
  obtain ⟨t,es⟩ := p
  obtain ⟨u,fs⟩ := q
  cases htable
  cases hreports
  rfl

section Settle
variable {build : Table (Resolution α) → String → Attempt α}
  {build' : Table (Resolution β) → String → Attempt β}
  (hb : ∀ (t : Table (Resolution α)) (u : Table (Resolution β)) (name : String),
    t.Alike (Resolution.Rel R) u → Attempt.Rel R (build t name) (build' u name))
include hb

/-- Step lemma: related tables lead to related ones. -/
theorem Progress.Rel.settle {p : Progress α} {q : Progress β} (h : p.Rel R q) (name : String) :
    (Resolution.settle build p name).Rel R (Resolution.settle build' q name) := by
  have hget := h.table.get? name
  unfold Resolution.settle
  generalize p.table.get? name = x, q.table.get? name = y at hget
  cases hget with
  | none => exact h
  | some hxy =>
    cases hxy with
    | failed | value => exact h
    | pending =>
      obtain ⟨hvalue,hreports⟩ := hb p.table q.table name h.table
      exact ⟨h.table.insert name (rel_ofOption hvalue),congrArg₂ _ h.reports hreports⟩

theorem Progress.Rel.foldl {p : Progress α} {q : Progress β} (h : p.Rel R q)
    (names : List String) :
    (names.foldl (Resolution.settle build) p).Rel R (names.foldl (Resolution.settle build') q) := by
  induction names generalizing p q with
  | nil => exact h
  | cons name names ih => exact ih (h.settle hb name)

/-- Run lemma: what is built alike comes to related values. -/
theorem rel_settleAll (s : Symbol) (names : List String) (next : String → List String) :
    (settleAll s names next build).Rel R (settleAll s names next build') := by
  refine Progress.Rel.foldl hb ⟨Table.alike_ofList ?_,rfl⟩ _
  rw [List.forall₂_map_left_iff,List.forall₂_map_right_iff,List.forall₂_same]
  intro name _
  refine ⟨rfl,?_⟩
  split
  · exact .failed
  · exact .pending

end Settle
end Resolution
end AddressedForms
