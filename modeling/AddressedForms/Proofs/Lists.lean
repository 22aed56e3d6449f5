import Mathlib.Data.List.Forall2
import Mathlib.Data.List.Perm.Basic
set_option autoImplicit false

/-!
Computations that may fail, in steps and over lists, and lists that are related member by member.
-/

namespace AddressedForms
variable {α β γ ε : Type}

theorem Except.bind_eq_ok_iff {a : Except ε α} {f : α → Except ε β} {y : β} :
    (a >>= f) = .ok y ↔ ∃ x, a = .ok x ∧ f x = .ok y := by
  cases a <;> simp [bind,Except.bind]

theorem Except.check_eq_ok_iff {a : Except ε Unit} {b : Except ε β} {y : β} :
    (a >>= fun _ => b) = .ok y ↔ a = .ok () ∧ b = .ok y := by
  cases a <;> simp [bind,Except.bind]

theorem Except.mapError_eq_ok_iff {δ : Type} {a : Except ε α} {f : ε → δ} {y : α} :
    a.mapError f = .ok y ↔ a = .ok y := by
  cases a <;> simp [Except.mapError]

inductive Except.Rel (R : α → β → Prop) : Except ε α → Except ε β → Prop
  | error (e : ε) : Except.Rel R (.error e) (.error e)
  | ok {x : α} {y : β} (h : R x y) : Except.Rel R (.ok x) (.ok y)

theorem Except.Rel.bind {δ : Type} {R : α → β → Prop} {S : γ → δ → Prop} {a : Except ε α}
    {b : Except ε β} {f : α → Except ε γ} {g : β → Except ε δ} (h : Except.Rel R a b)
    (hf : ∀ x y, R x y → Except.Rel S (f x) (g y)) : Except.Rel S (a >>= f) (b >>= g) := by
  cases h with
  | error e => exact .error e
  | ok h => exact hf _ _ h

theorem Except.Rel.mapError {δ : Type} {R : α → β → Prop} {a : Except ε α} {b : Except ε β}
    (h : Except.Rel R a b) (f : ε → δ) : Except.Rel R (a.mapError f) (b.mapError f) := by
  cases h with
  | error e => exact .error (f e)
  | ok h => exact .ok h

theorem Except.rel_self (a : Except ε α) : Except.Rel Eq a a := by
  cases a with
  | error e => exact .error e
  | ok x => exact .ok rfl

theorem mapM_eq_some_iff {f : α → Option β} {xs : List α} {ys : List β} :
    xs.mapM f = some ys ↔ List.Forall₂ (fun x y => f x = some y) xs ys := by
  induction xs generalizing ys with
  | nil => cases ys <;> simp
  | cons x xs ih =>
    rw [List.mapM_cons]
    cases hx : f x with
    | none => cases ys <;> simp [hx]
    | some y =>
      cases hxs : xs.mapM f with
      | none => cases ys <;> simp [hx,← ih,hxs]
      | some zs => cases ys <;> simp [hx,← ih,hxs]

theorem mapM_eq_ok_iff {f : α → Except ε β} {xs : List α} {ys : List β} :
    xs.mapM f = .ok ys ↔ List.Forall₂ (fun x y => f x = .ok y) xs ys := by
  induction xs generalizing ys with
  | nil => cases ys <;> simp [pure,Except.pure]
  | cons x xs ih =>
    simp only [List.mapM_cons,Except.bind_eq_ok_iff,ih,List.forall₂_cons_left_iff,pure,
      Except.pure,Except.ok.injEq]
    exact ⟨fun ⟨y,hy,zs,hzs,h⟩ => ⟨y,zs,hy,hzs,h.symm⟩,fun ⟨y,zs,hy,hzs,h⟩ => ⟨y,hy,zs,hzs,h.symm⟩⟩

theorem forall₂_comp {R : α → β → Prop} {S : β → γ → Prop} {xs : List α} {ys : List β}
    {zs : List γ} (h : List.Forall₂ R xs ys) (k : List.Forall₂ S ys zs) :
    List.Forall₂ (fun x z => ∃ y, R x y ∧ S y z) xs zs := by
  induction h generalizing zs with
  | nil => cases k; exact .nil
  | cons hr _ ih => cases k with | cons hs hk => exact .cons ⟨_,hr,hs⟩ (ih hk)

theorem forall₂_both {R S : α → β → Prop} {xs : List α} {ys : List β} (h : List.Forall₂ R xs ys)
    (k : List.Forall₂ S xs ys) : List.Forall₂ (fun x y => R x y ∧ S x y) xs ys := by
  induction h with
  | nil => exact .nil
  | cons hr _ ih => cases k with | cons hs hk => exact .cons ⟨hr,hs⟩ (ih hk)

theorem forall₂_of_mem {R S : α → β → Prop} {xs : List α} {ys : List β} (h : List.Forall₂ R xs ys)
    (hs : ∀ x ∈ xs, ∀ y ∈ ys, R x y → S x y) : List.Forall₂ S xs ys := by
  induction h with
  | nil => exact .nil
  | cons hr _ ih =>
    refine .cons (hs _ List.mem_cons_self _ List.mem_cons_self hr) (ih fun x hx y hy => ?_)
    exact hs x (List.mem_cons_of_mem _ hx) y (List.mem_cons_of_mem _ hy)

theorem exists_forall₂ {R : α → β → Prop} {xs : List α} (h : ∀ x ∈ xs, ∃ y, R x y) :
    ∃ ys, List.Forall₂ R xs ys := by
  induction xs with
  | nil => exact ⟨[],.nil⟩
  | cons x xs ih =>
    obtain ⟨y,hy⟩ := h x List.mem_cons_self
    obtain ⟨ys,hys⟩ := ih fun x hx => h x (List.mem_cons_of_mem _ hx)
    exact ⟨y :: ys,.cons hy hys⟩

theorem exists_of_forall₂_left {R : α → β → Prop} {xs : List α} {ys : List β}
    (h : List.Forall₂ R xs ys) {x : α} (hx : x ∈ xs) : ∃ y ∈ ys, R x y := by
  induction h with
  | nil => simp at hx
  | cons hr _ ih =>
    rcases List.mem_cons.mp hx with rfl | hx
    · exact ⟨_,List.mem_cons_self,hr⟩
    · obtain ⟨y,hy,hxy⟩ := ih hx
      exact ⟨y,List.mem_cons_of_mem _ hy,hxy⟩

theorem exists_of_forall₂_right {R : α → β → Prop} {xs : List α} {ys : List β}
    (h : List.Forall₂ R xs ys) {y : β} (hy : y ∈ ys) : ∃ x ∈ xs, R x y :=
  exists_of_forall₂_left h.flip hy

theorem getElem?_of_forall₂ {R : α → β → Prop} {xs : List α} {ys : List β}
    (h : List.Forall₂ R xs ys) {j : Nat} {y : β} (hy : ys[j]? = some y) :
    ∃ x, xs[j]? = some x ∧ R x y := by
  induction h generalizing j with
  | nil => cases hy
  | cons hr _ ih =>
    cases j with
    | zero =>
      cases hy
      exact ⟨_,rfl,hr⟩
    | succ j => exact ih hy

theorem rel_getElem? {R : α → β → Prop} {xs : List α} {ys : List β} (h : List.Forall₂ R xs ys)
    (i : Nat) : Option.Rel R xs[i]? ys[i]? := by
  induction h generalizing i with
  | nil => exact .none
  | cons hr _ ih =>
    cases i with
    | zero => exact .some hr
    | succ i => exact ih i

theorem forall₂_set {R : α → β → Prop} {xs : List α} {ys : List β} (h : List.Forall₂ R xs ys)
    {i : Nat} {x : α} {y : β} (hx : xs[i]? = some x) (hr : R x y) :
    List.Forall₂ R xs (ys.set i y) := by
  induction h generalizing i with
  | nil => exact .nil
  | cons hr' h ih =>
    cases i with
    | zero =>
      cases hx
      exact .cons hr h
    | succ i => exact .cons hr' (ih hx)

theorem forall₂_append_single {R : α → β → Prop} {xs : List α} {ys : List β} {x : α} {y : β}
    (h : List.Forall₂ R xs ys) (hr : R x y) : List.Forall₂ R (xs ++ [x]) (ys ++ [y]) :=
  List.rel_append h (.cons hr .nil)

theorem map_eq_of_forall₂ {R : α → β → Prop} {f : α → γ} {g : β → γ} {xs : List α} {ys : List β}
    (h : List.Forall₂ R xs ys) (hr : ∀ x y, R x y → f x = g y) : xs.map f = ys.map g := by
  induction h with
  | nil => rfl
  | cons hxy _ ih => rw [List.map_cons,List.map_cons,hr _ _ hxy,ih]

theorem forall_prefix_append_single {P : List α → α → Prop} {as : List α} {a : α}
    (h : ∀ l x, l ++ [x] <+: as → P l x) (ha : P as a) :
    ∀ l x, l ++ [x] <+: as ++ [a] → P l x := by
  intro l x hp
  rcases List.prefix_concat_iff.mp hp with he | hp
  · obtain ⟨hl,hx⟩ := List.append_inj' he rfl
    cases hl
    cases hx
    exact ha
  · exact h l x hp

theorem append_single_eq_append_cons {xs before after : List α} {x y : α}
    (h : xs ++ [x] = before ++ y :: after) :
    after = [] ∧ before = xs ∧ y = x ∨ ∃ rest, xs = before ++ y :: rest := by
  rcases List.eq_nil_or_concat after with rfl | ⟨rest,last,rfl⟩
  · obtain ⟨hxs,hx⟩ := List.append_inj' h rfl
    exact .inl ⟨rfl,hxs.symm,(List.singleton_inj.mp hx).symm⟩
  · have h' : xs ++ [x] = (before ++ y :: rest) ++ [last] := by simpa using h
    exact .inr ⟨rest,(List.append_inj' h' rfl).1⟩

theorem filterMap_append_single (f : α → Option β) (xs : List α) (x : α) :
    (xs ++ [x]).filterMap f = xs.filterMap f ++ (f x).toList := by
  cases h : f x <;> simp [h]

theorem filterMap_append_of_none {f : α → Option β} {x : α} (h : f x = none) (xs : List α) :
    (xs ++ [x]).filterMap f = xs.filterMap f := by
  rw [filterMap_append_single,h,Option.toList_none,List.append_nil]

/-- What some members come to, when all others come to nothing. -/
theorem forall₂_filter_filterMap {R : α → β → Prop} {p : α → Bool} {f : α → Option β} {xs : List α}
    (hs : ∀ x ∈ xs, p x → ∃ y, f x = some y ∧ R x y) (hn : ∀ x ∈ xs, ¬ p x → f x = none) :
    List.Forall₂ R (xs.filter p) (xs.filterMap f) := by
  induction xs with
  | nil => exact .nil
  | cons x xs ih =>
    rw [List.forall_mem_cons] at hs hn
    have hrest := ih hs.2 hn.2
    by_cases hp : p x
    · obtain ⟨y,hy,hr⟩ := hs.1 hp
      rw [List.filter_cons_of_pos hp,List.filterMap_cons_some hy]
      exact .cons hr hrest
    · rwa [List.filter_cons_of_neg hp,List.filterMap_cons_none (hn.1 hp)]

theorem rel_findSome? {R : β → γ → Prop} {f : α → Option β} {g : α → Option γ}
    (h : ∀ x, Option.Rel R (f x) (g x)) (xs : List α) :
    Option.Rel R (xs.findSome? f) (xs.findSome? g) := by
  induction xs with
  | nil => exact .none
  | cons x xs ih =>
    have hx := h x
    rw [List.findSome?_cons,List.findSome?_cons]
    generalize f x = y, g x = z at hx
    cases hx with
    | none => exact ih
    | some hyz => exact .some hyz

theorem nodup_eraseDups [BEq α] [LawfulBEq α] (xs : List α) : xs.eraseDups.Nodup := by
  match xs with
  | [] => exact .nil
  | x :: xs =>
    rw [List.eraseDups_cons,List.nodup_cons]
    exact ⟨by simp,nodup_eraseDups _⟩
termination_by xs.length
decreasing_by exact Nat.lt_succ_of_le (List.length_filter_le _ _)

theorem eraseDups_perm [BEq α] [LawfulBEq α] {xs ys : List α} (h : xs.Perm ys) :
    xs.eraseDups.Perm ys.eraseDups := by
  refine (List.perm_ext_iff_of_nodup (nodup_eraseDups xs) (nodup_eraseDups ys)).mpr fun x => ?_
  rw [List.mem_eraseDups,List.mem_eraseDups,h.mem_iff]

theorem map_filterMap_sublist {f : α → Option β} {k : β → γ} {j : α → γ}
    (h : ∀ x y, f x = some y → k y = j x) (xs : List α) :
    ((xs.filterMap f).map k).Sublist (xs.map j) := by
  induction xs with
  | nil => exact .slnil
  | cons x xs ih =>
    cases hx : f x with
    | none => simpa [hx] using ih.cons (j x)
    | some y => simpa [hx,h x y hx] using ih

end AddressedForms
