set_option autoImplicit false

/-!
The order of names: by code points from the left, a proper beginning first. It is a strict total
order, since its ties are equalities (`compare_eq_iff`), swapping turns it round (`compare_swap`)
and it is transitive (`compare_lt_trans`).
-/

namespace AddressedForms
namespace Name

def compareChars : List Char → List Char → Ordering
  | [], [] => .eq
  | [], _ :: _ => .lt
  | _ :: _, [] => .gt
  | x :: xs, y :: ys => (compare x.toNat y.toNat).then (compareChars xs ys)

protected def compare (a b : String) : Ordering := compareChars a.toList b.toList

theorem compareChars_eq_iff (xs ys : List Char) : compareChars xs ys = .eq ↔ xs = ys := by
  induction xs generalizing ys with
  | nil => cases ys <;> simp [compareChars]
  | cons x xs ih =>
    cases ys <;> simp [compareChars,Ordering.then_eq_eq,ih,Char.toNat_inj]

theorem compareChars_swap (xs ys : List Char) :
    (compareChars xs ys).swap = compareChars ys xs := by
  induction xs generalizing ys with
  | nil => cases ys <;> rfl
  | cons x xs ih =>
    cases ys with
    | nil => rfl
    | cons y ys => simp only [compareChars,Ordering.swap_then,ih,Nat.compare_swap]

theorem compareChars_lt_trans {xs ys zs : List Char} (h : compareChars xs ys = .lt)
    (k : compareChars ys zs = .lt) : compareChars xs zs = .lt := by
  induction xs generalizing ys zs with
  | nil => cases ys <;> cases zs <;> simp_all [compareChars]
  | cons x xs ih =>
    cases ys with
    | nil => simp [compareChars] at h
    | cons y ys =>
      cases zs with
      | nil => simp [compareChars] at k
      | cons z zs =>
        simp only [compareChars,Ordering.then_eq_lt,Nat.compare_eq_lt,Nat.compare_eq_eq] at h k ⊢
        rcases h with h | ⟨h,hs⟩ <;> rcases k with k | ⟨k,ks⟩
        · exact .inl (by omega)
        · exact .inl (by omega)
        · exact .inl (by omega)
        · exact .inr ⟨by omega,ih hs ks⟩

theorem compare_eq_iff (a b : String) : Name.compare a b = .eq ↔ a = b := by
  simp [Name.compare,compareChars_eq_iff,String.toList_inj]

@[simp] theorem compare_self (a : String) : Name.compare a a = .eq := (compare_eq_iff a a).mpr rfl

theorem compare_swap (a b : String) : (Name.compare a b).swap = Name.compare b a :=
  compareChars_swap a.toList b.toList

theorem compare_gt_iff (a b : String) : Name.compare a b = .gt ↔ Name.compare b a = .lt := by
  rw [← compare_swap b a,Ordering.swap_eq_gt]

theorem compare_lt_trans {a b c : String} (h : Name.compare a b = .lt)
    (k : Name.compare b c = .lt) : Name.compare a c = .lt := compareChars_lt_trans h k

end Name
end AddressedForms
