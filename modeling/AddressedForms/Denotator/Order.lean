import AddressedForms.Denotator.Basic
import AddressedForms.Name
set_option autoImplicit false

/-!
The order of denotators, by form number, name, address and coordinate, and the normal form of sets
of denotators: strictly increasing lists.
-/

namespace AddressedForms
namespace Head

/-- Anonymous heads come before named ones. -/
def compareName : Option String → Option String → Ordering
  | none, none => .eq
  | none, some _ => .lt
  | some _, none => .gt
  | some a, some b => Name.compare a b

protected def compare (h k : Head) : Ordering :=
  (h.form.compare k.form).then ((compareName h.name k.name).then (h.address.compare k.address))

theorem compareName_eq_iff (a b : Option String) : compareName a b = .eq ↔ a = b := by
  cases a <;> cases b <;> simp [compareName,Name.compare_eq_iff]

theorem compare_eq_iff (h k : Head) : h.compare k = .eq ↔ h = k := by
  cases h; cases k
  simp [Head.compare,Ordering.then_eq_eq,FormId.compare_eq_iff,compareName_eq_iff,
    Module.compare_eq_iff]

end Head

namespace Denotator

mutual
protected def compare : Denotator → Denotator → Ordering
  | .simple h m, .simple k n => (h.compare k).then (m.compare n)
  | .limit h xs, .limit k ys => (h.compare k).then (compareAll xs ys)
  | .colimit h i x, .colimit k j y => (h.compare k).then ((compare i j).then (x.compare y))
  | .power h xs, .power k ys => (h.compare k).then (compareAll xs ys)
  | .list h xs, .list k ys => (h.compare k).then (compareAll xs ys)
  | x, y => (x.head.compare y.head).then (compare x.kind.ordinal y.kind.ordinal)
def compareAll : List Denotator → List Denotator → Ordering
  | [], [] => .eq
  | [], _ :: _ => .lt
  | _ :: _, [] => .gt
  | x :: xs, y :: ys => (x.compare y).then (compareAll xs ys)
end

instance : Ord Denotator := ⟨Denotator.compare⟩

theorem compare_eq_iff (x y : Denotator) : x.compare y = .eq ↔ x = y := by
  induction x using Denotator.rec (motive_2 := fun xs => ∀ ys, compareAll xs ys = .eq ↔ xs = ys)
    generalizing y with
  | simple h m =>
    cases y <;> simp [Denotator.compare,head,kind,Kind.ordinal,Ordering.then_eq_eq,
      Head.compare_eq_iff,Morphism.compare_eq_iff]
  | limit h xs ih | power h xs ih | list h xs ih =>
    cases y <;> simp [Denotator.compare,head,kind,Kind.ordinal,Ordering.then_eq_eq,
      Head.compare_eq_iff,ih]
  | colimit h i x ih =>
    cases y <;> simp [Denotator.compare,head,kind,Kind.ordinal,Ordering.then_eq_eq,
      Head.compare_eq_iff,ih]
  | nil => rename_i ys; cases ys <;> simp [compareAll]
  | cons x xs ihx ihxs =>
    rename_i ys
    cases ys <;> simp [compareAll,Ordering.then_eq_eq,ihx,ihxs]

instance : DecidableEq Denotator := fun x y => decidable_of_iff _ (compare_eq_iff x y)

/-- Inserts into a strictly increasing list, unless the denotator is there already. -/
def insertFactor (x : Denotator) : List Denotator → List Denotator
  | [] => [x]
  | y :: ys => match x.compare y with
    | .lt => x :: y :: ys
    | .eq => y :: ys
    | .gt => y :: insertFactor x ys

def asSet (xs : List Denotator) : List Denotator := xs.foldr insertFactor []

theorem mem_insertFactor (x y : Denotator) (ys : List Denotator) :
    y ∈ insertFactor x ys ↔ y = x ∨ y ∈ ys := by
  induction ys with
  | nil => simp [insertFactor]
  | cons z zs ih =>
    cases h : x.compare z with
    | lt => simp [insertFactor,h]
    | eq =>
      have := (compare_eq_iff x z).mp h
      subst this
      simp [insertFactor,h]
    | gt => simp [insertFactor,h,ih,or_left_comm]

theorem mem_asSet (y : Denotator) (xs : List Denotator) : y ∈ asSet xs ↔ y ∈ xs := by
  induction xs with
  | nil => simp [asSet]
  | cons x xs ih =>
    show y ∈ insertFactor x (asSet xs) ↔ _
    simp [mem_insertFactor,ih]

end Denotator
end AddressedForms
