import AddressedForms.Denotator.Order
import Mathlib.Data.Rat.Defs
import Mathlib.Algebra.Order.Ring.Unbundled.Rat
set_option autoImplicit false

/-!
Swapping the sides of a comparison turns it round. So strictly increasing lists with the same
members are the same list.
-/

namespace AddressedForms

theorem swap_compare {α : Type} [Ord α] [Std.OrientedOrd α] (a b : α) :
    (compare a b).swap = compare b a := Std.OrientedCmp.eq_swap.symm

theorem Fraction.compare_swap (a b : Fraction) : (compare a b).swap = compare b a := by
  show (compareOfLessAndEq a.val b.val).swap = compareOfLessAndEq b.val a.val
  unfold compareOfLessAndEq
  rcases lt_trichotomy a.val b.val with h | h | h
  · simp [h,h.not_gt,h.ne']
  · simp [h]
  · simp [h,h.not_gt,h.ne']

theorem Binary64.compare_swap (a b : Binary64) : (compare a b).swap = compare b a :=
  swap_compare a.rank b.rank

namespace Module

theorem compare_swap (x y : Module) : (x.compare y).swap = y.compare x := by
  induction x using Module.rec (motive_2 := fun xs => ∀ ys,
    (compareAll xs ys).swap = compareAll ys xs) generalizing y with
  | zn n => cases y <;> simp only [Module.compare,swap_compare]
  | product xs ih => cases y <;> simp only [Module.compare,swap_compare,ih]
  | nil => rename_i ys; cases ys <;> rfl
  | cons x xs ihx ihxs =>
    rename_i ys
    cases ys with
    | nil => rfl
    | cons y ys => simp only [compareAll,Ordering.swap_then,ihx,ihxs]
  | _ => cases y <;> simp only [Module.compare,swap_compare]

end Module

namespace Element

theorem compare_swap (x y : Element) : (x.compare y).swap = y.compare x := by
  induction x using Element.rec (motive_2 := fun xs => ∀ ys,
    (compareAll xs ys).swap = compareAll ys xs) generalizing y with
  | zn a m => cases y <;> simp only [Element.compare,Ordering.swap_then,swap_compare]
  | q a => cases y <;> simp only [Element.compare,swap_compare,Fraction.compare_swap]
  | r a => cases y <;> simp only [Element.compare,swap_compare,Binary64.compare_swap]
  | product xs ih => cases y <;> simp only [Element.compare,swap_compare,ih]
  | nil => rename_i ys; cases ys <;> rfl
  | cons x xs ihx ihxs =>
    rename_i ys
    cases ys with
    | nil => rfl
    | cons y ys => simp only [compareAll,Ordering.swap_then,ihx,ihxs]
  | _ => cases y <;> simp only [Element.compare,swap_compare]

end Element

theorem Morphism.compare_swap (f g : Morphism) : (f.compare g).swap = g.compare f := by
  have hm (x y : Module) : (compare x y).swap = compare y x := Module.compare_swap x y
  have he (x y : Element) : (compare x y).swap = compare y x := Element.compare_swap x y
  induction f generalizing g <;> cases g <;>
    simp_all only [Morphism.compare,Ordering.swap_then,swap_compare]

theorem Head.compare_swap (h k : Head) : (h.compare k).swap = k.compare h := by
  have hname (a b : Option String) : (compareName a b).swap = compareName b a := by
    cases a <;> cases b <;> simp [compareName,Name.compare_swap]
  have hform (a b : FormId) : (a.compare b).swap = b.compare a := swap_compare a.index b.index
  simp only [Head.compare,Ordering.swap_then,hname,hform,Module.compare_swap]

namespace Denotator

theorem compare_swap (x y : Denotator) : (x.compare y).swap = y.compare x := by
  induction x using Denotator.rec (motive_2 := fun xs => ∀ ys,
    (compareAll xs ys).swap = compareAll ys xs) generalizing y with
  | simple h m =>
    cases y <;> simp only [Denotator.compare,Ordering.swap_then,swap_compare,Head.compare_swap,
      Morphism.compare_swap]
  | limit h xs ih | power h xs ih | list h xs ih =>
    cases y <;> simp only [Denotator.compare,Ordering.swap_then,swap_compare,Head.compare_swap,ih]
  | colimit h i x ih =>
    cases y <;> simp only [Denotator.compare,Ordering.swap_then,swap_compare,Head.compare_swap,ih]
  | nil => rename_i ys; cases ys <;> rfl
  | cons x xs ihx ihxs =>
    rename_i ys
    cases ys with
    | nil => rfl
    | cons y ys => simp only [compareAll,Ordering.swap_then,ihx,ihxs]

/-- Every factor comes before all that follow it. -/
def StrictlySorted (xs : List Denotator) : Prop := xs.Pairwise fun x y => x.compare y = .lt

theorem StrictlySorted.nodup {xs : List Denotator} (h : StrictlySorted xs) : xs.Nodup := by
  refine h.imp fun {x y} hxy he => ?_
  rw [(compare_eq_iff x y).mpr he] at hxy
  contradiction

theorem eq_of_perm {xs ys : List Denotator} (hx : StrictlySorted xs) (hy : StrictlySorted ys)
    (h : xs.Perm ys) : xs = ys := by
  refine h.eq_of_pairwise (fun x y _ _ hxy hyx => ?_) hx hy
  rw [← compare_swap,hxy] at hyx
  contradiction

end Denotator
end AddressedForms
