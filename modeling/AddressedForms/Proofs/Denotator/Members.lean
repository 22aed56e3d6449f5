import AddressedForms.Proofs.Denotator.Construct
import AddressedForms.Proofs.Denotator.Sets
import AddressedForms.Proofs.Document.DenotatorRoundTrip
import Mathlib.Data.List.Destutter
set_option autoImplicit false

/-!
Sets as their members. The order of denotators is a total one, so whichever way the factors of a set
are sorted before equal neighbours are dropped, the same list is left; and the construction of a set
asks of the factors only what each of them answers for itself, and for an address that all of them
share. So a set is made of its members, however they come.
-/

namespace AddressedForms
namespace Denotator
variable {g : FormGraph} {d : Denotator} {form : FormId} {s : Module}
  {xs ys zs : List Denotator}

theorem compare_eq_then_parts (x y : Denotator) : compare x y = (x.form.compare y.form).then
    ((Head.compareName x.name y.name).then
      ((x.address.compare y.address).then (x.compareParts y))) := by
  refine (compare_eq_then x y).trans ?_
  rw [Head.compare,Ordering.then_assoc,Ordering.then_assoc]
  rfl

theorem compare_ne_gt_iff {x y : Denotator} :
    compare x y ≠ .gt ↔ compare x y = .lt ∨ x = y := by
  rw [← compare_eq_iff]
  show compare x y ≠ .gt ↔ compare x y = .lt ∨ compare x y = .eq
  cases compare x y <;> simp

instance : Std.Antisymm fun x y : Denotator => compare x y ≠ .gt where
  antisymm x y hxy hyx := by
    rcases compare_ne_gt_iff.mp hxy with h | h
    · exact absurd ((compare_swap x y).symm.trans (congrArg Ordering.swap h)) hyx
    · exact h

theorem destutter_eq_asSet (hp : zs.Perm xs) (hs : zs.Pairwise fun x y => compare x y ≠ .gt) :
    zs.destutter (· ≠ ·) = asSet xs := by
  rw [hs.destutter_eq_dedup]
  have hsorted : StrictlySorted zs.dedup := by
    refine ((hs.sublist zs.dedup_sublist).and zs.nodup_dedup).imp fun {x y} h => ?_
    exact (compare_ne_gt_iff.mp h.1).resolve_right h.2
  refine hsorted.eq_of_mem_iff (strictlySorted_asSet xs) fun x => ?_
  rw [List.mem_dedup,mem_asSet,hp.mem_iff]

section SameMembers

theorem sharedAddress_of_mem_iff (h : ∀ x, x ∈ xs ↔ x ∈ ys) :
    sharedAddress xs = .ok s ↔ sharedAddress ys = .ok s := by
  rw [sharedAddress_eq_ok_iff,sharedAddress_eq_ok_iff]
  simp only [h]

theorem asSet_of_mem_iff (h : ∀ x, x ∈ xs ↔ x ∈ ys) : asSet xs = asSet ys := by
  refine (strictlySorted_asSet xs).eq_of_mem_iff (strictlySorted_asSet ys) fun x => ?_
  rw [mem_asSet,mem_asSet,h]

theorem ofSet_eq_ok_iff : ofSet g form xs = .ok d ↔ ∃ f base s,
    requireKind g form .power = .ok f ∧ fromPath (f.subForm 0) = .ok base ∧
    checkAll g base xs = .ok () ∧ sharedAddress xs = .ok s ∧
    d = .power ⟨form,none,s⟩ (asSet xs) := by
  constructor
  · intro h
    obtain ⟨f,hf,h⟩ := Except.bind_eq_ok_iff.mp h
    obtain ⟨base,hbase,h⟩ := Except.bind_eq_ok_iff.mp h
    obtain ⟨hforms,h⟩ := Except.check_eq_ok_iff.mp h
    obtain ⟨s,hs,h⟩ := Except.bind_eq_ok_iff.mp h
    exact ⟨f,base,s,hf,hbase,hforms,hs,(Except.ok.inj h).symm⟩
  · rintro ⟨f,base,s,hf,hbase,hforms,hs,rfl⟩
    exact Except.bind_eq_ok_iff.mpr ⟨f,hf,Except.bind_eq_ok_iff.mpr ⟨base,hbase,
      Except.check_eq_ok_iff.mpr ⟨hforms,Except.bind_eq_ok_iff.mpr ⟨s,hs,rfl⟩⟩⟩⟩

end SameMembers

/-- The order of denotators looks at forms, names, addresses and coordinates in turn; it is total
and its ties are equalities. A set that can be made of some factors can be made of the same factors
in any order and number; its own factors are strictly increasing, are those factors, and are what is
left of them sorted, without equal neighbours. -/
theorem ofSet_canonical :
    ((∀ x y : Denotator, compare x y = (x.form.compare y.form).then
        ((Head.compareName x.name y.name).then
          ((x.address.compare y.address).then (x.compareParts y)))) ∧
      (∀ x y : Denotator, compare x y = .eq ↔ x = y) ∧
      (∀ x y : Denotator, compare y x = (compare x y).swap) ∧
      ∀ x y z : Denotator, compare x y = .lt → compare y z = .lt → compare x z = .lt) ∧
    ∀ (g : FormGraph) (form : FormId) (xs ys : List Denotator) (d : Denotator),
      (∀ x, x ∈ xs ↔ x ∈ ys) → ofSet g form xs = .ok d →
      ofSet g form ys = .ok d ∧ d.factors.Pairwise (fun x y => compare x y = .lt) ∧
      (∀ x, x ∈ d.factors ↔ x ∈ xs) ∧
      ∀ zs : List Denotator, zs.Perm ys → zs.Pairwise (fun x y => compare x y ≠ .gt) →
        zs.destutter (· ≠ ·) = d.factors := by
  refine ⟨⟨compare_eq_then_parts,compare_eq_iff,fun x y => (compare_swap x y).symm,
    fun x y z => compare_lt_trans⟩,fun g form xs ys d hmem hd => ?_⟩
  obtain ⟨f,base,s,hf,hbase,hforms,hs,rfl⟩ := ofSet_eq_ok_iff.mp hd
  have hsame : asSet xs = asSet ys := asSet_of_mem_iff hmem
  have hforms' : checkAll g base ys = .ok () :=
    checkAll_eq_ok_iff_forall.mpr fun y hy =>
      checkAll_eq_ok_iff_forall.mp hforms y ((hmem y).mpr hy)
  refine ⟨ofSet_eq_ok_iff.mpr ⟨f,base,s,hf,hbase,hforms',(sharedAddress_of_mem_iff hmem).mp hs,
    by rw [hsame]⟩,strictlySorted_asSet xs,fun x => mem_asSet x xs,fun zs hp hsorted => ?_⟩
  exact (destutter_eq_asSet hp hsorted).trans hsame.symm

/-- A chord that has no address comes before one over the integers, however often and in whichever
order the two are given. -/
theorem ofSet_dyad :
    let low := .list ⟨⟨1⟩,none,.null⟩ [.simple ⟨⟨0⟩,none,.null⟩ (.constant .null (.z 67))]
    let high := .list ⟨⟨1⟩,none,.z⟩ [.simple ⟨⟨0⟩,none,.z⟩ (.identity .z)]
    let dyad := .power ⟨⟨2⟩,none,.z⟩ [low,high]
    ofSet .scores ⟨2⟩ [high,low,high] = .ok dyad ∧ ofSet .scores ⟨2⟩ [low,high,low] = .ok dyad ∧
      compare low high = .lt ∧ [low,low,high].destutter (· ≠ ·) = [low,high] := by
  intro low high dyad
  have hd : ofSet .scores ⟨2⟩ [high,low,high] = .ok dyad := by cbv
  obtain ⟨⟨-,heq,-,-⟩,hset⟩ := ofSet_canonical
  obtain ⟨hys,hsorted,-,hsort⟩ := hset .scores ⟨2⟩ [high,low,high] [low,high,low] dyad
    (by simp [or_comm]) hd
  have hlt : compare low high = .lt :=
    List.rel_of_pairwise_cons hsorted (List.mem_singleton_self high)
  have hle : compare low low ≠ .gt := by simp [(heq low low).mpr rfl]
  refine ⟨hd,hys,hlt,hsort [low,low,high] (.cons low (.swap high low [])) ?_⟩
  simp [hle,hlt]

end Denotator
end AddressedForms
