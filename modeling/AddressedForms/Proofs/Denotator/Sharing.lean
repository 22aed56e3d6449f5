import AddressedForms.Proofs.Denotator.Equality
import AddressedForms.Proofs.Denotator.Fingerprint
import Mathlib.Data.List.FinRange
import Mathlib.Data.List.NodupEquivFin
set_option autoImplicit false

/-!
The laws of equality of denotators. It is an equivalence, and sets are equal just if a bijection
pairs equal members. In memory denotators may share nodes; a comparison that gives its answer at
once where both sides are in one place, and that marks the members of a set as they are matched, has
no other answers.
-/

namespace AddressedForms

theorem exists_perm_iff_exists_equiv {α β : Type} {R : α → β → Prop} {xs : List α} {ys : List β} :
    (∃ zs, List.Forall₂ R xs zs ∧ zs.Perm ys) ↔
      ∃ σ : Fin xs.length ≃ Fin ys.length, ∀ i : Fin xs.length, R xs[i] ys[σ i] := by
  constructor
  · rintro ⟨zs,hf,hp⟩
    have hget : List.Forall₂ (fun y i => ys.get i = y) ys (List.finRange ys.length) :=
      List.forall₂_iff_get.mpr ⟨by simp,fun i _ _ => by simp⟩
    -- the positions of the partners, one for each member of the first list
    obtain ⟨is,his,hperm⟩ := List.perm_comp_forall₂ hp hget
    have hpairs : List.Forall₂ (fun x i => R x (ys.get i)) xs is :=
      (forall₂_comp hf his).imp fun x i ⟨z,hxz,hz⟩ => hz ▸ hxz
    have hnodup : is.Nodup := hperm.nodup_iff.mpr (List.nodup_finRange _)
    have hall (i : Fin ys.length) : i ∈ is := hperm.mem_iff.mpr (List.mem_finRange i)
    refine ⟨(finCongr hpairs.length_eq).trans (hnodup.getEquivOfForallMemList is hall),fun i => ?_⟩
    exact (List.forall₂_iff_get.mp hpairs).2 i i.2 (hpairs.length_eq ▸ i.2)
  · rintro ⟨σ,hσ⟩
    refine ⟨(List.finRange xs.length).map fun i => ys.get (σ i),?_,?_⟩
    · exact List.forall₂_iff_get.mpr ⟨by simp,fun i hi _ => by simpa using hσ ⟨i,hi⟩⟩
    · have hperm : ((List.finRange xs.length).map σ).Perm (List.finRange ys.length) := by
        refine (List.perm_ext_iff_of_nodup ((List.nodup_finRange _).map σ.injective)
          (List.nodup_finRange _)).mpr fun i => ?_
        simpa using ⟨σ.symm i,σ.apply_symm_apply i⟩
      simpa [Function.comp_def] using hperm.map ys.get

open Denotator

/-- A denotator with the places of its nodes in memory. -/
inductive Stored where
  | simple (place : Nat) (head : Head) (morphism : Morphism)
  | limit (place : Nat) (head : Head) (factors : List Stored)
  | colimit (place : Nat) (head : Head) (index : Nat) (factor : Stored)
  | power (place : Nat) (head : Head) (factors : List Stored)
  | list (place : Nat) (head : Head) (factors : List Stored)

namespace Stored

def place : Stored → Nat
  | .simple p _ _ | .limit p _ _ | .colimit p _ _ _ | .power p _ _ | .list p _ _ => p

def factors : Stored → List Stored
  | .simple _ _ _ => []
  | .colimit _ _ _ x => [x]
  | .limit _ _ xs | .power _ _ xs | .list _ _ xs => xs

mutual
def value : Stored → Denotator
  | .simple _ h m => .simple h m
  | .limit _ h xs => .limit h (values xs)
  | .colimit _ h i x => .colimit h i x.value
  | .power _ h xs => .power h (values xs)
  | .list _ h xs => .list h (values xs)
def values : List Stored → List Denotator
  | [] => []
  | x :: xs => x.value :: values xs
end

def mark? (p : Stored → Bool) : List (Stored × Bool) → Option (List (Stored × Bool))
  | [] => none
  | (y,used) :: ys =>
    if !used && p y then some ((y,true) :: ys) else (mark? p ys).map ((y,used) :: ·)

mutual
def equals (g : FormGraph) : Stored → Stored → Bool
  | .simple p h m, .simple q k n => p = q || (sameHead g h k && m = n)
  | .limit p h xs, .limit q k ys => p = q || (sameHead g h k && equalLists g xs ys)
  | .colimit p h i x, .colimit q k j y => p = q || (sameHead g h k && (i = j && x.equals g y))
  | .power p h xs, .power q k ys =>
    p = q || (sameHead g h k && (xs.length = ys.length && allMarked g xs (ys.map (·,false))))
  | .list p h xs, .list q k ys => p = q || (sameHead g h k && equalLists g xs ys)
  | x, y => x.place = y.place
def equalLists (g : FormGraph) : List Stored → List Stored → Bool
  | [], [] => true
  | x :: xs, y :: ys => x.equals g y && equalLists g xs ys
  | _, _ => false
def allMarked (g : FormGraph) : List Stored → List (Stored × Bool) → Bool
  | [], _ => true
  | x :: xs, ys =>
    match mark? (fun y => x.equals g y) ys with
    | some ys => allMarked g xs ys
    | none => false
end

/-- A memory holds each node of a denotator in its place. -/
inductive In (memory : Nat → Denotator) : Stored → Prop
  | node {x : Stored} (h : memory x.place = x.value) (hf : ∀ f ∈ x.factors, In memory f) :
    In memory x

variable {g : FormGraph} {memory : Nat → Denotator} {x y : Stored} {xs ys : List Stored}

theorem values_eq (xs : List Stored) : values xs = xs.map value := by
  induction xs with
  | nil => rfl
  | cons x xs ih => rw [values,ih,List.map_cons]

theorem In.of_mem_factors (hx : In memory x) {f : Stored} (hf : f ∈ x.factors) :
    In memory f := by
  cases hx with | node _ h => exact h f hf

theorem In.equals_of_place_eq (hx : In memory x) (hu : g.NamesUnique) (hy : In memory y)
    (h : x.place = y.place) : x.value.equals g y.value := by
  cases hx with | node hx _ => ?_
  cases hy with | node hy _ => ?_
  rw [← hx,← hy,h]
  exact (equals_iff_alike hu _ _).mpr (.refl g _)

theorem In.place_ne (hx : In memory x) (hu : g.NamesUnique) (hy : In memory y)
    (h : x.value.equals g y.value = false) : decide (x.place = y.place) = false :=
  decide_eq_false fun hp => Bool.false_ne_true (h.symm.trans (hx.equals_of_place_eq hu hy hp))

theorem equalLists_eq (h : ∀ x ∈ xs, ∀ y ∈ ys, x.equals g y = x.value.equals g y.value) :
    equalLists g xs ys = Denotator.equalLists g (values xs) (values ys) := by
  induction xs generalizing ys with
  | nil => cases ys <;> rfl
  | cons x xs ih =>
    cases ys with
    | nil => rfl
    | cons y ys =>
      rw [equalLists,values,values,Denotator.equalLists,h x (by simp) y (by simp),
        ih fun a ha b hb => h a (by simp [ha]) b (by simp [hb])]

def unmarked (ms : List (Stored × Bool)) : List Denotator :=
  (ms.filter fun m => !m.2).map fun m => m.1.value

theorem map_fst_of_mark? {p : Stored → Bool} {ms ns : List (Stored × Bool)}
    (h : mark? p ms = some ns) : ns.map Prod.fst = ms.map Prod.fst := by
  induction ms generalizing ns with
  | nil => cases h
  | cons m ms ih =>
    rw [mark?] at h
    split at h
    · cases h
      rfl
    · obtain ⟨ks,hks,rfl⟩ := Option.map_eq_some_iff.mp h
      rw [List.map_cons,List.map_cons,ih hks]

theorem map_unmarked_mark? {p : Stored → Bool} {q : Denotator → Bool} {ms : List (Stored × Bool)}
    (h : ∀ m ∈ ms, p m.1 = q m.1.value) :
    (mark? p ms).map unmarked = takeOut? q (unmarked ms) := by
  induction ms with
  | nil => rfl
  | cons m ms ih =>
    obtain ⟨y,used⟩ := m
    have hy : p y = q y.value := h _ List.mem_cons_self
    have ih := ih fun m hm => h m (List.mem_cons_of_mem _ hm)
    cases used with
    | true =>
      have hleft (ns : List (Stored × Bool)) : unmarked ((y,true) :: ns) = unmarked ns := rfl
      simp [mark?,hleft,← ih,Function.comp_def]
    | false =>
      have hleft (ns : List (Stored × Bool)) : unmarked ((y,false) :: ns) =
        y.value :: unmarked ns := rfl
      have hmarked : unmarked ((y,true) :: ms) = unmarked ms := rfl
      rw [mark?,hleft,takeOut?,← hy,← ih]
      cases hp : p y <;> simp [hleft,hmarked,Function.comp_def]

theorem allMarked_eq {ms : List (Stored × Bool)}
    (h : ∀ x ∈ xs, ∀ y ∈ ms.map Prod.fst, x.equals g y = x.value.equals g y.value) :
    allMarked g xs ms = matched g (values xs) (unmarked ms) := by
  induction xs generalizing ms with
  | nil => rfl
  | cons x xs ih =>
    have hx := @map_unmarked_mark? (fun y => x.equals g y) (fun y => x.value.equals g y) ms
      fun m hm => h x (by simp) m.1 (List.mem_map_of_mem hm)
    rw [allMarked,values,matched,← hx]
    cases hm : mark? (fun y => x.equals g y) ms with
    | none => rfl
    | some ns =>
      exact ih (map_fst_of_mark? hm ▸ fun a ha => h a (List.mem_cons_of_mem x ha))

theorem or_eq_of_imp {p : Prop} [Decidable p] {b v : Bool} (hb : b = v) (hp : p → v) :
    (decide p || b) = v := by
  by_cases h : p <;> simp_all

/-- The short cut and the marks are not observed. -/
theorem In.equals_eq (hx : In memory x) (hu : g.NamesUnique) (hy : In memory y) :
    x.equals g y = x.value.equals g y.value := by
  induction x using Stored.rec (motive_2 := fun xs => ∀ x ∈ xs, ∀ y : Stored, In memory x →
    In memory y → x.equals g y = x.value.equals g y.value) generalizing y with
  | nil => simp at *
  | cons x xs ihx ihxs =>
    rename_i z hz y hzm hy
    rcases List.mem_cons.mp hz with rfl | hz
    · exact ihx hzm hy
    · exact ihxs z hz y hzm hy
  | simple p h m =>
    have hshort := hx.equals_of_place_eq hu hy
    cases y with
    | simple q k n => exact or_eq_of_imp rfl hshort
    | limit | colimit | power | list =>
      exact hx.place_ne hu hy rfl
  | limit p h xs ih =>
    have hshort := hx.equals_of_place_eq hu hy
    cases y with
    | limit q k ys =>
      have hfactors := equalLists_eq fun a ha b hb =>
        ih a ha b (hx.of_mem_factors ha) (hy.of_mem_factors hb)
      exact or_eq_of_imp (congrArg (sameHead g h k && ·) hfactors) hshort
    | simple | colimit | power | list =>
      exact hx.place_ne hu hy rfl
  | colimit p h i x ih =>
    have hshort := hx.equals_of_place_eq hu hy
    cases y with
    | colimit q k j y =>
      have hfactor := ih (hx.of_mem_factors List.mem_cons_self)
        (hy.of_mem_factors List.mem_cons_self)
      exact or_eq_of_imp (congrArg (fun b => sameHead g h k && (decide (i = j) && b)) hfactor)
        hshort
    | simple | limit | power | list =>
      exact hx.place_ne hu hy rfl
  | power p h xs ih =>
    have hshort := hx.equals_of_place_eq hu hy
    cases y with
    | power q k ys =>
      have hunmarked : unmarked (ys.map (·,false)) = values ys := by
        simp [unmarked,values_eq,List.filter_map,Function.comp_def]
      have hmembers : allMarked g xs (ys.map (·,false)) = matched g (values xs) (values ys) :=
        hunmarked ▸ allMarked_eq fun a ha b hb => ih a ha b (hx.of_mem_factors ha)
          (hy.of_mem_factors (by simpa [Function.comp_def,factors] using hb))
      refine or_eq_of_imp ?_ hshort
      show (sameHead g h k && (decide (xs.length = ys.length) && _)) = (sameHead g h k &&
        (decide ((values xs).length = (values ys).length) && matched g (values xs) (values ys)))
      rw [hmembers,values_eq,values_eq,List.length_map,List.length_map]
    | simple | limit | colimit | list =>
      exact hx.place_ne hu hy rfl
  | list p h xs ih =>
    have hshort := hx.equals_of_place_eq hu hy
    cases y with
    | list q k ys =>
      have hfactors := equalLists_eq fun a ha b hb =>
        ih a ha b (hx.of_mem_factors ha) (hy.of_mem_factors hb)
      exact or_eq_of_imp (congrArg (sameHead g h k && ·) hfactors) hshort
    | simple | limit | colimit | power =>
      exact hx.place_ne hu hy rfl

end Stored

namespace Denotator
variable {g : FormGraph}

theorem power_equals_iff (hu : g.NamesUnique) {h k : Head} {xs ys : List Denotator}
    (hh : sameHead g h k) : (power h xs).equals g (power k ys) ↔
      ∃ σ : Fin xs.length ≃ Fin ys.length, ∀ i : Fin xs.length, xs[i].equals g ys[σ i] := by
  simp only [equals_iff_alike hu]
  rw [← @exists_perm_iff_exists_equiv _ _ (Alike g)]
  constructor
  · exact fun h => h.factors_of_power rfl
  · rintro ⟨zs,hf,hp⟩
    obtain ⟨hname,haddress,hform⟩ := (sameHead_iff hu h k).mp hh
    exact .set ⟨hform,hname,haddress,rfl,rfl,rfl⟩ rfl hf hp

/-- Equality is an equivalence that the same denotators satisfy, and a congruence for sets; how
denotators are shared in memory makes no difference. -/
theorem equals_equivalence (hr : g.Reachable) :
    Equivalence (fun x y : Denotator => x.equals g y = true) ∧
    (∀ x y : Denotator, x == y → x.equals g y) ∧
    (∀ (h k : Head) (xs ys : List Denotator), h.name = k.name → h.address = k.address →
      g.equalForms h.form k.form → ((power h xs).equals g (power k ys) ↔
        ∃ σ : Fin xs.length ≃ Fin ys.length, ∀ i : Fin xs.length, xs[i].equals g ys[σ i])) ∧
    ∀ (memory : Nat → Denotator) (x y : Stored), x.In memory → y.In memory →
      x.equals g y = x.value.equals g y.value := by
  have hu := hr.sound.namesUnique
  have he := equals_iff_alike hu
  refine ⟨⟨fun x => ?_,fun {x y} hxy => ?_,fun {x y z} hxy hyz => ?_⟩,fun x y hxy => ?_,
    fun h k xs ys hn ha hf => ?_,fun _ _ _ hx hy => hx.equals_eq hu hy⟩
  · exact (he x x).mpr (.refl g x)
  · exact (he y x).mpr ((he x y).mp hxy).symm
  · exact (he x z).mpr (((he x y).mp hxy).trans ((he y z).mp hyz))
  · obtain rfl := eq_of_beq hxy
    exact (he x x).mpr (.refl g x)
  · exact power_equals_iff hu (by simp [sameHead,hn,ha,hf])

/-- Two sets whose copies of forms are crossed over, and two sets that share a note. -/
theorem equals_crossed :
    let low : Stored := .simple 0 ⟨⟨0⟩,none,.null⟩ (.constant .null (.z 60))
    let copy : Stored := .simple 1 ⟨⟨1⟩,none,.null⟩ (.constant .null (.z 60))
    (chord [note 0 60,note 1 67]).equals .twinPitches (chord [note 0 67,note 1 60]) ∧
    (Stored.power 2 ⟨⟨2⟩,none,.null⟩ [low,copy]).equals .twinPitches
      (.power 3 ⟨⟨2⟩,none,.null⟩ [low,low]) := by
  intro low copy
  obtain ⟨-,-,hpower,hstored⟩ := equals_equivalence FormGraph.reachable_twinPitches
  have hlow : (note 0 60).equals .twinPitches (note 1 60) := by cbv
  have hhigh : (note 1 67).equals .twinPitches (note 0 67) := by cbv
  have hcrossed := (hpower ⟨⟨2⟩,none,.null⟩ ⟨⟨2⟩,none,.null⟩ [note 0 60,note 1 67]
    [note 0 67,note 1 60] rfl rfl rfl).mpr ⟨Equiv.swap (0 : Fin 2) 1,
      Fin.forall_fin_two.mpr ⟨hlow,hhigh⟩⟩
  let places := [note 0 60,note 1 60,chord [note 0 60,note 1 60],chord [note 0 60,note 0 60]]
  let memory (place : Nat) : Denotator := places.getD place Inhabited.default
  have hin : low.In memory ∧ copy.In memory :=
    ⟨.node rfl (List.forall_mem_nil _),.node rfl (List.forall_mem_nil _)⟩
  have hx : (Stored.power 2 ⟨⟨2⟩,none,.null⟩ [low,copy]).In memory :=
    .node rfl (by simp [Stored.factors,hin])
  have hy : (Stored.power 3 ⟨⟨2⟩,none,.null⟩ [low,low]).In memory :=
    .node rfl (by simp [Stored.factors,hin])
  refine ⟨hcrossed,(hstored memory _ _ hx hy).trans ?_⟩
  cbv

end Denotator
end AddressedForms
