import AddressedForms.Proofs.Document.Settling
import AddressedForms.Proofs.PostOrder
set_option autoImplicit false

/-!
The order of definitions, for any map of names to the names that they use, defined or not. The search
with a stack of its own, which keeps its place among the names that each name on the stack uses,
comes to an end with the order that definitions are built in. All names are in it once, each after
those it uses but for names at which circles close; these lie on circles, and without them there
are none.
-/

namespace AddressedForms
namespace Resolution

structure Traversal where
  roots : List String
  /-- The names on the way to where the search is, innermost first, each with the number of names
  it uses that have been looked at. -/
  path : List (String × Nat)
  /-- Whether a name that has been met is finished. -/
  marks : Table Bool
  found : Walk String

namespace Traversal
variable {deps : Table (List String)} {roots path xs : List String} {rest : List (String × Nat)}
  {marks : Table Bool} {w v : Walk String} {n d : String} {k : Nat}

def start (deps : Table (List String)) : Traversal := ⟨deps.keys,[],.empty,.empty⟩

def uses (deps : Table (List String)) (n : String) : List String := (deps.get? n).getD []

def enter (t : Traversal) (n : String) : Traversal :=
  {t with path := (n,0) :: t.path, marks := t.marks.insert n false}

def follow (deps : Table (List String)) (t : Traversal) (d : String) : Traversal :=
  match t.marks.get? d with
  | none => if deps.contains d then t.enter d else t
  | some false => {t with found := t.found.close d}
  | some true => t

/-- There is no step at the end, and none from a name without a definition. -/
def step (deps : Table (List String)) (t : Traversal) : Option Traversal :=
  match t.path with
  | [] => match t.roots with
    | [] => none
    | r :: rs =>
      let s := {t with roots := rs}
      some (if t.marks.contains r then s else s.enter r)
  | (n,k) :: path => (deps.get? n).map fun ds =>
    match ds[k]? with
    | some d => follow deps {t with path := (n,k+1) :: path} d
    | none => {t with path := path, marks := t.marks.insert n true, found := t.found.finish n}

def Runs (deps : Table (List String)) : Traversal → Traversal → Prop :=
  Relation.ReflTransGen fun t u => t.step deps = some u

/-- The marks of a search that has come to the end of a path. -/
structure Marked (deps : Table (List String)) (path : List String) (w : Walk String)
    (marks : Table Bool) : Prop where
  finished : ∀ n, marks.get? n = some true ↔ n ∈ w.finished
  onPath : ∀ n, marks.get? n = some false ↔ n ∈ path
  defined : ∀ n b, marks.get? n = some b → deps.contains n

theorem marked_empty : Marked deps [] .empty .empty where
  finished := by simp [Walk.empty]
  onPath := by simp
  defined := by simp

theorem Marked.close (h : Marked deps path w marks) (n : String) :
    Marked deps path (w.close n) marks := ⟨by simpa using h.finished,h.onPath,h.defined⟩

theorem Marked.enter (h : Marked deps path w marks) (hd : n ∉ w.finished)
    (hn : deps.contains n) : Marked deps (n :: path) w (marks.insert n false) where
  finished m := by
    have := h.finished m
    rw [Table.get?_insert]
    split <;> simp_all
  onPath m := by
    have := h.onPath m
    rw [Table.get?_insert]
    split <;> simp_all
  defined m b hm := by
    rw [Table.get?_insert] at hm
    split at hm
    · simp_all
    · exact h.defined m b hm

theorem Marked.finish (h : Marked deps (n :: path) w marks) (hn : n ∉ path) :
    Marked deps path (w.finish n) (marks.insert n true) where
  finished m := by
    have := h.finished m
    rw [Table.get?_insert]
    split <;> simp_all [Walk.finish]
  onPath m := by
    have := h.onPath m
    rw [Table.get?_insert]
    split <;> simp_all
  defined m b hm := by
    rw [Table.get?_insert] at hm
    split at hm
    · have := h.defined n false ((h.onPath n).mpr List.mem_cons_self)
      simp_all
    · exact h.defined m b hm

theorem Marked.get?_eq_none (h : Marked deps path w marks) (hd : n ∉ w.finished)
    (hn : n ∉ path) : marks.get? n = none := by
  cases hb : marks.get? n with
  | none => rfl
  | some b =>
    cases b with
    | false => exact absurd ((h.onPath n).mp hb) hn
    | true => exact absurd ((h.finished n).mp hb) hd

theorem getElem?_of_drop_eq_cons {α : Type} {l r : List α} {x : α} {k : Nat}
    (h : l.drop k = x :: r) : l[k]? = some x ∧ l.drop (k+1) = r := by
  rw [← List.head?_drop,← List.tail_drop,h]
  exact ⟨rfl,rfl⟩

theorem runs_follow {r : List String} (hk : (uses deps n).drop k = d :: r) :
    Runs deps ⟨roots,(n,k) :: rest,marks,w⟩ (follow deps ⟨roots,(n,k+1) :: rest,marks,w⟩ d) := by
  refine .single ?_
  have hd := (getElem?_of_drop_eq_cons hk).1
  unfold uses at hd
  cases hn : deps.get? n with
  | none => simp [hn] at hd
  | some ds =>
    rw [hn,Option.getD_some] at hd
    simp [step,hn,hd]

theorem runs_leave (hn : deps.contains n) (hk : (uses deps n).drop k = []) :
    Runs deps ⟨roots,(n,k) :: rest,marks,w⟩ ⟨roots,rest,marks.insert n true,w.finish n⟩ := by
  refine .single ?_
  obtain ⟨ds,hds⟩ := Table.exists_of_contains hn
  rw [uses,hds,Option.getD_some,List.drop_eq_nil_iff] at hk
  simp [step,hds,hk]

theorem runs_pass (hm : Marked deps path w marks) {l r : List String}
    (hl : ∀ d ∈ l, d ∉ deps.keys) (hk : (uses deps n).drop k = l ++ r) :
    ∃ i, (uses deps n).drop i = r ∧
      Runs deps ⟨roots,(n,k) :: rest,marks,w⟩ ⟨roots,(n,i) :: rest,marks,w⟩ := by
  induction l generalizing k with
  | nil => exact ⟨k,hk,.refl⟩
  | cons d l ih =>
    obtain ⟨hd,hl⟩ := List.forall_mem_cons.mp hl
    have hundefined : ¬ deps.contains d := (Table.contains_iff_mem_keys deps d).not.mpr hd
    have hpass : follow deps ⟨roots,(n,k+1) :: rest,marks,w⟩ d =
        ⟨roots,(n,k+1) :: rest,marks,w⟩ := by
      cases hb : marks.get? d with
      | none => simp [follow,hb,hundefined]
      | some b => exact absurd (hm.defined d b hb) hundefined
    obtain ⟨i,hi,hruns⟩ := ih hl (getElem?_of_drop_eq_cons hk).2
    exact ⟨i,hi,(hpass ▸ runs_follow hk).trans hruns⟩

theorem runs_to (hm : Marked deps path w marks) {l xs : List String}
    (hk : (uses deps n).drop k = l) (hl : l.filter (· ∈ deps.keys) = d :: xs) :
    d ∈ deps.keys ∧ ∃ i, ((uses deps n).drop i).filter (· ∈ deps.keys) = xs ∧
      Runs deps ⟨roots,(n,k) :: rest,marks,w⟩ (follow deps ⟨roots,(n,i) :: rest,marks,w⟩ d) := by
  obtain ⟨l,r,rfl,hl,hd,hr⟩ := List.filter_eq_cons_iff.mp hl
  obtain ⟨i,hi,hruns⟩ := runs_pass hm (by simpa using hl) hk
  refine ⟨of_decide_eq_true hd,i+1,?_,hruns.trans (runs_follow hi)⟩
  rw [(getElem?_of_drop_eq_cons hi).2,hr]

/-- The search goes through what is left of the names that one uses, just as the recursive search
goes through those of them that are defined. -/
theorem runs_of_visits (h : Walk.Visits (edges deps.keys (uses deps)) path xs w v)
    (hm : Marked deps path w marks)
    (hk : ((uses deps n).drop k).filter (· ∈ deps.keys) = xs) :
    ∃ marks' i, Marked deps path v marks' ∧ (uses deps n).drop i = [] ∧
      Runs deps ⟨roots,(n,k) :: rest,marks,w⟩ ⟨roots,(n,i) :: rest,marks',v⟩ := by
  induction h generalizing n k rest marks with
  | nil =>
    obtain ⟨i,hi,hruns⟩ := runs_pass (r := []) hm
      (by simpa using List.filter_eq_nil_iff.mp hk) (List.append_nil _).symm
    exact ⟨marks,i,hm,hi,hruns⟩
  | done hd _ ih =>
    obtain ⟨-,i,hi,hto⟩ := runs_to hm rfl hk
    have hmark := (hm.finished _).mpr hd
    obtain ⟨marks',j,hm',hj,hruns⟩ := ih hm hi
    simp only [follow,hmark] at hto
    exact ⟨marks',j,hm',hj,hto.trans hruns⟩
  | back _ hx _ ih =>
    obtain ⟨-,i,hi,hto⟩ := runs_to hm rfl hk
    have hmark := (hm.onPath _).mpr hx
    obtain ⟨marks',j,hm',hj,hruns⟩ := ih (hm.close _) hi
    simp only [follow,hmark] at hto
    exact ⟨marks',j,hm',hj,hto.trans hruns⟩
  | enter hd hx _ _ ih ihs =>
    obtain ⟨hx',i,hi,hto⟩ := runs_to hm rfl hk
    have hdefined := (Table.contains_iff_mem_keys deps _).mpr hx'
    have hmark := hm.get?_eq_none hd hx
    obtain ⟨inner,j,hinner,hj,hsub⟩ := ih (hm.enter hd hdefined) (k := 0) rfl
    obtain ⟨marks',j',hm',hj',hruns⟩ := ihs (hinner.finish hx) hi
    simp only [follow,hmark,hdefined,if_true] at hto
    exact ⟨marks',j',hm',hj',hto.trans (hsub.trans ((runs_leave hdefined hj).trans hruns))⟩

theorem runs_of_visits_roots (h : Walk.Visits (edges deps.keys (uses deps)) path xs w v)
    (hp : path = []) (hm : Marked deps path w marks) (hx : xs ⊆ deps.keys) :
    ∃ marks', Marked deps path v marks' ∧
      Runs deps ⟨xs,[],marks,w⟩ ⟨[],[],marks',v⟩ := by
  induction h generalizing marks with
  | nil => exact ⟨marks,hm,.refl⟩
  | @done _ xs x w _ hd _ ih =>
    obtain ⟨marks',hm',hruns⟩ := ih hp hm (List.cons_subset.mp hx).2
    have hmark := (hm.finished x).mpr hd
    have hpass : Runs deps ⟨x :: xs,[],marks,w⟩ ⟨xs,[],marks,w⟩ :=
      .single (by simp [step,Table.contains,hmark])
    exact ⟨marks',hm',hpass.trans hruns⟩
  | back _ hback => simp [hp] at hback
  | @enter _ xs x w _ _ hd hback h _ _ ihs =>
    obtain ⟨hx,hxs⟩ := List.cons_subset.mp hx
    have hdefined := (Table.contains_iff_mem_keys deps x).mpr hx
    have henter : Runs deps ⟨x :: xs,[],marks,w⟩ ⟨xs,[(x,0)],marks.insert x false,w⟩ :=
      .single (by simp [step,enter,Table.contains,hm.get?_eq_none hd hback])
    obtain ⟨inner,i,hinner,hi,hsub⟩ := runs_of_visits h (hm.enter hd hdefined) (k := 0) rfl
    obtain ⟨marks',hm',hruns⟩ := ihs hp (hinner.finish hback) hxs
    exact ⟨marks',hm',henter.trans (hsub.trans ((runs_leave hdefined hi).trans hruns))⟩

theorem Runs.continues {t u v : Traversal} (h : Runs deps t u) (k : Runs deps t v)
    (hv : v.step deps = none) : Runs deps u v := by
  have hfun : Relator.RightUnique fun t u : Traversal => t.step deps = some u :=
    fun _ _ _ hu hv => Option.some.inj (hu.symm.trans hv)
  rcases Relation.ReflTransGen.total_of_right_unique hfun h k with huv | hvu
  · exact huv
  · rcases hvu.cases_head with rfl | ⟨s,hs,-⟩
    · exact .refl
    · rw [hv] at hs
      cases hs

/-- Wherever a search has come to, it goes on to the end, where it has found the order. -/
theorem exists_end (deps : Table (List String)) : ∃ last : Traversal,
    last.found = order deps.keys (uses deps) ∧ last.step deps = none ∧
      ∀ t, Runs deps (start deps) t → Runs deps t last := by
  obtain ⟨marks,-,hruns⟩ := runs_of_visits_roots (visits_order deps.keys (uses deps)) rfl
    marked_empty (List.Subset.refl _)
  exact ⟨⟨[],[],marks,_⟩,rfl,rfl,fun t ht => ht.continues hruns rfl⟩

end Traversal

section Order
variable {names : List String} {next : String → List String}

theorem mem_circular_iff {n : String} :
    n ∈ circular names next ↔ n ∈ (order names next).closing := by
  refine ⟨fun h => of_decide_eq_true (List.mem_filter.mp h).2,fun h => ?_⟩
  obtain ⟨m,-,hm⟩ := Relation.TransGen.tail'_iff.mp ((tracked_order names next).cyclic n h)
  exact List.mem_filter.mpr ⟨(mem_edges.mp hm).2,decide_eq_true h⟩

end Order

section Definitions
open Traversal (uses)
variable {deps : Table (List String)} {n d : String}

theorem mem_keys_of_mem_uses (h : d ∈ uses deps n) : n ∈ deps.keys := by
  by_contra hn
  have hnone := (Table.get?_eq_none_iff deps n).mpr hn
  simp [uses,hnone] at h

theorem mem_before_or_closing {l r : List String}
    (he : (order deps.keys (uses deps)).finished = l ++ n :: r) (hd : d ∈ uses deps n)
    (hdefined : deps.contains d) : d ∈ l ∨ d ∈ (order deps.keys (uses deps)).closing := by
  have hprefix : l ++ [n] <+: (order deps.keys (uses deps)).finished := ⟨r,by simp [he]⟩
  have hmem := (Table.contains_iff_mem_keys deps d).mp hdefined
  exact (ordered_order l n hprefix d hd hmem).imp_right mem_circular_iff.mp

theorem exists_mem_closing {c : Cycle String} (hne : c ≠ .nil)
    (hc : c.Chain (Walk.Edge (uses deps))) :
    ∃ n ∈ c, n ∈ (order deps.keys (uses deps)).closing := by
  have hnames (n : String) (hn : n ∈ c) : n ∈ deps.keys := by
    obtain ⟨d,-,hd⟩ := Walk.exists_edge_of_mem_cycle hc hn
    exact mem_keys_of_mem_uses hd
  obtain ⟨n,hn,hcircular⟩ := exists_mem_circular hne hc hnames
  exact ⟨n,hn,mem_circular_iff.mp hcircular⟩

theorem not_chain_outside {c : Cycle String} (hne : c ≠ .nil) :
    ¬ c.Chain (Walk.Edge
      (Walk.outside (order deps.keys (uses deps)).closing (uses deps))) := by
  intro hc
  obtain ⟨n,hnc,hn⟩ := exists_mem_closing hne (hc.imp fun _ _ h => (Walk.mem_outside.mp h).2.1)
  obtain ⟨d,-,hd⟩ := Walk.exists_edge_of_mem_cycle hc hnc
  exact (Walk.mem_outside.mp hd).1 hn

end Definitions

/-- The search for the order of definitions comes to an end, wherever it is. All names that are
defined are in the order, once, and nothing else is; a name comes after each name that it uses, or
a circle closes at that one. Circles close at names that lie on circles, and at one name of every
circle; so without those names there are no circles, and names come after all that they use. -/
theorem order_topological (deps : Table (List String)) :
    let uses := Traversal.uses deps
    let found := order deps.keys uses
    (∃ last : Traversal, last.found = found ∧ last.step deps = none ∧
      ∀ t, Traversal.Runs deps (.start deps) t → Traversal.Runs deps t last) ∧
    found.finished.Nodup ∧ (∀ n, n ∈ found.finished ↔ deps.contains n) ∧
    (∀ l n r, found.finished = l ++ n :: r → ∀ d ∈ uses n, deps.contains d →
      d ∈ l ∨ d ∈ found.closing) ∧
    (∀ n ∈ found.closing, ∃ c : Cycle String, n ∈ c ∧ c.Chain (Walk.Edge uses)) ∧
    (∀ c : Cycle String, c ≠ .nil → c.Chain (Walk.Edge uses) → ∃ n ∈ c, n ∈ found.closing) ∧
    (∀ c : Cycle String, c ≠ .nil →
      ¬ c.Chain (Walk.Edge (Walk.outside found.closing uses))) ∧
    ∀ l n r, found.finished = l ++ n :: r →
      ∀ d ∈ Walk.outside found.closing uses n, deps.contains d → d ∈ l := by
  intro uses found
  refine ⟨Traversal.exists_end deps,?_,fun n => ?_,fun _ _ _ he _ => mem_before_or_closing he,
    fun n hn => ?_,fun _ => exists_mem_closing,fun _ => not_chain_outside,
    fun l n r he d hd hdefined => ?_⟩
  · exact ((visits_order deps.keys uses).nodup (by simp [Walk.empty]) (by simp)).1
  · rw [mem_finished_order,Table.contains_iff_mem_keys]
  · exact exists_cycle_of_mem_circular (mem_circular_iff.mpr hn)
  · obtain ⟨-,huses,hopen⟩ := Walk.mem_outside.mp hd
    exact (mem_before_or_closing he huses hdefined).resolve_right hopen

/-- Two circles with a name in common, and a name that is not defined. -/
example :
    let deps := Table.ofList [("a",["b","x"]),("b",["c","a"]),("c",["b"])]
    order deps.keys (Traversal.uses deps) = ⟨["c","b","a"],["b","a"]⟩ := by cbv

end Resolution
end AddressedForms
