import AddressedForms.DepthFirst
import AddressedForms.Proofs.Lists
import Mathlib.Data.List.Nodup
import Mathlib.Data.List.Perm.Subperm
import Mathlib.Logic.Relation
set_option autoImplicit false

/-!
What a depth-first search finds. With room for all vertices it finishes exactly what its start leads
to, and whatever is finished leads only to finished vertices and back onto the path. Where every
edge descends, no cycle closes and every vertex is finished after those it leads to. All this is
shown of searches without fuel, which are those that have enough of it.
-/

namespace AddressedForms
namespace Walk
variable {α : Type} {next : α → List α}

def Leads (next : α → List α) : α → α → Prop := Relation.ReflTransGen fun a b => b ∈ next a

theorem mem_of_leads {vertices : List α} (hv : ∀ v ∈ vertices, next v ⊆ vertices) {x y : α}
    (hx : x ∈ vertices) (hl : Leads next x y) : y ∈ vertices := by
  induction hl with
  | refl => exact hx
  | tail _ he ih => exact hv _ ih he

/-- Finished vertices lead to finished ones, or back onto the path. -/
def Closed (next : α → List α) (path : List α) (w : Walk α) : Prop :=
  ∀ v ∈ w.finished, ∀ y ∈ next v, y ∈ w.finished ∨ y ∈ path

/-- How a search from some vertices at the end of a path changes a walk. -/
structure Searched (next : α → List α) (path xs : List α) (w w' : Walk α) : Prop where
  grows : w.finished <+: w'.finished
  closed : Closed next path w'
  reached : ∀ x ∈ xs, x ∈ w'.finished ∨ x ∈ path
  sound : ∀ v ∈ w'.finished, v ∈ w.finished ∨ ∃ x ∈ xs, Leads next x v

theorem Searched.refl {path : List α} {w : Walk α} (h : Closed next path w) :
    Searched next path [] w w where
  grows := List.prefix_rfl
  closed := h
  reached := by simp
  sound := fun _ hv => .inl hv

theorem Searched.trans {path xs ys : List α} {w u v : Walk α} (h : Searched next path xs w u)
    (k : Searched next path ys u v) : Searched next path (xs ++ ys) w v where
  grows := h.grows.trans k.grows
  closed := k.closed
  reached := by
    intro x hx
    rcases List.mem_append.mp hx with hx | hx
    · exact (h.reached x hx).imp_left fun hf => k.grows.subset hf
    · exact k.reached x hx
  sound := by
    intro z hz
    rcases k.sound z hz with hz | ⟨y,hy,hl⟩
    · rcases h.sound z hz with hz | ⟨x,hx,hl⟩
      · exact .inl hz
      · exact .inr ⟨x,List.mem_append_left _ hx,hl⟩
    · exact .inr ⟨y,List.mem_append_right _ hy,hl⟩

theorem Searched.finish {path : List α} {x : α} {w v : Walk α}
    (h : Searched next (x :: path) (next x) w v) : Searched next path [x] w (v.finish x) where
  grows := h.grows.trans (List.prefix_append _ _)
  closed := by
    intro z hz y hy
    have hback : y ∈ v.finished ∨ y ∈ x :: path := by
      rcases List.mem_append.mp hz with hz | hz
      · exact h.closed z hz y hy
      · rw [List.mem_singleton.mp hz] at hy
        exact h.reached y hy
    simp only [Walk.finish,List.mem_append,List.mem_cons] at hback ⊢
    tauto
  reached := by simp [Walk.finish]
  sound := by
    intro z hz
    rcases List.mem_append.mp hz with hz | hz
    · rcases h.sound z hz with hz | ⟨y,hy,hl⟩
      · exact .inl hz
      · exact .inr ⟨x,by simp,.head hy hl⟩
    · rw [List.mem_singleton.mp hz]
      exact .inr ⟨x,by simp,.refl⟩

theorem closed_empty (path : List α) : Closed next path empty := by simp [Closed,empty]

def Ordered (next : α → List α) (w : Walk α) : Prop :=
  ∀ l v, l ++ [v] <+: w.finished → next v ⊆ l

structure Acyclic (next : α → List α) (w : Walk α) : Prop where
  closing : w.closing = []
  ordered : Ordered next w

theorem Acyclic.finish {w : Walk α} (h : Acyclic next w) {x : α} (hx : next x ⊆ w.finished) :
    Acyclic next (w.finish x) where
  closing := h.closing
  ordered := forall_prefix_append_single h.ordered hx

theorem acyclic_empty : Acyclic next empty where
  closing := rfl
  ordered := by
    intro l v h
    simp [empty] at h

variable [DecidableEq α]

@[simp] theorem finished_close (w : Walk α) (x : α) : (w.close x).finished = w.finished := by
  unfold close; split <;> rfl

/-- Searches from some vertices at the end of a path, one after the other, told without fuel. -/
inductive Visits (next : α → List α) : List α → List α → Walk α → Walk α → Prop
  | nil {path : List α} {w : Walk α} : Visits next path [] w w
  | done {path xs : List α} {x : α} {w v : Walk α} (hx : x ∈ w.finished)
    (h : Visits next path xs w v) : Visits next path (x :: xs) w v
  | back {path xs : List α} {x : α} {w v : Walk α} (hd : x ∉ w.finished) (hx : x ∈ path)
    (h : Visits next path xs (w.close x) v) : Visits next path (x :: xs) w v
  | enter {path xs : List α} {x : α} {w u v : Walk α} (hd : x ∉ w.finished) (hx : x ∉ path)
    (h : Visits next (x :: path) (next x) w u) (k : Visits next path xs (u.finish x) v) :
    Visits next path (x :: xs) w v

section Visits
variable {path xs ys : List α} {w u v : Walk α}

theorem Visits.append (h : Visits next path xs w u) (k : Visits next path ys u v) :
    Visits next path (xs ++ ys) w v := by
  induction h with
  | nil => exact k
  | done hx _ ih => exact .done hx (ih k)
  | back hd hx _ ih => exact .back hd hx (ih k)
  | enter hd hx h _ _ ih => exact .enter hd hx h (ih k)

theorem visits_foldl {f : Walk α → α → Walk α}
    (hf : ∀ x ∈ xs, ∀ v, Visits next path [x] v (f v x)) :
    Visits next path xs w (xs.foldl f w) := by
  induction xs generalizing w with
  | nil => exact .nil
  | cons x xs ih =>
    exact (hf x List.mem_cons_self w).append (ih fun y hy => hf y (List.mem_cons_of_mem _ hy))

/-- The path and the fuel together have to exceed the vertices with edges that can be come by: only
the vertices on the path have to be told apart, and these have edges. -/
theorem visits_visit (vertices : List α) {fuel : Nat} {x : α}
    (hv : ∀ v, Leads next x v → ∀ y ∈ next v, v ∈ vertices) (hp : path ⊆ vertices)
    (hn : path.Nodup) (hf : vertices.length < fuel+path.length) :
    Visits next path [x] w (visit next fuel path x w) := by
  induction fuel generalizing path x w with
  | zero =>
    have := (List.subperm_of_subset hn hp).length_le
    omega
  | succ fuel ih =>
    rw [visit]
    split <;> rename_i hd
    · exact .done hd .nil
    · split <;> rename_i hx
      · exact .back hd hx .nil
      · refine .enter hd hx (visits_foldl fun y hy v => ih (fun z hz => hv z (.head hy hz))
          (List.cons_subset.mpr ⟨hv x .refl y hy,hp⟩) (List.nodup_cons.mpr ⟨hx,hn⟩) ?_) .nil
        simp only [List.length_cons]; omega

theorem visits_visitAll {vertices : List α} (hv : ∀ v ∈ vertices, next v ⊆ vertices) {fuel : Nat}
    (hx : xs ⊆ vertices) (hf : vertices.length < fuel) :
    Visits next [] xs w (visitAll next fuel xs w) :=
  visits_foldl fun _ h _ => visits_visit vertices (fun _ hl _ _ => mem_of_leads hv (hx h) hl)
    (List.nil_subset _) .nil (by simpa)

theorem Visits.grows (h : Visits next path xs w v) : w.finished <+: v.finished := by
  induction h with
  | nil => exact List.prefix_rfl
  | done _ _ ih => exact ih
  | back _ _ _ ih => simpa using ih
  | enter _ _ _ _ ih ihs => exact ih.trans ((List.prefix_append _ _).trans ihs)

theorem Visits.searched (h : Visits next path xs w v) (hw : Closed next path w) :
    Searched next path xs w v := by
  induction h with
  | nil => exact .refl hw
  | @done path _ x w _ hx _ ih =>
    have hdone : Searched next path [x] w w :=
      ⟨List.prefix_rfl,hw,by simp [hx],fun _ h => .inl h⟩
    exact hdone.trans (ih hw)
  | @back path _ x w _ _ hx _ ih =>
    have hclose : Searched next path [x] w (w.close x) :=
      ⟨by simp,by simpa only [Closed,finished_close] using hw,by simp [hx],
        fun _ h => .inl (by simpa using h)⟩
    exact hclose.trans (ih hclose.closed)
  | enter _ _ _ _ ih ihs =>
    have hx := (ih fun z hz y hy => (hw z hz y hy).imp_right (List.mem_cons_of_mem _)).finish
    exact hx.trans (ihs hx.closed)

theorem Visits.acyclic {vertices : List α} (hv : ∀ v ∈ vertices, next v ⊆ vertices)
    {rank : α → Nat} (hr : ∀ v ∈ vertices, ∀ y ∈ next v, rank y < rank v)
    (h : Visits next path xs w v) (hx : xs ⊆ vertices)
    (hd : ∀ x ∈ xs, ∀ p ∈ path, rank x < rank p) (hw : Closed next path w)
    (ha : Acyclic next w) : Acyclic next v := by
  induction h with
  | nil => exact ha
  | done _ _ ih =>
    exact ih (List.cons_subset.mp hx).2 (fun y hy => hd y (List.mem_cons_of_mem _ hy)) hw ha
  | @back _ _ x _ _ _ hback => exact absurd (hd x List.mem_cons_self x hback) (Nat.lt_irrefl _)
  | @enter path xs x w u v _ _ h _ ih ihs =>
    obtain ⟨hx,hxs⟩ := List.cons_subset.mp hx
    have hdown : ∀ y ∈ next x, ∀ p ∈ x :: path, rank y < rank p := by
      intro y hy
      have hyx := hr x hx y hy
      exact List.forall_mem_cons.mpr
        ⟨hyx,fun p hp => Nat.lt_trans hyx (hd x List.mem_cons_self p hp)⟩
    have hw' : Closed next (x :: path) w :=
      fun z hz y hy => (hw z hz y hy).imp_right (List.mem_cons_of_mem _)
    have hs := h.searched hw'
    refine ihs hxs (fun y hy => hd y (List.mem_cons_of_mem _ hy)) hs.finish.closed
      ((ih (hv x hx) hdown hw' ha).finish fun y hy => (hs.reached y hy).resolve_right fun hp => ?_)
    exact Nat.lt_irrefl _ (hdown y hy y hp)

end Visits

end Walk
end AddressedForms
