import AddressedForms.Proofs.DepthFirst
set_option autoImplicit false

/-!
The search with a stack of its own in place of recursion. A vertex is put on the stack once for each
vertex that it is seen from, so long as it has not been entered, and again, when it is entered, to
be left after all that was put on top of it. It finishes the same vertices in the same order.
-/

namespace AddressedForms

inductive Task (α : Type) where
  | enter (x : α)
  | leave (x : α)

structure Stacked (α : Type) where
  tasks : List (Task α)
  entered : List α
  finished : List α

namespace Stacked
variable {α : Type} {next : α → List α} {path entered finished : List α} {x : α}

/-- What has been entered is finished or lies on the path, and nothing is both. -/
structure Split (path entered finished : List α) : Prop where
  split : ∀ x ∈ entered, x ∈ path ∨ x ∈ finished
  subset : path ⊆ entered
  apart : path.Disjoint finished

theorem Split.enter (h : Split path entered finished) (hx : x ∉ finished) :
    Split (x :: path) (x :: entered) finished where
  split := by
    intro y hy
    rcases List.mem_cons.mp hy with rfl | hy
    · exact .inl List.mem_cons_self
    · exact (h.split y hy).imp_left (List.mem_cons_of_mem _)
  subset := List.cons_subset_cons _ h.subset
  apart := List.disjoint_cons_left.mpr ⟨hx,h.apart⟩

theorem Split.leave (h : Split (x :: path) entered finished) (hx : x ∉ path) :
    Split path entered (finished ++ [x]) where
  split := by
    intro y hy
    have := h.split y hy
    simp only [List.mem_cons,List.mem_append,List.not_mem_nil,or_false] at this ⊢
    tauto
  subset := List.Subset.trans (List.subset_cons_self _ _) h.subset
  apart := List.disjoint_append_right.mpr
    ⟨(List.disjoint_cons_left.mp h.apart).2,List.disjoint_singleton.mpr hx⟩

variable [DecidableEq α]

def isNew (entered finished : List α) (x : α) : Bool := x ∉ finished ∧ x ∉ entered

theorem Split.of_isNew_eq_false (h : Split path entered finished)
    (hx : isNew entered finished x = false) : x ∈ finished ∨ x ∈ path := by
  have : ¬ (x ∉ finished ∧ x ∉ entered) := of_decide_eq_false hx
  by_cases hf : x ∈ finished
  · exact .inl hf
  · exact (h.split x (not_not.mp fun he => this ⟨hf,he⟩)).symm

def step (next : α → List α) (s : Stacked α) : Option (Stacked α) :=
  match s.tasks with
  | [] => none
  | .leave x :: ts =>
    some ⟨ts,s.entered,if x ∈ s.finished then s.finished else s.finished ++ [x]⟩
  | .enter x :: ts =>
    if x ∈ s.finished ∨ x ∈ s.entered then some {s with tasks := ts}
    else
      let subs := (next x).filter (isNew (x :: s.entered) s.finished)
      some ⟨subs.map Task.enter ++ Task.leave x :: ts,x :: s.entered,s.finished⟩

def Runs (next : α → List α) : Stacked α → Stacked α → Prop :=
  Relation.ReflTransGen fun s t => s.step next = some t

/-- A vertex that is put on the stack, or left off it, has its turn and nothing comes of it. -/
theorem runs_drop (h : x ∈ finished ∨ x ∈ entered) (kept : α → Bool) (xs : List α)
    (ts : List (Task α)) :
    Runs next ⟨((x :: xs).filter kept).map Task.enter ++ ts,entered,finished⟩
      ⟨(xs.filter kept).map Task.enter ++ ts,entered,finished⟩ := by
  by_cases hkept : kept x
  · rw [List.filter_cons_of_pos hkept]
    exact .single (if_pos h)
  · rw [List.filter_cons_of_neg hkept]
    exact .refl

theorem runs_leave (h : x ∉ finished) (ts : List (Task α)) :
    Runs next ⟨Task.leave x :: ts,entered,finished⟩ ⟨ts,entered,finished ++ [x]⟩ :=
  .single (by simp [step,h])

theorem runs_enter (hf : x ∉ finished) (he : x ∉ entered) (ts : List (Task α)) :
    Runs next ⟨Task.enter x :: ts,entered,finished⟩
      ⟨((next x).filter (isNew (x :: entered) finished)).map Task.enter ++ Task.leave x :: ts,
        x :: entered,finished⟩ :=
  .single (if_neg (not_or_intro hf he))

/-- Of the vertices that are searched from, those may be left off the stack that are finished or on
the path already, whenever the others are seen to. -/
theorem runs_of_visits {xs : List α} {w v : Walk α} (h : Walk.Visits next path xs w v)
    (hs : Split path entered w.finished) (kept : α → Bool)
    (hk : ∀ x ∈ xs, kept x = false → x ∈ w.finished ∨ x ∈ path) (ts : List (Task α)) :
    ∃ entered', Split path entered' v.finished ∧
      Runs next ⟨(xs.filter kept).map Task.enter ++ ts,entered,w.finished⟩
        ⟨ts,entered',v.finished⟩ := by
  induction h generalizing entered kept ts with
  | nil => exact ⟨entered,hs,.refl⟩
  | done hx _ ih =>
    obtain ⟨entered',hs',hrun⟩ := ih hs kept (fun y hy => hk y (List.mem_cons_of_mem _ hy)) ts
    exact ⟨entered',hs',(runs_drop (.inl hx) _ _ _).trans hrun⟩
  | back _ hx _ ih =>
    rw [Walk.finished_close] at ih
    obtain ⟨entered',hs',hrun⟩ := ih hs kept (fun y hy => hk y (List.mem_cons_of_mem _ hy)) ts
    exact ⟨entered',hs',(runs_drop (.inr (hs.subset hx)) _ _ _).trans hrun⟩
  | @enter path xs x w u v hd hx h _ ih ihs =>
    have hkept : kept x := by
      by_contra hn
      exact (hk x List.mem_cons_self (Bool.eq_false_iff.mpr hn)).elim hd hx
    have hopen : x ∉ entered := fun he => (hs.split x he).elim hx hd
    rw [List.filter_cons_of_pos hkept]
    -- what has been entered already is left off the stack, where nothing would come of it
    obtain ⟨entered',hs',hsubs⟩ := ih (hs.enter hd) _
      (fun y _ hy => (hs.enter hd).of_isNew_eq_false hy)
      (Task.leave x :: ((xs.filter kept).map Task.enter ++ ts))
    have hleft : x ∉ u.finished := (List.disjoint_cons_left.mp hs'.apart).1
    obtain ⟨last,hlast,hrest⟩ := ihs (hs'.leave hx) kept (fun y hy hn => by
      refine (hk y (List.mem_cons_of_mem _ hy) hn).imp_left fun hy => ?_
      exact (h.grows.trans (List.prefix_append _ _)).subset hy) ts
    refine ⟨last,hlast,(runs_enter hd hopen _).trans (hsubs.trans ?_)⟩
    exact (runs_leave hleft _).trans hrest

end Stacked
end AddressedForms
