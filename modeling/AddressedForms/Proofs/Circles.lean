import AddressedForms.Proofs.DepthFirst
import Mathlib.Data.List.Cycle
set_option autoImplicit false

/-!
The cycles of a graph that is searched. A vertex is closing only if it lies on a cycle, and there is
no cycle without a closing vertex; what a finished vertex leads to was finished before it, or is
closing.
-/

namespace AddressedForms
namespace Walk
variable {α : Type} {next : α → List α}

def Edge (next : α → List α) (a b : α) : Prop := b ∈ next a

theorem exists_common_cycle {x y : α} (hxy : y ∈ next x) (hyx : Leads next y x) :
    ∃ c : Cycle α, x ∈ c ∧ y ∈ c ∧ c.Chain (Edge next) := by
  obtain ⟨l,hl,hlast⟩ := List.exists_isChain_cons_of_relationReflTransGen hyx
  have hx : x ∈ y :: l := hlast ▸ List.getLast_mem _
  refine ⟨(y :: l : List α),Cycle.mem_coe_iff.mpr hx,Cycle.mem_coe_iff.mpr List.mem_cons_self,
    (Cycle.chain_coe_cons _ _ _).mpr ?_⟩
  rw [← List.cons_append,List.isChain_append]
  refine ⟨hl,.singleton y,fun a ha b hb => ?_⟩
  rw [List.getLast?_eq_getLast_of_ne_nil (List.cons_ne_nil y l),hlast] at ha
  cases ha
  cases hb
  exact hxy

theorem exists_cycle {x : α} (h : Relation.TransGen (Edge next) x x) :
    ∃ c : Cycle α, x ∈ c ∧ c.Chain (Edge next) := by
  obtain ⟨y,hxy,hyx⟩ := Relation.TransGen.head'_iff.mp h
  obtain ⟨c,hx,-,hc⟩ := exists_common_cycle hxy hyx
  exact ⟨c,hx,hc⟩

theorem exists_edge_of_mem_cycle {c : Cycle α} (h : c.Chain (Edge next)) {x : α} (hx : x ∈ c) :
    ∃ y ∈ c, y ∈ next x := by
  induction c using Quotient.inductionOn with
  | h l =>
    cases l with
    | nil => exact absurd hx (Cycle.notMem_nil x)
    | cons a l =>
      have hchain := (Cycle.chain_coe_cons _ _ _).mp h
      obtain ⟨s,t,hst⟩ := List.append_of_mem (Cycle.mem_coe_iff.mp hx)
      rw [← List.cons_append,hst,List.append_assoc] at hchain
      have hright := hchain.right_of_append
      cases t with
      | nil => exact ⟨a,Cycle.mem_coe_iff.mpr List.mem_cons_self,hright.rel⟩
      | cons y t =>
        have hy : y ∈ a :: l := by simp [hst]
        exact ⟨y,Cycle.mem_coe_iff.mpr hy,hright.rel⟩

/-- What is known of the edges of a walk. -/
structure Tracked (next : α → List α) (w : Walk α) : Prop where
  ordered : ∀ l v, l ++ [v] <+: w.finished → ∀ y ∈ next v, y ∈ l ∨ y ∈ w.closing
  cyclic : ∀ v ∈ w.closing, Relation.TransGen (Edge next) v v

structure Tracks (next : α → List α) (xs : List α) (w w' : Walk α) : Prop where
  tracked : Tracked next w'
  finished : w.finished <+: w'.finished
  closing : w.closing ⊆ w'.closing
  reached : ∀ x ∈ xs, x ∈ w'.finished ∨ x ∈ w'.closing

theorem tracked_empty : Tracked next empty where
  ordered l v h := by simp [empty] at h
  cyclic := by simp [empty]

theorem Tracks.refl {w : Walk α} (h : Tracked next w) : Tracks next [] w w where
  tracked := h
  finished := List.prefix_rfl
  closing := List.Subset.refl _
  reached := by simp

theorem Tracks.trans {xs ys : List α} {w u v : Walk α} (h : Tracks next xs w u)
    (k : Tracks next ys u v) : Tracks next (xs ++ ys) w v where
  tracked := k.tracked
  finished := h.finished.trans k.finished
  closing := List.Subset.trans h.closing k.closing
  reached := by
    intro x hx
    rcases List.mem_append.mp hx with hx | hx
    · exact (h.reached x hx).imp (k.finished.subset ·) (k.closing ·)
    · exact k.reached x hx

theorem Tracks.finish {x : α} {w v : Walk α} (h : Tracks next (next x) w v) :
    Tracks next [x] w (v.finish x) where
  tracked := ⟨forall_prefix_append_single h.tracked.ordered h.reached,h.tracked.cyclic⟩
  finished := h.finished.trans (List.prefix_append _ _)
  closing := h.closing
  reached := by simp [Walk.finish]

/-- Where finished vertices go round a cycle, one of them is closing: the first to be finished has
its next vertex neither before it nor elsewhere. -/
theorem Tracked.exists_closing {w : Walk α} (h : Tracked next w) {c : Cycle α} (hne : c ≠ .nil)
    (hc : ∀ x ∈ c, ∃ y ∈ c, y ∈ next x) (hf : ∀ x ∈ c, x ∈ w.finished) :
    ∃ x ∈ c, x ∈ w.closing := by
  by_contra hnone
  have hout (l : List α) (hl : l <+: w.finished) : ∀ x ∈ l, x ∉ c := by
    induction l using List.reverseRecOn with
    | nil => simp
    | append_singleton l v ih =>
      replace ih := ih ((List.prefix_append _ _).trans hl)
      intro x hx hxc
      rcases List.mem_append.mp hx with hx | hx
      · exact ih x hx hxc
      · obtain ⟨y,hyc,hy⟩ := hc x hxc
        rw [List.mem_singleton.mp hx] at hy
        rcases h.ordered l v hl y hy with hyl | hyw
        · exact ih y hyl hyc
        · exact hnone ⟨y,hyc,hyw⟩
  induction c using Quotient.inductionOn with
  | h l =>
    cases l with
    | nil => exact hne rfl
    | cons a l =>
      have ha := Cycle.mem_coe_iff.mpr (List.mem_cons_self : a ∈ a :: l)
      exact hout _ List.prefix_rfl a (hf a ha) ha

variable [DecidableEq α]

theorem mem_closing_close {w : Walk α} {x y : α} :
    y ∈ (w.close x).closing ↔ y ∈ w.closing ∨ y = x := by
  unfold close
  split <;> rename_i hx
  · exact ⟨.inl,fun h => h.elim id (· ▸ hx)⟩
  · simp

theorem Tracked.close {w : Walk α} (h : Tracked next w) {x : α}
    (hx : Relation.TransGen (Edge next) x x) : Tracks next [x] w (w.close x) where
  tracked := by
    refine ⟨fun l v hp y hy => ?_,fun v hv => ?_⟩
    · rw [finished_close] at hp
      exact (h.ordered l v hp y hy).imp_right fun hc => mem_closing_close.mpr (.inl hc)
    · rcases mem_closing_close.mp hv with hv | rfl
      · exact h.cyclic v hv
      · exact hx
  finished := by rw [finished_close]
  closing y hy := mem_closing_close.mpr (.inl hy)
  reached := by simp [mem_closing_close]

theorem Visits.tracks {path xs : List α} {w v : Walk α} (h : Visits next path xs w v)
    (hl : ∀ x ∈ xs, ∀ p ∈ path, Relation.TransGen (Edge next) p x) (hw : Tracked next w) :
    Tracks next xs w v := by
  induction h with
  | nil => exact .refl hw
  | @done _ _ x w _ hx _ ih =>
    have hdone : Tracks next [x] w w := ⟨hw,List.prefix_rfl,List.Subset.refl _,by simp [hx]⟩
    exact hdone.trans (ih (fun y hy => hl y (List.mem_cons_of_mem _ hy)) hw)
  | @back _ _ x _ _ _ hx _ ih =>
    have hclose := hw.close (hl x List.mem_cons_self x hx)
    exact hclose.trans (ih (fun y hy => hl y (List.mem_cons_of_mem _ hy)) hclose.tracked)
  | @enter _ _ x _ _ _ _ _ _ _ ih ihs =>
    have hx := Tracks.finish (ih (fun y hy => List.forall_mem_cons.mpr
      ⟨.single hy,fun p hp => (hl x List.mem_cons_self p hp).tail hy⟩) hw)
    exact hx.trans (ihs (fun y hy => hl y (List.mem_cons_of_mem _ hy)) hx.tracked)

end Walk
end AddressedForms
