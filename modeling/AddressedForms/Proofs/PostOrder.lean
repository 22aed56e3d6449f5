import AddressedForms.Proofs.DepthFirst
set_option autoImplicit false

/-!
The order in which a depth-first search finishes vertices. Each is finished once, after those that it
has an edge to but for those that lead back to it. Where some vertices count as finished from the
start, the search is one of the graph without their edges.
-/

namespace AddressedForms
namespace Walk
variable {α : Type} {next : α → List α}

/-- Vertices of which each comes after those that it has an edge to and that do not lead back. -/
def Trailing (next : α → List α) (vs : List α) : Prop :=
  ∀ l v, l ++ [v] <+: vs → ∀ y ∈ next v, y ∈ l ∨ Leads next y v

theorem trailing_nil : Trailing next [] := by
  intro l v h
  simp at h

theorem Trailing.snoc {vs : List α} (h : Trailing next vs) {x : α}
    (hx : ∀ y ∈ next x, y ∈ vs ∨ Leads next y x) : Trailing next (vs ++ [x]) :=
  forall_prefix_append_single h hx

structure Trails (next : α → List α) (path xs vs vs' : List α) : Prop where
  grows : vs <+: vs'
  trailing : Trailing next vs'
  reached : ∀ x ∈ xs, x ∈ vs' ∨ x ∈ path

theorem Trails.refl {path vs : List α} (h : Trailing next vs) : Trails next path [] vs vs :=
  ⟨List.prefix_rfl,h,by simp⟩

theorem Trails.trans {path xs ys us vs ws : List α} (h : Trails next path xs us vs)
    (k : Trails next path ys vs ws) : Trails next path (xs ++ ys) us ws where
  grows := h.grows.trans k.grows
  trailing := k.trailing
  reached := by
    intro x hx
    rcases List.mem_append.mp hx with hx | hx
    · exact (h.reached x hx).imp_left fun hv => k.grows.subset hv
    · exact k.reached x hx

variable [DecidableEq α]

theorem Visits.trails {path xs : List α} {w v : Walk α} (h : Visits next path xs w v)
    (hl : ∀ x ∈ xs, ∀ p ∈ path, Leads next p x) (hw : Trailing next w.finished) :
    Trails next path xs w.finished v.finished := by
  induction h with
  | nil => exact .refl hw
  | @done path _ x w _ hx _ ih =>
    have hdone : Trails next path [x] w.finished w.finished :=
      ⟨List.prefix_rfl,hw,by simp [hx]⟩
    exact hdone.trans (ih (fun y hy => hl y (List.mem_cons_of_mem _ hy)) hw)
  | @back path _ x w _ _ hx _ ih =>
    rw [finished_close] at ih
    have hback : Trails next path [x] w.finished w.finished :=
      ⟨List.prefix_rfl,hw,by simp [hx]⟩
    exact hback.trans (ih (fun y hy => hl y (List.mem_cons_of_mem _ hy)) hw)
  | @enter path _ x w u _ _ _ _ _ ih ihs =>
    have hpath : ∀ p ∈ x :: path, Leads next p x :=
      List.forall_mem_cons.mpr ⟨.refl,hl x List.mem_cons_self⟩
    have hnext := ih (fun y hy p hp => (hpath p hp).tail hy) hw
    have hx : Trails next path [x] w.finished (u.finish x).finished :=
      ⟨hnext.grows.trans (List.prefix_append _ _),
        hnext.trailing.snoc fun y hy => (hnext.reached y hy).imp_right (hpath y),
        by simp [Walk.finish]⟩
    exact hx.trans (ihs (fun y hy => hl y (List.mem_cons_of_mem _ hy)) hx.trailing)

section Visits
variable {known path xs : List α} {w v : Walk α} {x y z : α}

theorem Visits.nodup (h : Visits next path xs w v) (hn : w.finished.Nodup)
    (hp : path.Disjoint w.finished) : v.finished.Nodup ∧ path.Disjoint v.finished := by
  induction h with
  | nil => exact ⟨hn,hp⟩
  | done _ _ ih => exact ih hn hp
  | back _ _ _ ih => exact ih (by simpa using hn) (by simpa using hp)
  | enter hd hx _ _ ih ihs =>
    obtain ⟨hun,hup⟩ := ih hn (List.disjoint_cons_left.mpr ⟨hd,hp⟩)
    obtain ⟨hxu,hpu⟩ := List.disjoint_cons_left.mp hup
    refine ihs (hun.append (List.nodup_singleton _) (List.disjoint_singleton.mpr hxu)) ?_
    exact List.disjoint_append_right.mpr ⟨hpu,List.disjoint_singleton.mpr hx⟩

theorem Visits.exists_last (h : Visits next path [x] w v) (hd : x ∉ w.finished)
    (hx : x ∉ path) : ∃ vs, v.finished = vs ++ [x] := by
  cases h with
  | done hx' => exact absurd hx' hd
  | back _ hx' => exact absurd hx' hx
  | enter _ _ _ k =>
    cases k
    exact ⟨_,rfl⟩

def outside (known : List α) (next : α → List α) (x : α) : List α :=
  if x ∈ known then [] else (next x).filter (· ∉ known)

theorem mem_outside : y ∈ outside known next x ↔ x ∉ known ∧ y ∈ next x ∧ y ∉ known := by
  unfold outside
  split <;> simp [*]

/-- A path that keeps clear of some vertices is one that starts elsewhere and never enters them. -/
theorem leads_outside_iff (hx : x ∉ known) : Leads (outside known next) x y ↔
    Relation.ReflTransGen (fun a b => b ∈ next a ∧ b ∉ known) x y := by
  refine ⟨Relation.ReflTransGen.mono (fun _ _ hb => (mem_outside.mp hb).2) x y,fun h => ?_⟩
  induction h using Relation.ReflTransGen.head_induction_on with
  | refl => exact .refl
  | head hab _ ih => exact .head (mem_outside.mpr ⟨hx,hab⟩) (ih hab.2)

theorem notMem_of_leads_outside (hx : x ∉ known) (h : Leads (outside known next) x y) :
    y ∉ known := by
  induction h with
  | refl => exact hx
  | tail _ hb _ => exact (mem_outside.mp hb).2.2

theorem leads_within {vs : List α} (h : Leads (outside known next) x y)
    (hv : ∀ z, Leads (outside known next) x z → z ∈ vs) :
    Relation.ReflTransGen (fun a b => b ∈ next a ∧ a ∈ vs ∧ b ∈ vs) x y := by
  induction h with
  | refl => exact .refl
  | tail hz hy ih => exact ih.tail ⟨(mem_outside.mp hy).2.1,hv _ hz,hv _ (hz.tail hy)⟩

theorem Visits.restrict (h : Visits next path xs w v) (hk : known ⊆ w.finished) :
    Visits (outside known next) path (xs.filter (· ∉ known)) w v := by
  induction h with
  | nil => exact .nil
  | @done _ _ x _ _ hx _ ih =>
    by_cases hxk : x ∈ known
    · simpa [hxk] using ih hk
    · simpa [hxk] using Visits.done hx (ih hk)
  | @back _ _ x _ _ hd hx _ ih =>
    have hxk : x ∉ known := fun hm => hd (hk hm)
    simpa [hxk] using Visits.back hd hx (ih (by simpa using hk))
  | @enter _ _ x w u _ hd hx h _ ih ihs =>
    have hxk : x ∉ known := fun hm => hd (hk hm)
    have hnext : outside known next x = (next x).filter (· ∉ known) := if_neg hxk
    have hu : known ⊆ (u.finish x).finished :=
      List.Subset.trans hk (h.grows.trans (List.prefix_append _ _)).subset
    simpa [hxk] using Visits.enter hd hx (hnext ▸ ih hk) (ihs hu)

/-- A search that starts off with some vertices as finished finishes those that can be come by
around them. -/
theorem Visits.mem_iff (h : Visits next [] [x] w v) :
    y ∈ v.finished ↔ y ∈ w.finished ∨ x ∉ w.finished ∧ Leads (outside w.finished next) x y := by
  have hs := (h.restrict (List.Subset.refl _)).searched
    fun z hz y hy => absurd hz (mem_outside.mp hy).1
  refine ⟨fun hy => (hs.sound y hy).imp_right ?_,?_⟩
  · rintro ⟨x',hx',hl⟩
    obtain ⟨hx',hd⟩ := List.mem_filter.mp hx'
    obtain rfl := List.mem_singleton.mp hx'
    exact ⟨of_decide_eq_true hd,hl⟩
  · rintro (hy | ⟨hd,hl⟩)
    · exact hs.grows.subset hy
    · have hx := (hs.reached x (by simp [hd])).resolve_right List.not_mem_nil
      exact mem_of_leads (fun z hz y hy => (hs.closed z hz y hy).resolve_right List.not_mem_nil)
        hx hl

theorem Visits.trailing_outside (h : Visits next [] xs w v) :
    Trailing (outside w.finished next) v.finished := by
  refine ((h.restrict (List.Subset.refl _)).trails (by simp) fun l z hz y hy => ?_).trailing
  exact absurd (hz.subset (by simp)) (mem_outside.mp hy).1

end Visits

end Walk
end AddressedForms
