import AddressedForms.Proofs.Circles
import AddressedForms.Proofs.Document.Resolution
set_option autoImplicit false

/-!
Resolution of any definitions, with circles or without. The names at which circles close have failed
from the start, and when a definition is built nothing that it depends on is pending.
-/

namespace AddressedForms
namespace Resolution
variable {α : Type} {names : List String} {next : String → List String}
  {build build' : Table (Resolution α) → String → Attempt α}

def circular (names : List String) (next : String → List String) : List String :=
  names.filter (· ∈ (order names next).closing)

section Order

theorem tracked_order (names : List String) (next : String → List String) :
    Walk.Tracked (edges names next) (order names next) :=
  ((visits_order names next).tracks (by simp) Walk.tracked_empty).tracked

theorem exists_cycle_of_mem_circular {n : String} (h : n ∈ circular names next) :
    ∃ c : Cycle String, n ∈ c ∧ c.Chain (Walk.Edge next) := by
  have hn := of_decide_eq_true (List.mem_filter.mp h).2
  obtain ⟨c,hnc,hc⟩ := Walk.exists_cycle ((tracked_order names next).cyclic n hn)
  exact ⟨c,hnc,hc.imp fun _ _ hk => (mem_edges.mp hk).1⟩

theorem exists_mem_circular {c : Cycle String} (hne : c ≠ .nil) (hc : c.Chain (Walk.Edge next))
    (hn : ∀ n ∈ c, n ∈ names) : ∃ n ∈ c, n ∈ circular names next := by
  obtain ⟨n,hnc,hclosing⟩ := (tracked_order names next).exists_closing hne (fun m hm => by
      obtain ⟨k,hk,he⟩ := Walk.exists_edge_of_mem_cycle hc hm
      exact ⟨k,hk,mem_edges.mpr ⟨he,hn k hk⟩⟩)
    fun m hm => (mem_finished_order m).mpr (hn m hm)
  exact ⟨n,hnc,List.mem_filter.mpr ⟨hn n hnc,decide_eq_true hclosing⟩⟩

/-- Names in an order in which each follows its dependencies, but for circles. -/
def Ordered (names : List String) (next : String → List String) (ns : List String) : Prop :=
  ∀ l n, l ++ [n] <+: ns → ∀ k ∈ next n, k ∈ names → k ∈ l ∨ k ∈ circular names next

theorem ordered_order : Ordered names next (order names next).finished := by
  intro l n hp k hk hm
  refine ((tracked_order names next).ordered l n hp k (mem_edges.mpr ⟨hk,hm⟩)).imp_right ?_
  exact fun hc => List.mem_filter.mpr ⟨hm,decide_eq_true hc⟩

end Order

structure Prepared (names : List String) (next : String → List String) (t : Table (Resolution α))
    (n : String) : Prop where
  mem : n ∈ names
  keys : ∀ k, t.get? k = none ↔ k ∉ names
  settled : ∀ k ∈ next n, t.get? k ≠ some .pending

structure Through (names : List String) (next : String → List String) (done : List String)
    (t : Table (Resolution α)) : Prop where
  keys : ∀ n, t.get? n = none ↔ n ∉ names
  settled : ∀ n ∈ done, t.get? n ≠ some .pending
  circular : ∀ n ∈ circular names next, t.get? n = some .failed

def start (names : List String) (next : String → List String) : Table (Resolution α) :=
  .ofList (names.map fun n => (n,if n ∈ circular names next then .failed else .pending))

theorem get?_start (n : String) : (start names next : Table (Resolution α)).get? n =
    if n ∈ names then some (if n ∈ circular names next then .failed else .pending) else none :=
  Table.get?_ofList_map names
    (fun n => if n ∈ circular names next then Resolution.failed else .pending) n

theorem through_start : Through names next [] (start names next : Table (Resolution α)) where
  keys n := by simp [get?_start]
  settled := by simp
  circular n hn := by rw [get?_start,if_pos (List.mem_filter.mp hn).1,if_pos hn]

def Progress.push (p : Progress α) (n : String) (a : Attempt α) : Progress α :=
  ⟨p.table.insert n (.ofOption a.value?),p.reports ++ a.reports⟩

theorem settle_of_pending {p : Progress α} {n : String} (h : p.table.get? n = some .pending) :
    settle build p n = p.push n (build p.table n) := by
  simp only [settle,h]
  rfl

theorem settle_of_ne {p : Progress α} {n : String} (h : p.table.get? n ≠ some .pending) :
    settle build p n = p := by
  unfold settle
  split
  · exact absurd ‹_› h
  · rfl

theorem ofOption_ne_pending (x : Option α) : Resolution.ofOption x ≠ .pending := by
  cases x <;> nofun

theorem Through.mem_names {done : List String} {t : Table (Resolution α)}
    (h : Through names next done t) {n : String} {x : Resolution α} (hx : t.get? n = some x) :
    n ∈ names := by
  by_contra hn
  rw [(h.keys n).mpr hn] at hx
  cases hx

theorem Through.prepared {done rest : List String} {t : Table (Resolution α)} {n : String}
    (h : Through names next done t) (ho : Ordered names next (done ++ n :: rest))
    (hn : t.get? n = some .pending) : Prepared names next t n where
  mem := h.mem_names hn
  keys := h.keys
  settled k hk hp := by
    have hprefix : done ++ [n] <+: done ++ n :: rest := ⟨rest,by simp⟩
    rcases ho done n hprefix k hk (h.mem_names hp) with hd | hc
    · exact h.settled k hd hp
    · rw [h.circular k hc] at hp
      cases hp

theorem Through.settle {done : List String} {p : Progress α} (h : Through names next done p.table)
    (n : String) : Through names next (done ++ [n]) (settle build p n).table := by
  by_cases hn : p.table.get? n = some .pending
  · have hmem := h.mem_names hn
    rw [settle_of_pending hn]
    refine ⟨fun k => ?_,fun k hk => ?_,fun k hk => ?_⟩ <;>
      simp only [Progress.push,Table.get?_insert] <;> split <;> rename_i he
    · simp [he,hmem]
    · exact h.keys k
    · exact fun hp => ofOption_ne_pending _ (Option.some.inj hp)
    · exact h.settled k ((List.mem_append.mp hk).resolve_right (by simpa using he))
    · have hc := h.circular k hk
      rw [he,hn] at hc
      cases hc
    · exact h.circular k hk
  · rw [settle_of_ne hn]
    refine ⟨h.keys,fun k hk => ?_,h.circular⟩
    rcases List.mem_append.mp hk with hk | hk
    · exact h.settled k hk
    · rwa [List.mem_singleton.mp hk]

theorem Through.foldl {done : List String} {p : Progress α} (h : Through names next done p.table)
    (rest : List String) :
    Through names next (done ++ rest) (rest.foldl (Resolution.settle build) p).table := by
  induction rest generalizing done p with
  | nil => simpa using h
  | cons n rest ih =>
    rw [List.append_cons]
    exact ih (h.settle n)

theorem settleAll_eq_foldl (s : Symbol) : settleAll s names next build =
    (order names next).finished.foldl (settle build)
      ⟨start names next,(circular names next).map (.cyclic s)⟩ := rfl

theorem through_settleAll (s : Symbol) :
    Through names next names (settleAll s names next build).table := by
  have h : Through names next [] (start names next : Table (Resolution α)) := through_start
  have hall : Through names next ([] ++ (order names next).finished)
      (settleAll s names next build).table :=
    Through.foldl (p := ⟨_,(circular names next).map (.cyclic s)⟩) h _
  exact ⟨hall.keys,fun n hn => hall.settled n ((mem_finished_order n).mpr hn),hall.circular⟩

theorem settleAll_induction (s : Symbol) {I : Progress α → Prop}
    (hstart : I ⟨start names next,(circular names next).map (.cyclic s)⟩)
    (step : ∀ p n, p.table.get? n = some .pending → Prepared names next p.table n → I p →
      I (p.push n (build p.table n))) : I (settleAll s names next build) := by
  have hfold : ∀ (rest done : List String) (p : Progress α),
      Ordered names next (done ++ rest) → Through names next done p.table → I p →
      I (rest.foldl (settle build) p) := by
    intro rest
    induction rest with
    | nil => exact fun _ _ _ _ => id
    | cons n rest ih =>
      intro done p ho h hi
      refine ih (done ++ [n]) _ (by simpa using ho) (h.settle n) ?_
      by_cases hn : p.table.get? n = some .pending
      · rw [settle_of_pending hn]
        exact step p n hn (h.prepared ho hn) hi
      · rwa [settle_of_ne hn]
  exact hfold _ [] _ ordered_order through_start hstart

theorem get?_settleAll_ne_pending (s : Symbol) (n : String) :
    (settleAll s names next build).table.get? n ≠ some .pending := by
  have h : Through names next names (settleAll s names next build).table := through_settleAll s
  intro hp
  exact h.settled n (h.mem_names hp) hp

/-- Resolution depends on what is built of prepared tables only. -/
theorem settleAll_congr (s : Symbol)
    (hb : ∀ t n, Prepared names next t n → build t n = build' t n) :
    settleAll s names next build = settleAll s names next build' := by
  rw [settleAll_eq_foldl,settleAll_eq_foldl]
  have hfold : ∀ (rest done : List String) (p : Progress α),
      Ordered names next (done ++ rest) → Through names next done p.table →
      rest.foldl (settle build) p = rest.foldl (settle build') p := by
    intro rest
    induction rest with
    | nil => exact fun _ _ _ _ => rfl
    | cons n rest ih =>
      intro done p ho h
      have he : settle build p n = settle build' p n := by
        by_cases hn : p.table.get? n = some .pending
        · rw [settle_of_pending hn,settle_of_pending hn,hb p.table n (h.prepared ho hn)]
        · rw [settle_of_ne hn,settle_of_ne hn]
      rw [List.foldl_cons,List.foldl_cons,← he]
      exact ih (done ++ [n]) _ (by simpa using ho) (h.settle n)
  exact hfold _ [] _ ordered_order through_start

section Settled
variable (s : Symbol)

/-- Circles are reported where they close and nowhere else. -/
theorem reports_settleAll (hb : ∀ t n, Prepared names next t n →
      ∀ s k, .cyclic s k ∉ (build t n).reports) :
    ∃ es, (settleAll s names next build).reports =
      (circular names next).map (.cyclic s) ++ es ∧ ∀ s k, .cyclic s k ∉ es := by
  refine settleAll_induction s (I := fun p => ∃ es, p.reports =
    (circular names next).map (.cyclic s) ++ es ∧ ∀ s k, .cyclic s k ∉ es)
    ⟨[],(List.append_nil _).symm,by simp⟩ ?_
  rintro p n - hp ⟨es,he,hes⟩
  refine ⟨es ++ (build p.table n).reports,?_,fun s k hk => ?_⟩
  · rw [Progress.push,he,List.append_assoc]
  · rcases List.mem_append.mp hk with hk | hk
    · exact hes s k hk
    · exact hb p.table n hp s k hk

theorem values_settleAll {Holds : String → α → Prop}
    (hb : ∀ t n, Prepared names next t n → (∀ k v, t.get? k = some (.value v) → Holds k v) →
      ∀ v, (build t n).value? = some v → Holds n v) :
    ∀ n v, (settleAll s names next build).table.get? n = some (.value v) → Holds n v := by
  refine settleAll_induction s
    (I := fun p => ∀ n v, p.table.get? n = some (.value v) → Holds n v) ?_ ?_
  · intro n v hv
    rw [get?_start] at hv
    split at hv
    · split at hv <;> cases hv
    · cases hv
  · intro p n hn hp ih k v hv
    simp only [Progress.push,Table.get?_insert] at hv
    split at hv <;> rename_i hk
    · refine hk ▸ hb p.table n hp ih v ?_
      generalize (build p.table n).value? = x at hv
      cases x <;> cases hv
      rfl
    · exact ih k v hv

/-- If nothing is reported all names have values, provided that building does not fail silently
where nothing has failed before. -/
theorem exists_value_settleAll (hb : ∀ t n, Prepared names next t n →
      (∀ k, t.get? k ≠ some .failed) → (build t n).value? = none → (build t n).reports ≠ [])
    (hc : (settleAll s names next build).reports = []) {n : String} (hn : n ∈ names) :
    ∃ v, (settleAll s names next build).table.get? n = some (.value v) := by
  have hnone : ∀ k, (settleAll s names next build).table.get? k ≠ some .failed := by
    refine settleAll_induction s
      (I := fun p => p.reports = [] → ∀ k, p.table.get? k ≠ some .failed) ?_ ?_ hc
    · intro hc k hk
      have hcircular := List.map_eq_nil_iff.mp hc
      rw [get?_start,hcircular] at hk
      split at hk <;> cases hk
    · intro p n hn hp ih hc k hk
      obtain ⟨hreports,hbuild⟩ := List.append_eq_nil_iff.mp hc
      simp only [Progress.push,Table.get?_insert] at hk
      split at hk
      · refine hb p.table n hp (ih hreports) ?_ hbuild
        generalize (build p.table n).value? = x at hk
        cases x <;> cases hk
        rfl
      · exact ih hreports k hk
  have h : Through names next names (settleAll s names next build).table := through_settleAll s
  cases hx : (settleAll s names next build).table.get? n with
  | none => exact absurd hn ((h.keys n).mp hx)
  | some x =>
    cases x with
    | pending => exact absurd hx (h.settled n hn)
    | failed => exact absurd hx (hnone n)
    | value v => exact ⟨v,rfl⟩

end Settled

theorem get?_of_mem_values {t : Table (Resolution α)} {n : String} {x : α}
    (h : (n,x) ∈ values t) : t.get? n = some (.value x) := by
  obtain ⟨⟨k,y⟩,hy,h⟩ := List.mem_filterMap.mp h
  cases y with
  | pending | failed => cases h
  | value y =>
    cases h
    exact Table.get?_of_mem_entries hy

end Resolution
end AddressedForms
