import AddressedForms.Document.Resolution
import AddressedForms.Proofs.DepthFirst
import AddressedForms.Proofs.Document.Attempt
import AddressedForms.Proofs.Table
set_option autoImplicit false

/-!
Resolution of definitions whose dependencies descend. No circle closes, and every definition is
built when all that it depends on has its value; so a property that building hands on from there
holds of all values.
-/

namespace AddressedForms
namespace Resolution
variable {α : Type}

theorem lookup_of_value {s : Symbol} {outside : String → Option α} {t : Table (Resolution α)}
    {name : String} {x : α} (h : t.get? name = some (.value x)) :
    lookup s outside t name = .success x := by simp [lookup,h]

theorem of_value?_lookup {s : Symbol} {outside : String → Option α} {t : Table (Resolution α)}
    {name : String} {x : α} (h : (lookup s outside t name).value? = some x) :
    t.get? name = some (.value x) ∨ t.get? name = none ∧ outside name = some x := by
  unfold lookup at h
  split at h <;> rename_i hget
  · rw [Attempt.value?_ofOption] at h
    exact .inr ⟨hget,h⟩
  · cases h
    exact .inl hget
  · cases h
  · cases h

theorem mem_values {t : Table (Resolution α)} {name : String} {x : α}
    (h : t.get? name = some (.value x)) : (name,x) ∈ values t :=
  List.mem_filterMap.mpr ⟨(name,.value x),Table.mem_entries_of_get? h,rfl⟩

theorem nodup_values (t : Table (Resolution α)) : ((values t).map Prod.fst).Nodup := by
  refine t.nodup_keys.sublist (map_filterMap_sublist (fun e v hv => ?_) t.entries)
  obtain ⟨x,-,rfl⟩ := Option.map_eq_some_iff.mp hv
  rfl

/-- The table of a resolution that has come through some names: these have values with a property,
and all other names are pending. -/
structure Settled (names : List String) (Holds : String → α → Prop) (done : List String)
    (t : Table (Resolution α)) : Prop where
  values : ∀ n ∈ done, ∃ v, t.get? n = some (.value v) ∧ Holds n v
  pending : ∀ n ∈ names, n ∉ done → t.get? n = some .pending
  outside : ∀ n, n ∉ names → t.get? n = none

structure Ready (names : List String) (next : String → List String) (Holds : String → α → Prop)
    (t : Table (Resolution α)) (n : String) : Prop where
  uses : ∀ k ∈ next n, k ∈ names → ∃ v, t.get? k = some (.value v) ∧ Holds k v
  outside : ∀ k, k ∉ names → t.get? k = none

variable {names : List String} {next : String → List String} {Holds : String → α → Prop}
  {build : Table (Resolution α) → String → Attempt α}

theorem reports_settle (p : Progress α) (n : String) :
    p.reports <+: (settle build p n).reports := by
  unfold settle
  split
  · exact List.prefix_append _ _
  · exact List.prefix_rfl

theorem reports_foldl_settle (p : Progress α) (ns : List String) :
    p.reports <+: (ns.foldl (settle build) p).reports := by
  induction ns generalizing p with
  | nil => exact List.prefix_rfl
  | cons n ns ih => exact (reports_settle p n).trans (ih _)

theorem Settled.ready {done : List String} {t : Table (Resolution α)}
    (h : Settled names Holds done t) {n : String} (hn : ∀ k ∈ next n, k ∈ names → k ∈ done) :
    Ready names next Holds t n :=
  ⟨fun k hk hm => h.values k (hn k hk hm),h.outside⟩

theorem Settled.settle {done : List String} {p : Progress α} (h : Settled names Holds done p.table)
    {n : String} (hn : n ∈ names)
    (hb : n ∉ done → ∃ v, (build p.table n).value? = some v ∧ Holds n v) :
    Settled names Holds (done ++ [n]) (settle build p n).table := by
  by_cases hd : n ∈ done
  · obtain ⟨v,hv,-⟩ := h.values n hd
    have hs : Resolution.settle build p n = p := by simp [Resolution.settle,hv]
    rw [hs]
    refine ⟨fun k hk => ?_,fun k hk hnot => ?_,h.outside⟩
    · rcases List.mem_append.mp hk with hk | hk
      · exact h.values k hk
      · exact List.mem_singleton.mp hk ▸ h.values n hd
    · exact h.pending k hk fun hm => hnot (List.mem_append_left _ hm)
  · obtain ⟨v,hv,hholds⟩ := hb hd
    have hs : (Resolution.settle build p n).table = p.table.insert n (.value v) := by
      simp [Resolution.settle,h.pending n hn hd,hv,ofOption]
    rw [hs]
    refine ⟨fun k hk => ?_,fun k hk hnot => ?_,fun k hk => ?_⟩
    · rcases List.mem_append.mp hk with hk | hk
      · have hne : k ≠ n := fun he => hd (he ▸ hk)
        rw [Table.get?_insert_of_ne _ _ hne]
        exact h.values k hk
      · rw [List.mem_singleton.mp hk]
        exact ⟨v,Table.get?_insert_self _ _ _,hholds⟩
    · have hne : k ≠ n := fun he => hnot (by simp [he])
      rw [Table.get?_insert_of_ne _ _ hne]
      exact h.pending k hk fun hm => hnot (List.mem_append_left _ hm)
    · have hne : k ≠ n := fun he => hk (he ▸ hn)
      rw [Table.get?_insert_of_ne _ _ hne]
      exact h.outside k hk

def Follows (names : List String) (next : String → List String) (done rest : List String) : Prop :=
  ∀ l n, l ++ [n] <+: done ++ rest → ∀ k ∈ next n, k ∈ names → k ∈ l

theorem Follows.head {done rest : List String} {n : String}
    (h : Follows names next done (n :: rest)) : ∀ k ∈ next n, k ∈ names → k ∈ done :=
  h done n ⟨rest,by simp⟩

theorem Follows.tail {done rest : List String} {n : String}
    (h : Follows names next done (n :: rest)) : Follows names next (done ++ [n]) rest := by
  simpa [Follows] using h

theorem settled_foldl
    (hb : ∀ n ∈ names, ∀ t, Ready names next Holds t n → (build t n).reports = [] →
      ∃ v, (build t n).value? = some v ∧ Holds n v)
    {done rest : List String} (hr : rest ⊆ names) (hf : Follows names next done rest)
    {p : Progress α} (h : Settled names Holds done p.table)
    (hc : (rest.foldl (settle build) p).reports = []) :
    Settled names Holds (done ++ rest) (rest.foldl (settle build) p).table := by
  induction rest generalizing done p with
  | nil => simpa using h
  | cons n rest ih =>
    obtain ⟨hn,hrest⟩ := List.cons_subset.mp hr
    have hstep : (settle build p n).reports = [] :=
      List.prefix_nil.mp (hc ▸ reports_foldl_settle (settle build p n) rest)
    have hbuild : n ∉ done → ∃ v, (build p.table n).value? = some v ∧ Holds n v := by
      intro hd
      refine hb n hn p.table (h.ready hf.head) ?_
      simp only [settle,h.pending n hn hd,List.append_eq_nil_iff] at hstep
      exact hstep.2
    have := ih hrest hf.tail (h.settle hn hbuild) hc
    rwa [List.append_assoc] at this

theorem clean_foldl
    (hb : ∀ n ∈ names, ∀ t, Ready names next Holds t n →
      ∃ v, build t n = .success v ∧ Holds n v)
    {done rest : List String} (hr : rest ⊆ names) (hf : Follows names next done rest)
    {p : Progress α} (h : Settled names Holds done p.table) (hc : p.reports = []) :
    (rest.foldl (settle build) p).reports = [] := by
  induction rest generalizing done p with
  | nil => exact hc
  | cons n rest ih =>
    obtain ⟨hn,hrest⟩ := List.cons_subset.mp hr
    obtain ⟨v,hv,hholds⟩ := hb n hn p.table (h.ready hf.head)
    refine ih hrest hf.tail (h.settle hn fun _ => ⟨v,by rw [hv]; rfl,hholds⟩) ?_
    unfold settle
    split
    · rw [hv]
      exact List.append_eq_nil_iff.mpr ⟨hc,rfl⟩
    · exact hc

def edges (names : List String) (next : String → List String) (n : String) : List String :=
  (next n).filter (· ∈ names)

theorem mem_edges {n k : String} : k ∈ edges names next n ↔ k ∈ next n ∧ k ∈ names := by
  simp [edges]

theorem edges_subset (names : List String) (next : String → List String) :
    ∀ n ∈ names, edges names next n ⊆ names := fun _ _ _ hk => (mem_edges.mp hk).2

theorem visits_order (names : List String) (next : String → List String) :
    Walk.Visits (edges names next) [] names .empty (order names next) :=
  Walk.visits_visitAll (edges_subset names next) (List.Subset.refl names) (by omega)

theorem mem_finished_order (n : String) : n ∈ (order names next).finished ↔ n ∈ names := by
  have hs := (visits_order names next).searched (Walk.closed_empty [])
  refine ⟨fun hn => ?_,fun hn => (hs.reached n hn).resolve_right (by simp)⟩
  rcases hs.sound n hn with hn | ⟨m,hm,hl⟩
  · simp [Walk.empty] at hn
  · exact Walk.mem_of_leads (edges_subset names next) hm hl

section Descending
variable {rank : String → Nat}
  (hr : ∀ n ∈ names, ∀ k ∈ next n, k ∈ names → rank k < rank n)
include hr

/-- Where dependencies descend, the order of definitions is complete and goes round no circle. -/
theorem order_spec : (order names next).closing = [] ∧
    (∀ n, n ∈ (order names next).finished ↔ n ∈ names) ∧
    Follows names next [] (order names next).finished := by
  have hdown : ∀ n ∈ names, ∀ k ∈ edges names next n, rank k < rank n :=
    fun n hn k hk => hr n hn k (mem_edges.mp hk).1 (mem_edges.mp hk).2
  have ha := Walk.Visits.acyclic (edges_subset names next) hdown (visits_order names next)
    (List.Subset.refl names) (by simp) (Walk.closed_empty []) Walk.acyclic_empty
  exact ⟨ha.closing,mem_finished_order,
    fun l n hp k hk hm => ha.ordered l n hp (mem_edges.mpr ⟨hk,hm⟩)⟩

theorem settleAll_eq (s : Symbol) : settleAll s names next build =
    (order names next).finished.foldl (settle build)
      ⟨.ofList (names.map fun n => (n,.pending)),[]⟩ := by
  simp [settleAll,(order_spec hr).1]

omit hr in
theorem settled_start :
    Settled names Holds [] (.ofList (names.map fun n => (n,.pending))) where
  values := by simp
  pending := fun n hn _ => by rw [Table.get?_ofList_map,if_pos hn]
  outside := fun n hn => by rw [Table.get?_ofList_map,if_neg hn]

/-- If nothing is reported, all names have values, and what building hands on holds of them. -/
theorem settleAll_settled (s : Symbol)
    (hb : ∀ n ∈ names, ∀ t, Ready names next Holds t n → (build t n).reports = [] →
      ∃ v, (build t n).value? = some v ∧ Holds n v)
    (hc : (settleAll s names next build).reports = []) :
    (∀ n ∈ names, ∃ v, (settleAll s names next build).table.get? n = some (.value v) ∧
      Holds n v) ∧
    ∀ n, n ∉ names → (settleAll s names next build).table.get? n = none := by
  obtain ⟨-,hmem,hf⟩ := order_spec hr
  rw [settleAll_eq hr] at hc ⊢
  have h := settled_foldl hb (fun n hn => (hmem n).mp hn) hf settled_start hc
  exact ⟨fun n hn => h.values n ((hmem n).mpr hn),h.outside⟩

/-- If building succeeds wherever all dependencies have values, nothing is reported and all names
have values. -/
theorem settleAll_clean (s : Symbol)
    (hb : ∀ n ∈ names, ∀ t, Ready names next Holds t n →
      ∃ v, build t n = .success v ∧ Holds n v) :
    (settleAll s names next build).reports = [] ∧
    (∀ n ∈ names, ∃ v, (settleAll s names next build).table.get? n = some (.value v) ∧
      Holds n v) ∧
    ∀ n, n ∉ names → (settleAll s names next build).table.get? n = none := by
  have hclean : (settleAll s names next build).reports = [] := by
    obtain ⟨-,hmem,hf⟩ := order_spec hr
    rw [settleAll_eq hr]
    exact clean_foldl hb (fun n hn => (hmem n).mp hn) hf settled_start rfl
  refine ⟨hclean,settleAll_settled hr s (fun n hn t ht _ => ?_) hclean⟩
  obtain ⟨v,hv,hvn⟩ := hb n hn t ht
  exact ⟨v,by rw [hv]; rfl,hvn⟩

/-- If building hands on a property, at least where it reports nothing if that is supposed of the
whole, the property holds of all values. -/
theorem settleAll_yields (s : Symbol) (supposed : Prop)
    (hb : ∀ n ∈ names, ∀ t, Ready names next Holds t n → (build t n).Yields supposed (Holds n))
    (hc : supposed → (settleAll s names next build).reports = []) :
    (settleAll s names next build).reports = [] ∧
    (∀ n ∈ names, ∃ v, (settleAll s names next build).table.get? n = some (.value v) ∧
      Holds n v) ∧
    ∀ n, n ∉ names → (settleAll s names next build).table.get? n = none := by
  by_cases hs : supposed
  · refine ⟨hc hs,settleAll_settled hr s (fun n hn t ht hreports => ?_) (hc hs)⟩
    obtain ⟨v,hv,hvn⟩ := hb n hn t ht fun _ => hreports
    exact ⟨v,by rw [hv]; rfl,hvn⟩
  · exact settleAll_clean hr s fun n hn t ht => hb n hn t ht fun h => absurd h hs

end Descending
end Resolution
end AddressedForms
