import AddressedForms.Table
import Mathlib.Data.List.Forall2
import Mathlib.Data.List.Nodup
import Mathlib.Data.List.Perm.Basic
set_option autoImplicit false

/-!
Which names a table holds, what a table made of a list holds under them, and tables that are related
name by name.
-/

namespace AddressedForms
namespace Table
variable {α β : Type}

theorem mem_of_lookup {k : String} {v : α} {es : List (String × α)} (h : es.lookup k = some v) :
    (k,v) ∈ es := by
  obtain ⟨l,r,rfl,-⟩ := List.lookup_eq_some_iff.mp h
  simp

theorem mem_entries_of_get? {t : Table α} {k : String} {v : α} (h : t.get? k = some v) :
    (k,v) ∈ t.entries := mem_of_lookup h

theorem contains_iff_mem_keys (t : Table α) (k : String) : t.contains k ↔ k ∈ t.keys := by
  simp [contains,get?,keys]

theorem contains_of_get? {t : Table α} {k : String} {v : α} (h : t.get? k = some v) :
    t.contains k := by simp [contains,h]

theorem exists_of_contains {t : Table α} {k : String} (h : t.contains k) :
    ∃ v, t.get? k = some v := Option.isSome_iff_exists.mp h

theorem get?_eq_none_iff (t : Table α) (k : String) : t.get? k = none ↔ k ∉ t.keys := by
  rw [← contains_iff_mem_keys,contains]
  simp

theorem nodup_keys (t : Table α) : t.keys.Nodup := by
  refine List.pairwise_map.mpr (t.sorted.imp fun {a b} h he => ?_)
  rw [he,Name.compare_self] at h
  contradiction

theorem value_unique {es : List (String × α)} (hn : (es.map Prod.fst).Nodup) {k : String} {v w : α}
    (hv : (k,v) ∈ es) (hw : (k,w) ∈ es) : v = w :=
  congrArg Prod.snd (List.inj_on_of_nodup_map hn hv hw rfl)

/-- Later entries count. -/
theorem get?_foldl_insert (es : List (String × α)) (t : Table α) (k : String) :
    (es.foldl (fun t e => t.insert e.1 e.2) t).get? k =
      ((es.reverse.lookup k).or (t.get? k)) := by
  induction es generalizing t with
  | nil => simp
  | cons e es ih =>
    obtain ⟨j,w⟩ := e
    rw [List.foldl_cons,ih,List.reverse_cons,List.lookup_append,get?_insert,Option.or_assoc]
    congr 1
    by_cases hk : k = j
    · simp [hk]
    · simp [hk,List.lookup_cons,beq_false_of_ne hk]

theorem get?_ofList (es : List (String × α)) (k : String) :
    (ofList es).get? k = es.reverse.lookup k := by
  rw [ofList,get?_foldl_insert]
  simp

theorem mem_of_get?_ofList {es : List (String × α)} {k : String} {v : α}
    (h : (ofList es).get? k = some v) : (k,v) ∈ es := by
  rw [get?_ofList] at h
  exact List.mem_reverse.mp (mem_of_lookup h)

theorem contains_ofList (es : List (String × α)) (k : String) :
    (ofList es).contains k ↔ k ∈ es.map Prod.fst := by
  rw [contains,get?_ofList]
  simp

theorem get?_ofList_map (names : List String) (f : String → α) (k : String) :
    (ofList (names.map fun n => (n,f n))).get? k = if k ∈ names then some (f k) else none := by
  split <;> rename_i hk
  · have hc : (ofList (names.map fun n => (n,f n))).contains k := by
      rw [contains_ofList]
      simpa using hk
    obtain ⟨v,hv⟩ := exists_of_contains hc
    have hm := mem_of_get?_ofList hv
    obtain ⟨n,-,he⟩ := List.mem_map.mp hm
    cases he
    exact hv
  · rw [get?_eq_none_iff,← contains_iff_mem_keys,contains_ofList]
    simpa using hk

theorem get?_of_mem_entries {t : Table α} {k : String} {v : α} (h : (k,v) ∈ t.entries) :
    t.get? k = some v := by
  have hc : t.contains k := (contains_iff_mem_keys t k).mpr (List.mem_map_of_mem h)
  obtain ⟨w,hw⟩ := exists_of_contains hc
  rw [hw,value_unique t.nodup_keys h (mem_entries_of_get? hw)]

theorem ext_get? {t u : Table α} (h : ∀ k, t.get? k = u.get? k) : t = u := by
  have hmem (e : String × α) : e ∈ t.entries ↔ e ∈ u.entries :=
    ⟨fun he => mem_entries_of_get? (h e.1 ▸ get?_of_mem_entries he),
      fun he => mem_entries_of_get? (h e.1 ▸ get?_of_mem_entries he)⟩
  have hp : t.entries.Perm u.entries :=
    (List.perm_ext_iff_of_nodup t.nodup_keys.of_map u.nodup_keys.of_map).mpr hmem
  have he : t.entries = u.entries := by
    refine hp.eq_of_pairwise (fun a b _ _ hab hba => ?_) t.sorted u.sorted
    have := Name.compare_lt_trans hab hba
    rw [Name.compare_self] at this
    contradiction
  cases t; cases u; cases he; rfl

/-- Where every name comes once, a table has just the entries that it is made of. -/
theorem get?_ofList_eq_some_iff {es : List (String × α)} (hn : (es.map Prod.fst).Nodup)
    {k : String} {v : α} : (ofList es).get? k = some v ↔ (k,v) ∈ es := by
  refine ⟨mem_of_get?_ofList,fun hv => ?_⟩
  obtain ⟨w,hw⟩ := exists_of_contains ((contains_ofList es k).mpr (List.mem_map_of_mem hv))
  rw [hw,value_unique hn hv (mem_of_get?_ofList hw)]

theorem ofList_entries (t : Table α) : ofList t.entries = t :=
  ext_get? fun _ => Option.ext fun _ => (get?_ofList_eq_some_iff t.nodup_keys).trans
    ⟨get?_of_mem_entries,mem_entries_of_get?⟩

theorem eq_empty_of_isEmpty {t : Table α} (h : t.isEmpty) : t = empty := by
  obtain ⟨es,hs⟩ := t
  obtain rfl : es = [] := List.isEmpty_iff.mp h
  rfl

theorem ofList_eq_of_perm {es fs : List (String × α)} (hn : (es.map Prod.fst).Nodup)
    (h : es.Perm fs) : ofList es = ofList fs := by
  refine ext_get? fun k => Option.ext fun v => ?_
  rw [get?_ofList_eq_some_iff hn,
    get?_ofList_eq_some_iff ((h.map Prod.fst).nodup_iff.mp hn),h.mem_iff]

def Alike (R : α → β → Prop) (t : Table α) (u : Table β) : Prop :=
  List.Forall₂ (fun a b => a.1 = b.1 ∧ R a.2 b.2) t.entries u.entries

section Alike
variable {R : α → β → Prop} {t : Table α} {u : Table β}

theorem Alike.get? (h : t.Alike R u) (k : String) : Option.Rel R (t.get? k) (u.get? k) := by
  unfold Table.get?
  unfold Alike at h
  generalize t.entries = es, u.entries = fs at h
  induction h with
  | nil => exact .none
  | @cons a b as bs hab _ ih =>
    obtain ⟨hk,hr⟩ := hab
    rw [List.lookup_cons,List.lookup_cons,hk]
    split
    · exact .some hr
    · exact ih

theorem Alike.eq {t u : Table α} {R : α → α → Prop} (h : t.Alike R u) (hr : ∀ x y, R x y → x = y) :
    t = u := by
  refine ext_get? fun k => ?_
  have hk := h.get? k
  generalize t.get? k = x, u.get? k = y at hk
  cases hk with
  | none => rfl
  | some hxy => rw [hr _ _ hxy]

theorem Alike.insert (h : t.Alike R u) (k : String) {v : α} {w : β} (hr : R v w) :
    (t.insert k v).Alike R (u.insert k w) := by
  show List.Forall₂ _ (insertEntry k v t.entries) (insertEntry k w u.entries)
  unfold Alike at h
  generalize t.entries = es, u.entries = fs at h
  induction h with
  | nil => exact .cons ⟨rfl,hr⟩ .nil
  | @cons a b as bs hab hf ih =>
    rw [insertEntry,insertEntry,hab.1]
    split
    · exact .cons ⟨rfl,hr⟩ (.cons hab hf)
    · exact .cons ⟨rfl,hr⟩ hf
    · exact .cons hab ih

theorem alike_ofList {es : List (String × α)} {fs : List (String × β)}
    (h : List.Forall₂ (fun a b => a.1 = b.1 ∧ R a.2 b.2) es fs) :
    (ofList es).Alike R (ofList fs) := by
  suffices hall : ∀ (t : Table α) (u : Table β), t.Alike R u →
      (es.foldl (fun t e => t.insert e.1 e.2) t).Alike R
        (fs.foldl (fun t e => t.insert e.1 e.2) u) from hall _ _ .nil
  induction h with
  | nil => exact fun t u htu => htu
  | @cons a b as bs hab _ ih =>
    intro t u htu
    rw [List.foldl_cons,List.foldl_cons,hab.1]
    exact ih _ _ (htu.insert b.1 hab.2)

end Alike
end Table
end AddressedForms
