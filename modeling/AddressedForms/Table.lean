import AddressedForms.Name
set_option autoImplicit false

/-!
Name tables: finite maps from names to values, listed in increasing order of names.
`get?_insert` is the law by which every look-up after an insertion is computed.
-/

namespace AddressedForms

structure Table (α : Type) where
  entries : List (String × α)
  sorted : entries.Pairwise (fun a b => Name.compare a.1 b.1 = .lt)

namespace Table
variable {α β : Type}

def empty : Table α := ⟨[], .nil⟩

instance : EmptyCollection (Table α) := ⟨empty⟩
instance : Inhabited (Table α) := ⟨empty⟩

/-- An entry of the same name is overwritten in place. -/
def insertEntry (k : String) (v : α) : List (String × α) → List (String × α)
  | [] => [(k,v)]
  | e :: es => match Name.compare k e.1 with
    | .lt => (k,v) :: e :: es
    | .eq => (k,v) :: es
    | .gt => e :: insertEntry k v es

theorem mem_insertEntry {k : String} {v : α} {es : List (String × α)} {e : String × α}
    (h : e ∈ insertEntry k v es) : e = (k,v) ∨ e ∈ es := by
  induction es with
  | nil => simpa [insertEntry] using h
  | cons d ds ih => grind [insertEntry]

theorem insertEntry_sorted (k : String) (v : α) (es : List (String × α))
    (h : es.Pairwise (fun a b => Name.compare a.1 b.1 = .lt)) :
    (insertEntry k v es).Pairwise (fun a b => Name.compare a.1 b.1 = .lt) := by
  induction es with
  | nil => simp [insertEntry]
  | cons e es ih =>
    obtain ⟨he,hes⟩ := List.pairwise_cons.mp h
    cases hk : Name.compare k e.1 with
    | lt =>
      simp only [insertEntry,hk]
      refine List.pairwise_cons.mpr ⟨?_,h⟩
      intro d hd
      rcases List.mem_cons.mp hd with rfl | hd
      · exact hk
      · exact Name.compare_lt_trans hk (he d hd)
    | eq =>
      simp only [insertEntry,hk]
      exact List.pairwise_cons.mpr ⟨(Name.compare_eq_iff _ _).mp hk ▸ he,hes⟩
    | gt =>
      simp only [insertEntry,hk]
      refine List.pairwise_cons.mpr ⟨?_,ih hes⟩
      intro d hd
      rcases mem_insertEntry hd with rfl | hd
      · exact (Name.compare_gt_iff _ _).mp hk
      · exact he d hd

def insert (t : Table α) (k : String) (v : α) : Table α :=
  ⟨insertEntry k v t.entries, insertEntry_sorted k v t.entries t.sorted⟩

def get? (t : Table α) (k : String) : Option α := t.entries.lookup k

def contains (t : Table α) (k : String) : Bool := (t.get? k).isSome

def keys (t : Table α) : List String := t.entries.map Prod.fst

def size (t : Table α) : Nat := t.entries.length

def isEmpty (t : Table α) : Bool := t.entries.isEmpty

def filter (t : Table α) (p : String → α → Bool) : Table α :=
  ⟨t.entries.filter (fun e => p e.1 e.2), t.sorted.filter _⟩

/-- Of two entries with one name the later one counts. -/
def ofList (es : List (String × α)) : Table α := es.foldl (fun t e => t.insert e.1 e.2) empty

@[simp] theorem get?_empty (k : String) : (empty : Table α).get? k = none := rfl

theorem lookup_insertEntry (k j : String) (v : α) (es : List (String × α)) :
    (insertEntry k v es).lookup j = if j = k then some v else es.lookup j := by
  induction es with
  | nil => grind [insertEntry]
  | cons e es ih =>
    have := Name.compare_eq_iff k e.1
    grind [insertEntry]

theorem get?_insert (t : Table α) (k j : String) (v : α) :
    (t.insert k v).get? j = if j = k then some v else t.get? j :=
  lookup_insertEntry k j v t.entries

@[simp] theorem get?_insert_self (t : Table α) (k : String) (v : α) :
    (t.insert k v).get? k = some v := by simp [get?_insert]

theorem get?_insert_of_ne (t : Table α) {k j : String} (v : α) (h : j ≠ k) :
    (t.insert k v).get? j = t.get? j := by simp [get?_insert,h]

end Table
end AddressedForms
