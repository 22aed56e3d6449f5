import AddressedForms.Proofs.Denotator.Order
set_option autoImplicit false

/-!
The order of denotators is transitive. So a set of denotators is strictly increasing, whatever list
it is made of, and it depends on the members of the list alone.
-/

namespace AddressedForms

theorem then_lt_trans {α : Type} {c : α → α → Ordering} (he : ∀ a b, c a b = .eq ↔ a = b)
    {x y z : α} (ht : c x y = .lt → c y z = .lt → c x z = .lt) {p q r : Ordering}
    (hs : p = .lt → q = .lt → r = .lt) (h : (c x y).then p = .lt) (k : (c y z).then q = .lt) :
    (c x z).then r = .lt := by
  rw [Ordering.then_eq_lt] at h k ⊢
  rcases h with h | ⟨h,hp⟩ <;> rcases k with k | ⟨k,hq⟩
  · exact .inl (ht h k)
  · exact .inl ((he y z).mp k ▸ h)
  · exact .inl ((he x y).mp h ▸ k)
  · obtain rfl := (he x y).mp h
    exact .inr ⟨k,hs hp hq⟩

/-- A comparison that looks at ranks first is transitive if it is so between equal ranks. -/
theorem lt_trans_of_rank {α : Type} {c : α → α → Ordering} {rank : α → Nat}
    (hr : ∀ a b, rank a ≠ rank b → c a b = compare (rank a) (rank b)) {x y z : α}
    (hs : rank x = rank y → rank y = rank z → c x z = .lt) (h : c x y = .lt) (k : c y z = .lt) :
    c x z = .lt := by
  have hle (a b : α) (hab : c a b = .lt) : rank a ≤ rank b := by
    by_cases he : rank a = rank b
    · exact he.le
    · rw [hr a b he,Nat.compare_eq_lt] at hab
      exact hab.le
  have hxy := hle x y h
  have hyz := hle y z k
  by_cases he : rank x = rank z
  · exact hs (by omega) (by omega)
  · rw [hr x z he,Nat.compare_eq_lt]
    omega

theorem compare_lt_trans {α : Type} [Ord α] [Std.TransOrd α] {a b c : α} (h : compare a b = .lt)
    (k : compare b c = .lt) : compare a c = .lt := Std.TransCmp.lt_trans h k

theorem Fraction.compare_lt_trans {a b c : Fraction} (h : compare a b = .lt)
    (k : compare b c = .lt) : compare a c = .lt := by
  have hlt (a b : Fraction) : compare a b = .lt ↔ a.val < b.val := compareOfLessAndEq_eq_lt
  rw [hlt] at h k ⊢
  exact lt_trans h k

theorem Binary64.compare_lt_trans {a b c : Binary64} (h : compare a b = .lt)
    (k : compare b c = .lt) : compare a c = .lt :=
  AddressedForms.compare_lt_trans (a := a.rank) h k

namespace Module
variable {x y w : Module}

theorem compare_of_rank_ne (x y : Module) (h : x.rank ≠ y.rank) :
    x.compare y = compare x.rank y.rank := by
  cases x <;> cases y <;> first | rfl | exact absurd rfl h

theorem compare_lt_trans (h : x.compare y = .lt) (k : y.compare w = .lt) :
    x.compare w = .lt := by
  induction x using Module.rec (motive_2 := fun xs => ∀ ys ws, compareAll xs ys = .lt →
    compareAll ys ws = .lt → compareAll xs ws = .lt) generalizing y w with
  | nil => rename_i ys ws h k; cases ys <;> cases ws <;> simp_all [compareAll]
  | cons x xs ihx ihxs =>
    rename_i ys ws h k
    cases ys with
    | nil => simp [compareAll] at h
    | cons y ys =>
      cases ws with
      | nil => simp [compareAll] at k
      | cons w ws => exact then_lt_trans compare_eq_iff ihx (ihxs ys ws) h k
  | zn n =>
    refine lt_trans_of_rank compare_of_rank_ne (fun hxy hyw => ?_) h k
    cases y <;> cases hxy
    cases w <;> cases hyw
    exact AddressedForms.compare_lt_trans h k
  | product xs ih =>
    refine lt_trans_of_rank compare_of_rank_ne (fun hxy hyw => ?_) h k
    cases y <;> cases hxy
    cases w <;> cases hyw
    exact ih _ _ h k
  | _ =>
    refine lt_trans_of_rank compare_of_rank_ne (fun hxy hyw => ?_) h k
    cases y <;> cases hxy
    cases h

end Module

namespace Element
variable {x y w : Element}

theorem compare_of_rank_ne (x y : Element) (h : x.rank ≠ y.rank) :
    x.compare y = compare x.rank y.rank := by
  cases x <;> cases y <;> first | rfl | exact absurd rfl h

theorem compare_lt_trans (h : x.compare y = .lt) (k : y.compare w = .lt) :
    x.compare w = .lt := by
  induction x using Element.rec (motive_2 := fun xs => ∀ ys ws, compareAll xs ys = .lt →
    compareAll ys ws = .lt → compareAll xs ws = .lt) generalizing y w with
  | nil => rename_i ys ws h k; cases ys <;> cases ws <;> simp_all [compareAll]
  | cons x xs ihx ihxs =>
    rename_i ys ws h k
    cases ys with
    | nil => simp [compareAll] at h
    | cons y ys =>
      cases ws with
      | nil => simp [compareAll] at k
      | cons w ws => exact then_lt_trans compare_eq_iff ihx (ihxs ys ws) h k
  | null =>
    refine lt_trans_of_rank compare_of_rank_ne (fun hxy hyw => ?_) h k
    cases y <;> cases hxy
    cases h
  | z a =>
    refine lt_trans_of_rank compare_of_rank_ne (fun hxy hyw => ?_) h k
    cases y <;> cases hxy
    cases w <;> cases hyw
    exact AddressedForms.compare_lt_trans h k
  | zn a m =>
    have hword (m n : UInt64) : compare m n = .eq ↔ m = n := by simp
    refine lt_trans_of_rank compare_of_rank_ne (fun hxy hyw => ?_) h k
    cases y <;> cases hxy
    cases w <;> cases hyw
    exact then_lt_trans hword AddressedForms.compare_lt_trans AddressedForms.compare_lt_trans h k
  | q a =>
    refine lt_trans_of_rank compare_of_rank_ne (fun hxy hyw => ?_) h k
    cases y <;> cases hxy
    cases w <;> cases hyw
    exact Fraction.compare_lt_trans h k
  | r a =>
    refine lt_trans_of_rank compare_of_rank_ne (fun hxy hyw => ?_) h k
    cases y <;> cases hxy
    cases w <;> cases hyw
    exact Binary64.compare_lt_trans h k
  | product xs ih =>
    refine lt_trans_of_rank compare_of_rank_ne (fun hxy hyw => ?_) h k
    cases y <;> cases hxy
    cases w <;> cases hyw
    exact ih _ _ h k

end Element

namespace Morphism
variable {f g h : Morphism}

theorem compare_of_rank_ne (f g : Morphism) (h : f.rank ≠ g.rank) :
    f.compare g = compare f.rank g.rank := by
  cases f <;> cases g <;> first | rfl | exact absurd rfl h

theorem compare_lt_trans (hf : f.compare g = .lt) (hg : g.compare h = .lt) :
    f.compare h = .lt := by
  have hmodule {a b c : Module} (h : compare a b = .lt) (k : compare b c = .lt) :
      compare a c = .lt := Module.compare_lt_trans h k
  have helement {a b c : Element} (h : compare a b = .lt) (k : compare b c = .lt) :
      compare a c = .lt := Element.compare_lt_trans h k
  induction f generalizing g h with
  | constant d x =>
    refine lt_trans_of_rank compare_of_rank_ne (fun hfg hgh => ?_) hf hg
    cases g <;> cases hfg
    cases h <;> cases hgh
    exact then_lt_trans Module.compare_eq_iff hmodule helement hf hg
  | identity m =>
    refine lt_trans_of_rank compare_of_rank_ne (fun hfg hgh => ?_) hf hg
    cases g <;> cases hfg
    cases h <;> cases hgh
    exact hmodule hf hg
  | affine k a b =>
    refine lt_trans_of_rank compare_of_rank_ne (fun hfg hgh => ?_) hf hg
    cases g <;> cases hfg
    cases h <;> cases hgh
    exact then_lt_trans Module.compare_eq_iff hmodule
      (then_lt_trans Element.compare_eq_iff helement helement) hf hg
  | embedding d c =>
    refine lt_trans_of_rank compare_of_rank_ne (fun hfg hgh => ?_) hf hg
    cases g <;> cases hfg
    cases h <;> cases hgh
    exact then_lt_trans Module.compare_eq_iff hmodule hmodule hf hg
  | composition f f' ihf ihf' =>
    refine lt_trans_of_rank compare_of_rank_ne (fun hfg hgh => ?_) hf hg
    cases g <;> cases hfg
    cases h <;> cases hgh
    exact then_lt_trans Morphism.compare_eq_iff ihf ihf' hf hg

end Morphism

theorem Head.compare_lt_trans {h k l : Head} (hk : h.compare k = .lt) (kl : k.compare l = .lt) :
    h.compare l = .lt := by
  have hform {a b c : FormId} (h : a.compare b = .lt) (k : b.compare c = .lt) :
      a.compare c = .lt := AddressedForms.compare_lt_trans (a := a.index) h k
  have hname {a b c : Option String} (h : compareName a b = .lt) (k : compareName b c = .lt) :
      compareName a c = .lt := by
    cases a <;> cases b <;> cases c <;> simp_all [compareName]
    exact Name.compare_lt_trans h k
  exact then_lt_trans FormId.compare_eq_iff hform
    (then_lt_trans compareName_eq_iff hname Module.compare_lt_trans) hk kl

namespace Denotator
variable {x y w : Denotator} {xs ys : List Denotator}

def compareParts : Denotator → Denotator → Ordering
  | .simple _ m, .simple _ n => m.compare n
  | .colimit _ i x, .colimit _ j y => (compare i j).then (x.compare y)
  | .limit _ xs, .limit _ ys | .power _ xs, .power _ ys | .list _ xs, .list _ ys =>
    compareAll xs ys
  | x, y => compare x.kind.ordinal y.kind.ordinal

theorem compare_eq_then (x y : Denotator) :
    x.compare y = (x.head.compare y.head).then (x.compareParts y) := by
  cases x <;> cases y <;> rfl

theorem compareParts_of_kind_ne (x y : Denotator) (h : x.kind.ordinal ≠ y.kind.ordinal) :
    x.compareParts y = compare x.kind.ordinal y.kind.ordinal := by
  cases x <;> cases y <;> first | rfl | exact absurd rfl h

theorem compare_lt_trans (h : x.compare y = .lt) (k : y.compare w = .lt) :
    x.compare w = .lt := by
  induction x using Denotator.rec (motive_2 := fun xs => ∀ ys ws, compareAll xs ys = .lt →
    compareAll ys ws = .lt → compareAll xs ws = .lt) generalizing y w with
  | nil => rename_i ys ws h k; cases ys <;> cases ws <;> simp_all [compareAll]
  | cons x xs ihx ihxs =>
    rename_i ys ws h k
    cases ys with
    | nil => simp [compareAll] at h
    | cons y ys =>
      cases ws with
      | nil => simp [compareAll] at k
      | cons w ws => exact then_lt_trans compare_eq_iff ihx (ihxs ys ws) h k
  | simple a m =>
    rw [compare_eq_then] at h k ⊢
    refine then_lt_trans Head.compare_eq_iff Head.compare_lt_trans (fun hp hq => ?_) h k
    refine lt_trans_of_rank compareParts_of_kind_ne (fun hxy hyw => ?_) hp hq
    cases y <;> cases hxy
    cases w <;> cases hyw
    exact Morphism.compare_lt_trans hp hq
  | colimit a i f ih =>
    rw [compare_eq_then] at h k ⊢
    refine then_lt_trans Head.compare_eq_iff Head.compare_lt_trans (fun hp hq => ?_) h k
    refine lt_trans_of_rank compareParts_of_kind_ne (fun hxy hyw => ?_) hp hq
    cases y <;> cases hxy
    cases w <;> cases hyw
    exact then_lt_trans (fun _ _ => Nat.compare_eq_eq) AddressedForms.compare_lt_trans ih hp hq
  | limit a xs ih | power a xs ih | list a xs ih =>
    rw [compare_eq_then] at h k ⊢
    refine then_lt_trans Head.compare_eq_iff Head.compare_lt_trans (fun hp hq => ?_) h k
    refine lt_trans_of_rank compareParts_of_kind_ne (fun hxy hyw => ?_) hp hq
    cases y <;> cases hxy
    cases w <;> cases hyw
    exact ih _ _ hp hq

theorem strictlySorted_insertFactor (x : Denotator) (h : StrictlySorted ys) :
    StrictlySorted (insertFactor x ys) := by
  induction ys with
  | nil => exact List.pairwise_singleton _ x
  | cons y ys ih =>
    obtain ⟨hy,hys⟩ := List.pairwise_cons.mp h
    rw [insertFactor]
    split <;> rename_i hc
    · refine List.pairwise_cons.mpr ⟨fun z hz => ?_,h⟩
      rcases List.mem_cons.mp hz with rfl | hz
      · exact hc
      · exact compare_lt_trans hc (hy z hz)
    · exact h
    · have hyx : y.compare x = .lt := by rw [← compare_swap,hc]; rfl
      refine List.pairwise_cons.mpr ⟨fun z hz => ?_,ih hys⟩
      rcases (mem_insertFactor x z ys).mp hz with rfl | hz
      · exact hyx
      · exact hy z hz

theorem strictlySorted_asSet (xs : List Denotator) : StrictlySorted (asSet xs) := by
  induction xs with
  | nil => exact .nil
  | cons x xs ih => exact strictlySorted_insertFactor x ih

theorem StrictlySorted.eq_of_mem_iff (hx : StrictlySorted xs) (hy : StrictlySorted ys)
    (h : ∀ d, d ∈ xs ↔ d ∈ ys) : xs = ys :=
  eq_of_perm hx hy ((List.perm_ext_iff_of_nodup hx.nodup hy.nodup).mpr h)

end Denotator
end AddressedForms
