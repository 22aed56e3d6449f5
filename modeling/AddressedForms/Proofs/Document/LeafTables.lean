import AddressedForms.Document.LeafResolution
import AddressedForms.Proofs.Document.LeafNodes
import AddressedForms.Proofs.Document.Manuscript
set_option autoImplicit false

/-!
Tables of the leaf definitions of a document. A definition uses earlier ones alone, so none refers
to itself, through whatever others.
-/

namespace AddressedForms

/-- Definitions with a rank that descends from each one to what it uses. -/
def Layered (uses : String → List String) : Prop :=
  ∃ rank : String → Nat, ∀ name, ∀ k ∈ uses name, rank k < rank name

theorem layered_empty {uses : String → List String} (h : ∀ name, uses name = []) : Layered uses :=
  ⟨fun _ => 0,fun name k hk => by simp [h] at hk⟩

theorem Layered.subset {uses uses' : String → List String} (h : Layered uses)
    (hs : ∀ name, uses' name ⊆ uses name) : Layered uses' := by
  obtain ⟨rank,hr⟩ := h
  exact ⟨rank,fun name k hk => hr name k (hs name hk)⟩

theorem Layered.update {uses uses' : String → List String} (h : Layered uses) {name : String}
    (hold : ∀ n, n ≠ name → uses' n = uses n) (hfresh : ∀ n, name ∉ uses' n) : Layered uses' := by
  obtain ⟨rank,hr⟩ := h
  have bound (ks : List String) : ∃ b, ∀ k ∈ ks, rank k < b := by
    induction ks with
    | nil => exact ⟨0,by simp⟩
    | cons k ks ih =>
      obtain ⟨b,hb⟩ := ih
      refine ⟨max b (rank k+1),fun j hj => ?_⟩
      rcases List.mem_cons.mp hj with rfl | hj
      · omega
      · have := hb j hj; omega
  obtain ⟨b,hb⟩ := bound (uses' name)
  refine ⟨fun n => if n = name then b else rank n,fun n k hk => ?_⟩
  have hkn : k ≠ name := fun he => hfresh n (he ▸ hk)
  by_cases hn : n = name
  · subst hn
    simpa [hkn] using hb k hk
  · simpa [hn,hkn] using hr n k (hold n hn ▸ hk)

namespace NamedLeaves

structure Within (a b : NamedLeaves) : Prop where
  modules : a.modules ⊆ b.modules
  elements : a.elements ⊆ b.elements
  morphisms : a.morphisms ⊆ b.morphisms

theorem Within.refl (a : NamedLeaves) : a.Within a :=
  ⟨List.Subset.refl _,List.Subset.refl _,List.Subset.refl _⟩

theorem Within.trans {a b c : NamedLeaves} (h : a.Within b) (k : b.Within c) : a.Within c :=
  ⟨List.Subset.trans h.modules k.modules,List.Subset.trans h.elements k.elements,
    List.Subset.trans h.morphisms k.morphisms⟩

theorem Has.mono {a b : NamedLeaves} (h : a.Within b) {r : Symbol × String} (hr : a.Has r) :
    b.Has r := by
  obtain ⟨s,name⟩ := r
  cases s with
  | module => exact List.map_subset _ h.modules hr
  | element => exact List.map_subset _ h.elements hr
  | morphism => exact List.map_subset _ h.morphisms hr
  | form | denotator => exact hr

end NamedLeaves

theorem LeafMeanings.Knows.mono {l : LeafMeanings} {a b : NamedLeaves} (h : l.Knows b)
    (hw : a.Within b) : l.Knows a where
  modules := fun x name hx => h.modules x name (hw.modules hx)
  elements := fun x name hx => h.elements x name (hw.elements hx)
  morphisms := fun x name hx => h.morphisms x name (hw.morphisms hx)

namespace Manuscript

theorem Precedes.within {m k : Manuscript} (h : m.Precedes k) : m.names.Within k.names :=
  ⟨h.modules,h.elements,h.morphisms⟩

/-- The table of the leaves of one family: under each name the node of its value, with names that
were given before. -/
structure LeafTable {α : Type} (tag : String) (body : NamedLeaves → α → Node)
    (names : NamedLeaves) (named : List (α × String)) (t : Table Node) : Prop where
  nodes : ∀ x name, (x,name) ∈ named → ∃ before : NamedLeaves, before.Within names ∧
    t.get? name = some (body before x)
  keys : ∀ name, t.contains name ↔ name ∈ named.map Prod.snd
  nodup : (named.map Prod.snd).Nodup
  uses : ∀ name, ∀ k ∈ Leaves.uses tag t name, k ∈ named.map Prod.snd
  layered : Layered (Leaves.uses tag t)

section LeafTables
variable {α : Type} {tag : String} {body : NamedLeaves → α → Node} {names names' : NamedLeaves}
  {named : List (α × String)} {t : Table Node}

theorem leafTable_empty : LeafTable tag body names [] .empty where
  nodes := by simp
  keys := by simp [Table.contains]
  nodup := .nil
  uses := by simp [Leaves.uses]
  layered := layered_empty fun _ => by simp [Leaves.uses]

theorem LeafTable.mono (h : LeafTable tag body names named t) (hw : names.Within names') :
    LeafTable tag body names' named t := by
  refine ⟨fun x name hx => ?_,h.keys,h.nodup,h.uses,h.layered⟩
  obtain ⟨before,hb,hn⟩ := h.nodes x name hx
  exact ⟨before,hb.trans hw,hn⟩

theorem LeafTable.insert (h : LeafTable tag body names named t) (hw : names.Within names') {x : α}
    {name : String} (hnew : name ∉ named.map Prod.snd)
    (hu : ∀ k ∈ (body names x).referencesTagged tag, k ∈ named.map Prod.snd) :
    LeafTable tag body names' ((x,name) :: named) (t.insert name (body names x)) := by
  have huses (n : String) : Leaves.uses tag (t.insert name (body names x)) n =
      if n = name then (body names x).referencesTagged tag else Leaves.uses tag t n := by
    by_cases hn : n = name <;> simp [Leaves.uses,Table.get?_insert,hn]
  have hmem (n : String) : ∀ k ∈ Leaves.uses tag (t.insert name (body names x)) n,
      k ∈ named.map Prod.snd := by
    intro k hk
    rw [huses] at hk
    split at hk
    · exact hu k hk
    · exact h.uses n k hk
  refine ⟨fun y k hy => ?_,fun k => ?_,List.nodup_cons.mpr ⟨hnew,h.nodup⟩,
    fun n k hk => List.mem_cons_of_mem _ (hmem n k hk),?_⟩
  · rcases List.mem_cons.mp hy with he | hy
    · cases he
      exact ⟨names,hw,Table.get?_insert_self _ _ _⟩
    · obtain ⟨before,hb,hn⟩ := h.nodes y k hy
      have hne : k ≠ name := fun he => hnew (he ▸ List.mem_map_of_mem (f := Prod.snd) hy)
      exact ⟨before,hb.trans hw,by rw [Table.get?_insert_of_ne _ _ hne,hn]⟩
  · rw [Table.contains,Table.get?_insert,List.map_cons,List.mem_cons]
    split <;> rename_i hk
    · simp [hk]
    · rw [← Table.contains,h.keys]
      simp [hk]
  · refine h.layered.update (fun n hn => ?_) fun n hk => hnew (hmem n _ hk)
    rw [huses,if_neg hn]

end LeafTables

theorem addLeaf_definition {s : Symbol} {tag family name : String} {body : Node} {t : Table Node}
    (htag : body.tag = family) (hnew : ¬ t.contains name) :
    Definitions.addLeaf s family (definition tag name body) t = (t.insert name body,[]) := by
  have hattr : (definition tag name body).attr? "name" = some name := by simp [definition]
  have hchild : (definition tag name body).child? family = some body := by
    simp [definition,Node.child?,htag]
  have hleaf : Definitions.leafOf family (definition tag name body) = .success (name,body) := by
    simp [Definitions.leafOf,Node.require_of_attr? hattr,Attempt.success_bind,hchild]
  simp [Definitions.addLeaf,hleaf,Attempt.success,hnew]

end Manuscript
end AddressedForms
