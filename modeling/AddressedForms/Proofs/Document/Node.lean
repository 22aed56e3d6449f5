import AddressedForms.Document.Reference
import AddressedForms.Document.Vocabulary
set_option autoImplicit false

/-!
Parts of the nodes that are put together step by step, and what is read off them.
-/

namespace AddressedForms
namespace Node

@[simp] theorem tag_leaf (tag : String) : (leaf tag).tag = tag := rfl

@[simp] theorem children_leaf (tag : String) : (leaf tag).children = [] := rfl

@[simp] theorem tag_withAttr (n : Node) (key value : String) :
    (n.withAttr key value).tag = n.tag := rfl

@[simp] theorem children_withAttr (n : Node) (key value : String) :
    (n.withAttr key value).children = n.children := rfl

@[simp] theorem tag_withChildren (n : Node) (cs : List Node) :
    (n.withChildren cs).tag = n.tag := rfl

@[simp] theorem children_withChildren (n : Node) (cs : List Node) :
    (n.withChildren cs).children = cs := rfl

@[simp] theorem attr?_withChildren (n : Node) (cs : List Node) (key : String) :
    (n.withChildren cs).attr? key = n.attr? key := rfl

@[simp] theorem tag_reference (tag name : String) : (reference tag name).tag = tag := rfl

@[simp] theorem children_reference (tag name : String) : (reference tag name).children = [] := rfl

@[simp] theorem attr?_withAttr_self (n : Node) (key value : String) :
    (n.withAttr key value).attr? key = some value := by simp [attr?_withAttr]

theorem require_of_attr? {n : Node} {key value : String} (h : n.attr? key = some value) :
    n.require key = .success value := by simp [require,h]

theorem shape_of_attr? {α : Type} {family : Family} {table : Table α} {n : Node} {tag : String}
    {x : α} (h : n.attr? "type" = some tag) (ht : table.get? tag = some x) :
    n.shape family table = .success x := by
  simp [shape,require_of_attr? h,Attempt.success_bind,ht]

theorem parsed_of_attr? {α ε : Type} {n : Node} {key raw : String} {read : String → Except ε α}
    {x : α} (h : n.attr? key = some raw) (hr : read raw = .ok x) (message : ε → String) :
    n.parsed key read message = .success x := by
  simp [parsed,require_of_attr? h,Attempt.success_bind,hr]

theorem nthChild_of_getElem? {n c : Node} {tag : String} {i : Nat}
    (h : (n.childrenTagged tag)[i]? = some c) : n.nthChild tag i = .success c := by
  simp [nthChild,h]

theorem references_eq (n : Node) : n.references = n.ownReferences ++ allReferences n.children := by
  cases n; rw [references]

theorem allReferences_eq (ns : List Node) : allReferences ns = ns.flatMap references := by
  induction ns with
  | nil => rfl
  | cons n ns ih => rw [allReferences,ih,List.flatMap_cons]

theorem referencesTagged_eq (target : String) (n : Node) :
    n.referencesTagged target = match n.reference? with
      | some name => if n.tag = target then [name] else allReferencesTagged target n.children
      | none => allReferencesTagged target n.children := by
  cases n; rw [referencesTagged]; rfl

/-- What is referred to in nodes of a tag is referred to in the name space of that tag. -/
theorem mem_references_of_tagged {target : String} {s : Symbol} (hs : Symbol.ofTag? target = some s)
    {name : String} (n : Node) (h : name ∈ n.referencesTagged target) :
    (s,name) ∈ n.references := by
  induction n using Node.rec (motive_2 := fun ns => name ∈ allReferencesTagged target ns →
    (s,name) ∈ allReferences ns) with
  | mk tag attrs children ih =>
    rw [referencesTagged_eq] at h
    rw [references_eq,List.mem_append]
    cases hr : (⟨tag,attrs,children⟩ : Node).reference? with
    | none =>
      rw [hr] at h
      exact .inr (ih h)
    | some ref =>
      rw [hr] at h
      dsimp only at h
      split at h <;> rename_i ht
      · left
        subst ht
        rw [List.mem_singleton.mp h]
        simp [ownReferences,hr,hs]
      · exact .inr (ih h)
  | nil => rename_i h; simp [allReferencesTagged] at h
  | cons n ns ihn ihns =>
    rename_i h
    rw [allReferencesTagged,List.mem_append] at h
    rw [allReferences,List.mem_append]
    exact h.imp ihn ihns

theorem ownReferences_eq_nil {n : Node} (h : n.reference? = none) (ht : n.tag ≠ "Denotator") :
    n.ownReferences = [] := by
  simp only [ownReferences,h,ht,if_false,List.nil_append]
  split <;> rfl

theorem references_reference {tag : String} {s : Symbol} (hs : Symbol.ofTag? tag = some s)
    (name : String) : (reference tag name).references = [(s,name)] := by
  have hform : (reference tag name).attr? "form" = none := by
    simp [reference,attr?_withAttr]
  rw [references_eq,children_reference,allReferences]
  simp [ownReferences,hs,hform]

end Node
end AddressedForms
