import AddressedForms.Proofs.Document.Entries
set_option autoImplicit false

/-!
The names that a document defines. Each node that is added to a manuscript defines the name of its
entry, and nothing inside it defines a name.
-/

namespace AddressedForms

def Symbol.ofDefinition? (tag : String) : Option Symbol :=
  if tag = "Form" ∨ tag = "DefineForm" then some .form
  else if tag = "Denotator" then some .denotator
  else if tag = "DefineModule" then some .module
  else if tag = "DefineModuleElement" then some .element
  else if tag = "DefineModuleMorphism" then some .morphism
  else none

namespace Node

def defined? (n : Node) : Option (Symbol × String) :=
  match n.reference? with
  | some _ => none
  | none => (Symbol.ofDefinition? n.tag).bind fun s => n.name?.map fun name => (s,name)

mutual
def definitions : Node → List (Symbol × String)
  | ⟨tag,attrs,children⟩ => (defined? ⟨tag,attrs,children⟩).toList ++ allDefinitions children
def allDefinitions : List Node → List (Symbol × String)
  | [] => []
  | n :: ns => n.definitions ++ allDefinitions ns
end

theorem definitions_eq (n : Node) :
    n.definitions = n.defined?.toList ++ allDefinitions n.children := by
  cases n; rw [definitions]

theorem allDefinitions_eq (ns : List Node) : allDefinitions ns = ns.flatMap definitions := by
  induction ns with
  | nil => rfl
  | cons n ns ih => rw [allDefinitions,ih,List.flatMap_cons]

theorem allDefinitions_eq_nil {ns : List Node} (h : ∀ n ∈ ns, n.definitions = []) :
    allDefinitions ns = [] := by
  rwa [allDefinitions_eq,List.flatMap_eq_nil_iff]

@[simp] theorem definitions_reference (tag name : String) :
    (reference tag name).definitions = [] := by
  rw [definitions_eq,children_reference,allDefinitions,defined?,reference?_reference]
  rfl

theorem defined?_of_tag {n : Node} (h : Symbol.ofDefinition? n.tag = none) :
    n.defined? = none := by
  unfold defined?
  split
  · rfl
  · rw [h]
    rfl

theorem definitions_of_tag {n : Node} (h : Symbol.ofDefinition? n.tag = none)
    (hc : ∀ c ∈ n.children, c.definitions = []) : n.definitions = [] := by
  rw [definitions_eq,defined?_of_tag h,allDefinitions_eq_nil hc]
  rfl

end Node

/-- Nothing that leaves are written with defines a name. -/
theorem NamedLeaves.Written.definitions {names : NamedLeaves} {n : Node} (h : names.Written n) :
    n.definitions = [] := by
  induction h with
  | name => exact Node.definitions_reference _ _
  | body ht _ _ ih =>
    refine Node.definitions_of_tag ?_ ih
    simp only [List.mem_cons,List.not_mem_nil,or_false] at ht
    rcases ht with ht | ht | ht | ht | ht <;> rw [ht] <;> rfl

def Entry.names (g : FormGraph) : Entry → List (Symbol × String)
  | .form id => (g.name? id).toList.map fun name => (.form,name)
  | .denotator d => d.name.toList.map fun name => (.denotator,name)
  | .module name _ => [(.module,name)]
  | .element name _ => [(.element,name)]
  | .morphism name _ => [(.morphism,name)]

namespace Manuscript
variable {g : FormGraph} {names : NamedLeaves} {n : Node}

/-- A node that defines some names by itself, and none inside it. -/
structure DefinesOnly (n : Node) (rs : List (Symbol × String)) : Prop where
  own : n.defined?.toList = rs
  inner : Node.allDefinitions n.children = []

theorem DefinesOnly.definitions {rs : List (Symbol × String)} (h : DefinesOnly n rs) :
    n.definitions = rs := by
  rw [Node.definitions_eq,h.own,h.inner,List.append_nil]

theorem definesOnly_definition {s : Symbol} {tag name : String} {body : Node}
    (ht : Symbol.ofDefinition? tag = some s) (hb : body.definitions = []) :
    DefinesOnly (definition tag name body) [(s,name)] where
  own := by
    simp [definition,Node.defined?,Node.reference?,Node.name?,Node.attr?_withAttr,ht]
  inner := Node.allDefinitions_eq_nil (by simp [definition,hb])

theorem definesOnly_formNode {f : Form} (h : formNode g names f = .ok n) :
    DefinesOnly n [(.form,f.name)] := by
  obtain ⟨parts,ks,rfl,-,hparts⟩ := formNode_eq_ok h
  refine ⟨?_,Node.allDefinitions_eq_nil fun c hc => ?_⟩
  · simp [Node.defined?,Node.reference?,Node.name?,Node.attr?_withAttr,Symbol.ofDefinition?]
  · rcases List.mem_append.mp hc with hc | hc
    · rcases hparts with ⟨m,-,-,-,rfl⟩ | ⟨-,-,rfl⟩
      · rw [List.mem_singleton.mp hc]
        exact (Module.written_node (Module.written_body names m)).definitions
      · obtain ⟨k,-,rfl⟩ := List.mem_map.mp hc
        exact Node.definitions_reference _ _
    · unfold labelsNodes at hc
      split at hc
      · rw [List.mem_singleton.mp hc]
        refine Node.definitions_of_tag rfl fun c hc => ?_
        obtain ⟨k,-,rfl⟩ := List.mem_map.mp hc
        exact Node.definitions_of_tag rfl (by simp [labelNode])
      · simp at hc

theorem definesOnly_nodeOf {d : Denotator} (h : nodeOf g names d = .ok n) :
    DefinesOnly n (d.name.toList.map fun name => (.denotator,name)) := by
  induction d using Denotator.factor_induction generalizing n with
  | h d ih =>
    obtain ⟨form,cs,-,hcs,rfl⟩ := nodeOf_eq_ok h
    refine ⟨?_,Node.allDefinitions_eq_nil fun c hc => ?_⟩
    · have href : ((headed d form).withChildren (leafNodes names d ++ cs)).reference? = none :=
        reference?_headed d form
      have hname : ((headed d form).withChildren (leafNodes names d ++ cs)).name? = d.name :=
        name?_headed d form
      rw [Node.defined?,href,hname,Node.tag_withChildren,tag_headed]
      cases d.name <;> rfl
    · rcases List.mem_append.mp hc with hc | hc
      · exact (written_leafNodes hc).definitions
      · obtain ⟨f,hf,hfc⟩ := exists_of_forall₂_right hcs hc
        unfold IsFactorNode at hfc
        split at hfc <;> rename_i hname
        · rw [hfc,Node.definitions_reference]
        · rw [(ih f hf hfc).definitions,hname]
          rfl

theorem Step.definesOnly {m k : Manuscript} {e : Entry} (h : Step m e k) :
    ∃ n, k.nodes = m.nodes ++ [n] ∧ DefinesOnly n (e.names m.forms) := by
  cases h with
  | form hf hnew hn =>
    refine ⟨_,rfl,?_⟩
    rw [Entry.names,FormGraph.name?_of_get? hf]
    exact definesOnly_formNode hn
  | named hname hnew hn hr | anonymous hname hn hr => exact ⟨_,rfl,definesOnly_nodeOf hn⟩
  | module hnew => exact ⟨_,rfl,definesOnly_definition rfl (Module.written_body _ _).definitions⟩
  | element hnew => exact ⟨_,rfl,definesOnly_definition rfl (Element.written_body _ _).definitions⟩
  | morphism hnew => exact ⟨_,rfl,definesOnly_definition rfl (Morphism.written_body _ _).definitions⟩

theorem Step.means_iff {m k : Manuscript} {e : Entry} (h : Step m e k) (r : Symbol × String) :
    k.Means r ↔ m.Means r ∨ r ∈ e.names m.forms := by
  have hinsert {α : Type} (t : Table α) (j : String) (v : α) (name : String) :
      (t.insert j v).contains name ↔ t.contains name ∨ name = j := by
    by_cases hj : name = j <;> simp [Table.contains,Table.get?_insert,hj]
  obtain ⟨s,name⟩ := r
  cases h with
  | form hf hnew hn =>
    rw [Entry.names,FormGraph.name?_of_get? hf]
    cases s <;> simp [Means,push,hinsert]
  | named hname hnew hn hr =>
    rw [Entry.names,hname]
    cases s <;> simp [Means,push,hinsert]
  | anonymous hname hn hr =>
    rw [Entry.names,hname]
    cases s <;> simp [Means,push]
  | module | element | morphism =>
    cases s <;> simp [Means,push,Entry.names,NamedLeaves.Has,or_comm]

theorem Step.not_means {es : List Entry} {m k : Manuscript} {e : Entry} (hm : Compiled g es m)
    (h : Step m e k) {r : Symbol × String} (hr : r ∈ e.names m.forms) : ¬ m.Means r := by
  cases h with
  | form hf hnew hn =>
    rw [Entry.names,FormGraph.name?_of_get? hf] at hr
    rw [List.mem_singleton.mp hr]
    simp [Means,Table.contains,hnew]
  | named hname hnew hn hready =>
    rw [Entry.names,hname] at hr
    rw [List.mem_singleton.mp hr]
    simp [Means,Table.contains,hnew]
  | anonymous hname hn hready =>
    rw [Entry.names,hname] at hr
    simp at hr
  | module hnew | element hnew | morphism hnew =>
    rw [List.mem_singleton.mp hr]
    exact fun hmeans => hnew ((hm.defined_iff _).mpr hmeans)

/-- Run lemma: the nodes of a manuscript define the names that mean something, each once and none
inside a node. -/
theorem Compiled.definedNames {es : List Entry} {m : Manuscript} (h : Compiled g es m) :
    (Node.allDefinitions m.nodes).Nodup ∧
    (∀ r, r ∈ Node.allDefinitions m.nodes ↔ m.Means r) ∧
    ∀ n ∈ m.nodes, n.definitions = n.defined?.toList := by
  induction h with
  | empty =>
    refine ⟨.nil,fun r => ?_,by simp [Manuscript.empty]⟩
    obtain ⟨s,name⟩ := r
    cases s <;> simp [Manuscript.empty,Node.allDefinitions,Means,Table.contains,NamedLeaves.Has,
      NamedLeaves.empty]
  | @snoc es m k e hm hs ih =>
    obtain ⟨hnodup,hmeans,hown⟩ := ih
    obtain ⟨n,hn,honly⟩ := hs.definesOnly
    have hall : Node.allDefinitions k.nodes = Node.allDefinitions m.nodes ++ e.names m.forms := by
      rw [Node.allDefinitions_eq,hn,List.flatMap_append,← Node.allDefinitions_eq,
        List.flatMap_singleton,honly.definitions]
    refine ⟨?_,fun r => ?_,fun c hc => ?_⟩
    · rw [hall]
      refine List.nodup_append.mpr ⟨hnodup,?_,fun a ha b hb he => ?_⟩
      · rw [← honly.own]
        cases n.defined? <;> simp
      · exact hs.not_means hm hb ((hmeans b).mp (he ▸ ha))
    · rw [hall,List.mem_append,hmeans,hs.means_iff]
    · rw [hn] at hc
      rcases List.mem_append.mp hc with hc | hc
      · exact hown c hc
      · rw [List.mem_singleton.mp hc,honly.definitions,honly.own]

theorem Compiled.exists_defined {es : List Entry} {m : Manuscript} (h : Compiled g es m)
    {r : Symbol × String} (hr : m.Means r) : ∃ n ∈ m.nodes, n.defined? = some r := by
  obtain ⟨-,hmeans,hown⟩ := h.definedNames
  have hmem := (hmeans r).mpr hr
  rw [Node.allDefinitions_eq] at hmem
  obtain ⟨n,hn,hr⟩ := List.mem_flatMap.mp hmem
  rw [hown n hn] at hr
  exact ⟨n,hn,by simpa using hr⟩

end Manuscript
end AddressedForms
