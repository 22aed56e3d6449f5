import AddressedForms.Document.Assembly
import AddressedForms.Document.LeafResolution
import AddressedForms.Proofs.Document.Assembly
import AddressedForms.Proofs.Document.Node
import Mathlib.Data.List.Forall2
set_option autoImplicit false

/-!
Reading depends on what names mean for the names that occur only. What nodes come to is put together
of the meanings of the names in them, one after the other or side by side; so whatever relates these
meanings, and is kept by putting together, relates what the nodes come to.
-/

namespace AddressedForms

/-- A relation of attempts that is kept when they are put together. -/
structure Attempt.Congruence (R : (α : Type) → Attempt α → Attempt α → Prop) : Prop where
  success {α : Type} (x : α) : R α (.success x) (.success x)
  malformed {α : Type} (tag message : String) :
    R α (.malformed tag message) (.malformed tag message)
  unknown {α : Type} (family : Family) (tag : String) :
    R α (.failure (.unknownTypeTag family tag)) (.failure (.unknownTypeTag family tag))
  bind {α β : Type} {a b : Attempt α} {f g : α → Attempt β} (h : R α a b)
    (hf : ∀ x, a.value? = some x → R β (f x) (g x)) : R β (a >>= f) (b >>= g)
  cons {α : Type} {a b : Attempt α} {as bs : Attempt (List α)} (h : R α a b)
    (hs : R (List α) as bs) : R (List α) (Attempt.cons a as) (Attempt.cons b bs)

theorem Attempt.congruence_eq : Congruence fun _ a b => a = b where
  success _ := rfl
  malformed _ _ := rfl
  unknown _ _ := rfl
  bind := by
    rintro α β a _ f g rfl hf
    obtain ⟨v,es⟩ := a
    cases v with
    | none => rfl
    | some x => simp only [Bind.bind,Attempt.bind,hf x rfl]
  cons := by
    rintro α a _ as _ rfl rfl
    rfl

namespace Node

theorem mem_allReferencesTagged {target k : String} {ns : List Node} :
    k ∈ allReferencesTagged target ns ↔ ∃ n ∈ ns, k ∈ n.referencesTagged target := by
  induction ns with
  | nil => simp [allReferencesTagged]
  | cons n ns ih => simp [allReferencesTagged,ih]

theorem referencesTagged_of_children {target : String} {n : Node}
    (h : n.reference? = none ∨ n.tag ≠ target) :
    n.referencesTagged target = allReferencesTagged target n.children := by
  rw [referencesTagged_eq]
  cases hr : n.reference? with
  | none => rfl
  | some name => exact if_neg (h.resolve_left (by simp [hr]))

theorem referencesTagged_of_reference {target name : String} {n : Node}
    (h : n.reference? = some name) (ht : n.tag = target) : n.referencesTagged target = [name] := by
  rw [referencesTagged_eq,h]
  exact if_pos ht

theorem nthChild_eq_some {n c : Node} {tag : String} {i : Nat}
    (h : (n.nthChild tag i).value? = some c) : c ∈ n.children ∧ c.tag = tag := by
  unfold nthChild at h
  split at h
  · cases h
    exact (List.mem_filter.mp (List.mem_of_getElem? ‹_›)).imp_right of_decide_eq_true
  · cases h

theorem child?_eq_some {n c : Node} {tag : String} (h : n.child? tag = some c) :
    c ∈ n.children ∧ c.tag = tag :=
  ⟨List.mem_of_find?_eq_some h,by simpa using List.find?_some h⟩

end Node

theorem Morphism.ofChildren_eq (s : LeafScope) (parent : String) (position i : Nat)
    (ns : List Node) : ofChildren s parent position i ns =
      match (ns.filter fun c => c.tag = "ModuleMorphism")[i]? with
      | some c => ofNested s c
      | none => .malformed parent ("missing ModuleMorphism child #" ++ toString position) := by
  induction ns generalizing i with
  | nil => simp [ofChildren]
  | cons c cs ih =>
    by_cases ht : c.tag = "ModuleMorphism"
    · cases i with
      | zero => simp [ofChildren_first s parent position ht,ht]
      | succ i =>
        rw [ofChildren,if_pos ht,ih]
        simp [ht]
    · rw [ofChildren.eq_def]
      simp [ht,ih]

mutual
def DenotatorSketch.nodes : DenotatorSketch → List Node
  | .use _ => []
  | .define _ n parts => n :: allNodes parts
  | .inline n parts => n :: allNodes parts
def DenotatorSketch.allNodes : List DenotatorSketch → List Node
  | [] => []
  | s :: ss => s.nodes ++ allNodes ss
end

namespace LeafMeanings
variable {R : (α : Type) → Attempt α → Attempt α → Prop} {l u : LeafMeanings} {ns : List Node}
  {c : Node}

/-- Meanings that are related for the names in some nodes. -/
structure Agree (R : (α : Type) → Attempt α → Attempt α → Prop) (ns : List Node)
    (l u : LeafMeanings) : Prop where
  module : ∀ k ∈ Node.allReferencesTagged "Module" ns, R Module (l.module k) (u.module k)
  element : ∀ k ∈ Node.allReferencesTagged "ModuleElement" ns,
    R Element (l.element k) (u.element k)
  morphism : ∀ k ∈ Node.allReferencesTagged "ModuleMorphism" ns,
    R Morphism (l.morphism k) (u.morphism k)

theorem Agree.mono {ms : List Node} (h : Agree R ns l u)
    (hs : ∀ target, Node.allReferencesTagged target ms ⊆ Node.allReferencesTagged target ns) :
    Agree R ms l u :=
  ⟨fun k hk => h.module k (hs _ hk),fun k hk => h.element k (hs _ hk),
    fun k hk => h.morphism k (hs _ hk)⟩

theorem Agree.below (h : Agree R ns l u) (hc : c ∈ ns) (hr : c.reference? = none) :
    Agree R c.children l u := by
  refine h.mono fun target k hk => Node.mem_allReferencesTagged.mpr ⟨c,hc,?_⟩
  rwa [Node.referencesTagged_of_children (.inl hr)]

theorem Agree.within (h : Agree R ns l u) (hc : c ∈ ns)
    (ht : c.tag ≠ "Module" ∧ c.tag ≠ "ModuleElement" ∧ c.tag ≠ "ModuleMorphism") :
    Agree R c.children l u := by
  have hmem {target k : String} (hne : c.tag ≠ target)
      (hk : k ∈ Node.allReferencesTagged target c.children) :
      k ∈ Node.allReferencesTagged target ns :=
    Node.mem_allReferencesTagged.mpr ⟨c,hc,by rwa [Node.referencesTagged_of_children (.inr hne)]⟩
  exact ⟨fun k hk => h.module k (hmem ht.1 hk),fun k hk => h.element k (hmem ht.2.1 hk),
    fun k hk => h.morphism k (hmem ht.2.2 hk)⟩

end LeafMeanings

namespace Attempt.Congruence
variable {R : (α : Type) → Attempt α → Attempt α → Prop} (hR : Congruence R)
include hR

section Nodes
variable {α ε : Type} (n : Node)

theorem require (key : String) : R String (n.require key) (n.require key) := by
  unfold Node.require
  split
  · exact hR.success _
  · exact hR.malformed _ _

theorem shape (family : Family) (table : Table α) :
    R α (n.shape family table) (n.shape family table) := by
  refine hR.bind (hR.require n "type") fun tag _ => ?_
  split
  · exact hR.success _
  · exact hR.unknown _ _

theorem parsed (key : String) (read : String → Except ε α) (message : ε → String) :
    R α (n.parsed key read message) (n.parsed key read message) := by
  refine hR.bind (hR.require n key) fun raw _ => ?_
  split
  · exact hR.success _
  · exact hR.malformed _ _

theorem nthChild (tag : String) (i : Nat) : R Node (n.nthChild tag i) (n.nthChild tag i) := by
  unfold Node.nthChild
  split
  · exact hR.success _
  · exact hR.malformed _ _

theorem modulus : R UInt64 n.modulus n.modulus := by
  refine hR.bind (hR.parsed n "modulus" _ _) fun m _ => ?_
  split
  · exact hR.malformed _ _
  · split
    · exact hR.malformed _ _
    · exact hR.success _

theorem checkedIn (r : Except MappingError Morphism) :
    R Morphism (Morphism.checkedIn n r) (Morphism.checkedIn n r) := by
  cases r with
  | ok f => exact hR.success f
  | error e => exact hR.malformed _ _

theorem all {as bs : List (Attempt α)} (h : List.Forall₂ (R α) as bs) :
    R (List α) (Attempt.all as) (Attempt.all bs) := by
  induction h with
  | nil => exact hR.success _
  | cons hab _ ih => exact hR.cons hab ih

end Nodes

section Leaves
variable {v : Vocabulary} {l u : LeafMeanings}

omit hR in
/-- A nested node is a name, or is read. -/
theorem nested {α : Type} (look : LeafMeanings → String → Attempt α) {a b : Attempt α}
    {tag : String} {n : Node} (ht : n.tag = tag)
    (h : ∀ k ∈ n.referencesTagged tag, R α (look l k) (look u k))
    (hn : n.reference? = none → (∀ k ∈ Node.allReferencesTagged tag n.children,
      R α (look l k) (look u k)) → R α a b) :
    R α (match LeafScope.nameIn ⟨v,some l⟩ n with
      | some (l,name) => look l name
      | none => a)
      (match LeafScope.nameIn ⟨v,some u⟩ n with
      | some (u,name) => look u name
      | none => b) := by
  cases hr : n.reference? with
  | some name =>
    simp only [LeafScope.nameIn,hr]
    exact h name (by simp [Node.referencesTagged_of_reference hr ht])
  | none =>
    simp only [LeafScope.nameIn,hr]
    exact hn hr (Node.referencesTagged_of_children (.inl hr) ▸ h)

theorem module_ofNode (n : Node) (h : ∀ k ∈ Node.allReferencesTagged "Module" n.children,
      R Module (l.module k) (u.module k)) :
    R Module (Module.ofNode ⟨v,some l⟩ n) (Module.ofNode ⟨v,some u⟩ n) := by
  induction n using Node.rec (motive_2 := fun ns =>
    (∀ k ∈ Node.allReferencesTagged "Module" ns, R Module (l.module k) (u.module k)) →
    R (List Module) (Module.ofNodes ⟨v,some l⟩ ns) (Module.ofNodes ⟨v,some u⟩ ns)) with
  | mk tag attrs children ih =>
    rw [Module.ofNode,Module.ofNode]
    refine hR.bind (hR.shape _ _ _) fun shape _ => ?_
    cases shape with
    | null | z | q | r => exact hR.success _
    | zn => exact hR.bind (hR.modulus _) fun _ _ => hR.success _
    | product => exact hR.bind (ih h) fun _ _ => hR.success _
  | nil =>
    rw [Module.ofNodes,Module.ofNodes]
    exact hR.success _
  | cons c cs ihc ihcs =>
    rename_i h
    rw [Node.allReferencesTagged,List.forall_mem_append] at h
    rw [Module.ofNodes,Module.ofNodes]
    split <;> rename_i ht
    · exact hR.cons (nested LeafMeanings.module ht h.1 fun _ => ihc) (ihcs h.2)
    · exact ihcs h.2

theorem module_ofNested {n : Node} (ht : n.tag = "Module")
    (h : ∀ k ∈ n.referencesTagged "Module", R Module (l.module k) (u.module k)) :
    R Module (Module.ofNested ⟨v,some l⟩ n) (Module.ofNested ⟨v,some u⟩ n) :=
  nested LeafMeanings.module ht h fun _ => hR.module_ofNode n

theorem module_ofChild (n : Node) (i : Nat)
    (h : ∀ k ∈ Node.allReferencesTagged "Module" n.children,
      R Module (l.module k) (u.module k)) :
    R Module (Module.ofChild ⟨v,some l⟩ n i) (Module.ofChild ⟨v,some u⟩ n i) := by
  refine hR.bind (hR.nthChild n "Module" i) fun c hc => ?_
  obtain ⟨hmem,ht⟩ := Node.nthChild_eq_some hc
  exact hR.module_ofNested ht fun k hk => h k (Node.mem_allReferencesTagged.mpr ⟨c,hmem,hk⟩)

theorem element_ofNode (n : Node) (h : ∀ k ∈ Node.allReferencesTagged "ModuleElement" n.children,
      R Element (l.element k) (u.element k)) :
    R Element (Element.ofNode ⟨v,some l⟩ n) (Element.ofNode ⟨v,some u⟩ n) := by
  induction n using Node.rec (motive_2 := fun ns =>
    (∀ k ∈ Node.allReferencesTagged "ModuleElement" ns, R Element (l.element k) (u.element k)) →
    R (List Element) (Element.ofNodes ⟨v,some l⟩ ns) (Element.ofNodes ⟨v,some u⟩ ns)) with
  | mk tag attrs children ih =>
    rw [Element.ofNode,Element.ofNode]
    refine hR.bind (hR.shape _ _ _) fun shape _ => ?_
    cases shape with
    | null => exact hR.success _
    | z | q | r => exact hR.bind (hR.parsed _ _ _ _) fun _ _ => hR.success _
    | zn =>
      exact hR.bind (hR.parsed _ _ _ _) fun _ _ => hR.bind (hR.modulus _) fun _ _ => hR.success _
    | product => exact hR.bind (ih h) fun _ _ => hR.success _
  | nil =>
    rw [Element.ofNodes,Element.ofNodes]
    exact hR.success _
  | cons c cs ihc ihcs =>
    rename_i h
    rw [Node.allReferencesTagged,List.forall_mem_append] at h
    rw [Element.ofNodes,Element.ofNodes]
    split <;> rename_i ht
    · exact hR.cons (nested LeafMeanings.element ht h.1 fun _ => ihc) (ihcs h.2)
    · exact ihcs h.2

theorem element_ofChild (n : Node) (i : Nat)
    (h : ∀ k ∈ Node.allReferencesTagged "ModuleElement" n.children,
      R Element (l.element k) (u.element k)) :
    R Element (Element.ofChild ⟨v,some l⟩ n i) (Element.ofChild ⟨v,some u⟩ n i) := by
  refine hR.bind (hR.nthChild n "ModuleElement" i) fun c hc => ?_
  obtain ⟨hmem,ht⟩ := Node.nthChild_eq_some hc
  exact nested LeafMeanings.element ht
    (fun k hk => h k (Node.mem_allReferencesTagged.mpr ⟨c,hmem,hk⟩)) fun _ => hR.element_ofNode c

theorem morphism_ofChildren {ns : List Node} (h : LeafMeanings.Agree R ns l u)
    (hn : ∀ c ∈ ns, LeafMeanings.Agree R c.children l u →
      R Morphism (Morphism.ofNode ⟨v,some l⟩ c) (Morphism.ofNode ⟨v,some u⟩ c))
    (parent : String) (position i : Nat) :
    R Morphism (Morphism.ofChildren ⟨v,some l⟩ parent position i ns)
      (Morphism.ofChildren ⟨v,some u⟩ parent position i ns) := by
  rw [Morphism.ofChildren_eq,Morphism.ofChildren_eq]
  cases hc : (ns.filter fun c => c.tag = "ModuleMorphism")[i]? with
  | none => exact hR.malformed _ _
  | some c =>
    obtain ⟨hmem,ht⟩ := List.mem_filter.mp (List.mem_of_getElem? hc)
    exact nested LeafMeanings.morphism (of_decide_eq_true ht)
      (fun k hk => h.morphism k (Node.mem_allReferencesTagged.mpr ⟨c,hmem,hk⟩))
      fun hr _ => hn c hmem (h.below hmem hr)

theorem morphism_ofNode (n : Node) (h : LeafMeanings.Agree R n.children l u) :
    R Morphism (Morphism.ofNode ⟨v,some l⟩ n) (Morphism.ofNode ⟨v,some u⟩ n) := by
  induction n using Node.rec (motive_2 := fun ns => ∀ c ∈ ns,
    LeafMeanings.Agree R c.children l u →
    R Morphism (Morphism.ofNode ⟨v,some l⟩ c) (Morphism.ofNode ⟨v,some u⟩ c)) with
  | mk tag attrs children ih =>
    have module (i : Nat) := hR.module_ofChild (v := v) ⟨tag,attrs,children⟩ i h.module
    have element (i : Nat) := hR.element_ofChild (v := v) ⟨tag,attrs,children⟩ i h.element
    rw [Morphism.ofNode,Morphism.ofNode]
    refine hR.bind (hR.shape _ _ _) fun shape _ => ?_
    cases shape with
    | constant => exact hR.bind (module 0) fun _ _ => hR.bind (element 0) fun _ _ => hR.success _
    | identity => exact hR.bind (module 0) fun _ _ => hR.success _
    | affine =>
      exact hR.bind (module 0) fun _ _ => hR.bind (element 0) fun _ _ =>
        hR.bind (element 1) fun _ _ => hR.checkedIn _ _
    | embedding =>
      exact hR.bind (module 0) fun _ _ => hR.bind (module 1) fun _ _ => hR.checkedIn _ _
    | composition =>
      refine hR.bind (hR.morphism_ofChildren h ih tag 0 0) fun _ _ =>
        hR.bind (hR.morphism_ofChildren h ih tag 1 1) fun _ _ => ?_
      split
      · exact hR.success _
      · exact hR.malformed _ _
  | nil =>
    rename_i hc _
    cases hc
  | cons c cs ihc ihcs =>
    rename_i d hd h
    rcases List.mem_cons.mp hd with rfl | hd
    · exact ihc h
    · exact ihcs d hd h

theorem morphism_ofCoordinate {n : Node} (h : LeafMeanings.Agree R n.children l u)
    (address : Module) : R Morphism (Morphism.ofCoordinate ⟨v,some l⟩ address n)
      (Morphism.ofCoordinate ⟨v,some u⟩ address n) := by
  refine hR.bind (hR.shape _ _ _) fun shape _ => ?_
  cases shape with
  | constant => exact hR.bind (hR.element_ofChild n 0 h.element) fun _ _ => hR.success _
  | morphism => exact hR.morphism_ofChildren h (fun c _ => hR.morphism_ofNode c) n.tag 0 0

end Leaves

section Assembly
open DenotatorSketch
variable {g : FormGraph} {form? o : String → Option FormId} {v : Vocabulary} {l u : LeafMeanings}
  {n : Node} {parts parts' : List (Attempt Denotator)}

theorem checkedAt (r : Except DenotatorError Denotator) :
    R Denotator (checkedAt n r) (DenotatorSketch.checkedAt n r) := by
  cases r with
  | ok d => exact hR.success d
  | error e => exact hR.malformed _ _

theorem movedTo (a : Module) (d : Denotator) :
    R Denotator (movedTo n a d) (DenotatorSketch.movedTo n a d) := by
  unfold DenotatorSketch.movedTo
  split
  · exact hR.success d
  · split
    · exact hR.success _
    · exact hR.malformed _ _

theorem addressOf (h : LeafMeanings.Agree R n.children l u) :
    R Module (addressOf ⟨g,form?,⟨v,some l⟩⟩ n) (addressOf ⟨g,o,⟨v,some u⟩⟩ n) := by
  unfold DenotatorSketch.addressOf
  cases ha : n.child? "Address" with
  | none => exact hR.success _
  | some a =>
    obtain ⟨hmem,htag⟩ := Node.child?_eq_some ha
    dsimp only
    cases hm : a.child? "Module" with
    | none => exact hR.malformed _ _
    | some m =>
      obtain ⟨hmmem,hmtag⟩ := Node.child?_eq_some hm
      refine hR.module_ofNested hmtag fun k hk => ?_
      exact (h.within hmem (by simp [htag])).module k
        (Node.mem_allReferencesTagged.mpr ⟨m,hmmem,hk⟩)

theorem valueOf (h : LeafMeanings.Agree R n.children l u)
    (hp : List.Forall₂ (R Denotator) parts parts') (kind : Kind) (form : FormId)
    (address : Module) : R Denotator (valueOf ⟨g,form?,⟨v,some l⟩⟩ n kind form address parts)
      (DenotatorSketch.valueOf ⟨g,o,⟨v,some u⟩⟩ n kind form address parts') := by
  have hall := hR.all hp
  cases kind with
  | simple =>
    unfold DenotatorSketch.valueOf
    cases hc : n.child? "Map" with
    | none => exact hR.malformed _ _
    | some c =>
      obtain ⟨hmem,htag⟩ := Node.child?_eq_some hc
      exact hR.bind (hR.morphism_ofCoordinate (h.within hmem (by simp [htag])) address)
        fun f _ => hR.checkedAt _
  | colimit =>
    refine hR.bind (hR.parsed _ _ _ _) fun i _ => ?_
    cases hp with
    | nil => exact hR.malformed _ _
    | cons hpart _ => exact hR.bind hpart fun d _ => hR.checkedAt _
  | limit | power | list => exact hR.bind hall fun ds _ => hR.checkedAt _

structure Mentions (R : (α : Type) → Attempt α → Attempt α → Prop)
    (form? o : String → Option FormId) (l u : LeafMeanings) (n : Node) : Prop where
  leaves : LeafMeanings.Agree R n.children l u
  form : ∀ name, n.attr? "form" = some name →
    R FormId (.ofOption (form? name)) (.ofOption (o name))

theorem assemble (h : Mentions R form? o l u n) (hp : List.Forall₂ (R Denotator) parts parts') :
    R Denotator (assemble ⟨g,form?,⟨v,some l⟩⟩ n parts)
      (DenotatorSketch.assemble ⟨g,o,⟨v,some u⟩⟩ n parts') := by
  have hkind : R Kind (kindOf n) (kindOf n) := by
    refine hR.bind (hR.require n "type") fun tag _ => ?_
    split
    · exact hR.success _
    · exact hR.unknown _ _
  refine hR.bind hkind fun kind _ => ?_
  refine hR.bind (hR.bind (hR.require n "form") fun name hname => hR.bind (h.form name ?_)
    fun x _ => ?_) fun form _ => ?_
  · unfold Node.require at hname
    split at hname <;> cases hname
    assumption
  · dsimp only
    split
    · exact hR.success _
    · exact hR.malformed _ _
  · refine hR.bind (hR.addressOf h.leaves) fun a _ => ?_
    refine hR.bind (hR.valueOf h.leaves hp kind form a) fun d _ => ?_
    exact hR.bind (hR.movedTo a d) fun e _ => hR.success _

theorem build {look : String → Attempt Denotator} (look' : String → Attempt Denotator)
    (s : DenotatorSketch)
    (hn : ∀ n ∈ s.nodes, Mentions R form? o l u n)
    (hl : ∀ k ∈ s.uses, R Denotator (look k) (look' k)) :
    R Denotator (s.build ⟨g,form?,⟨v,some l⟩⟩ look) (s.build ⟨g,o,⟨v,some u⟩⟩ look') := by
  induction s using DenotatorSketch.rec (motive_2 := fun ss =>
    (∀ n ∈ allNodes ss, Mentions R form? o l u n) →
    (∀ k ∈ allUses ss, R Denotator (look k) (look' k)) → List.Forall₂ (R Denotator)
      (buildAll ⟨g,form?,⟨v,some l⟩⟩ look ss) (buildAll ⟨g,o,⟨v,some u⟩⟩ look' ss)) with
  | use name | define name =>
    rw [DenotatorSketch.build,DenotatorSketch.build]
    exact hl name (by simp [uses])
  | inline n parts ih =>
    rw [DenotatorSketch.build,DenotatorSketch.build]
    rw [nodes,List.forall_mem_cons] at hn
    exact hR.assemble hn.1 (ih hn.2 hl)
  | nil => exact .nil
  | cons s ss ihs ihss =>
    rename_i hn hl
    rw [allNodes,List.forall_mem_append] at hn
    rw [allUses,List.forall_mem_append] at hl
    exact .cons (ihs hn.1 hl.1) (ihss hn.2 hl.2)

theorem buildAll {look look' : String → Attempt Denotator} {ss : List DenotatorSketch}
    (hn : ∀ n ∈ allNodes ss, Mentions R form? o l u n)
    (hl : ∀ k ∈ allUses ss, R Denotator (look k) (look' k)) : List.Forall₂ (R Denotator)
      (buildAll ⟨g,form?,⟨v,some l⟩⟩ look ss)
      (DenotatorSketch.buildAll ⟨g,o,⟨v,some u⟩⟩ look' ss) := by
  induction ss with
  | nil => exact .nil
  | cons s ss ih =>
    rw [allNodes,List.forall_mem_append] at hn
    rw [allUses,List.forall_mem_append] at hl
    exact .cons (hR.build _ s hn.1 hl.1) (ih hn.2 hl.2)

theorem definition {look : String → Attempt Denotator} (look' : String → Attempt Denotator)
    {defs : Table DenotatorDefinition} {name : String} {d : DenotatorDefinition}
    (hd : defs.get? name = some d)
    (hn : ∀ n ∈ d.node :: allNodes d.parts, Mentions R form? o l u n)
    (hl : ∀ k ∈ DenotatorDefinition.uses defs name, R Denotator (look k) (look' k)) :
    R Denotator (DenotatorDefinition.build ⟨g,form?,⟨v,some l⟩⟩ look defs name)
      (DenotatorDefinition.build ⟨g,o,⟨v,some u⟩⟩ look' defs name) := by
  rw [List.forall_mem_cons] at hn
  simp only [DenotatorDefinition.uses,hd] at hl
  simp only [DenotatorDefinition.build,hd]
  exact hR.assemble hn.1 (hR.buildAll hn.2 hl)

end Assembly

section LeafDefinitions
variable {α : Type} {tag name : String} {defs : Table Node} {look : String → Attempt α}
  {read : Node → Attempt α} {n : Node}

omit hR in
theorem leaf (look' : String → Attempt α) (read' : Node → Attempt α)
    (hn : defs.get? name = some n) (ht : n.tag = tag)
    (hl : ∀ k ∈ Leaves.uses tag defs name, R α (look k) (look' k))
    (hr : n.reference? = none → (∀ k ∈ Node.allReferencesTagged tag n.children,
      R α (look k) (look' k)) → R α (read n) (read' n)) :
    R α (Leaves.build defs look read name) (Leaves.build defs look' read' name) := by
  simp only [Leaves.uses,hn] at hl
  simp only [Leaves.build,hn]
  cases href : n.reference? with
  | some target => exact hl target (by simp [Node.referencesTagged_of_reference href ht])
  | none => exact hr href (Node.referencesTagged_of_children (.inl href) ▸ hl)

end LeafDefinitions

end Attempt.Congruence
end AddressedForms
