import AddressedForms.Document.LeafNodes
import AddressedForms.Document.LeafReading
import AddressedForms.Proofs.Address.Proper
import AddressedForms.Proofs.Document.Node
import AddressedForms.Proofs.Number.Fraction
set_option autoImplicit false

/-!
The nodes of proper leaves read back, where the names that stand in them mean what they were given
to. A node refers to no names but those.
-/

namespace AddressedForms
namespace NamedLeaves

theorem mem_of_nameOf? {α : Type} [DecidableEq α] {x : α} {name : String} {es : List (α × String)}
    (h : nameOf? x es = some name) : (x,name) ∈ es := by
  induction es with
  | nil => simp [nameOf?] at h
  | cons e es ih =>
    rw [nameOf?] at h
    split at h <;> rename_i hx
    · cases h
      simp [hx]
    · exact List.mem_cons_of_mem _ (ih h)

theorem not_mem_of_nameOf? {α : Type} [DecidableEq α] {x : α} {es : List (α × String)}
    (h : nameOf? x es = none) (name : String) : (x,name) ∉ es := by
  induction es with
  | nil => simp
  | cons e es ih =>
    rw [nameOf?] at h
    split at h <;> rename_i hx
    · cases h
    · rintro (_ | ⟨_,hm⟩)
      · exact hx rfl
      · exact ih h hm

def Has (names : NamedLeaves) : Symbol × String → Prop
  | (.module,name) => name ∈ names.modules.map Prod.snd
  | (.element,name) => name ∈ names.elements.map Prod.snd
  | (.morphism,name) => name ∈ names.morphisms.map Prod.snd
  | _ => False

end NamedLeaves

/-- Every name stands for the value that it was given to. -/
structure LeafMeanings.Knows (l : LeafMeanings) (names : NamedLeaves) : Prop where
  modules : ∀ x name, (x,name) ∈ names.modules → l.module name = .success x
  elements : ∀ x name, (x,name) ∈ names.elements → l.element name = .success x
  morphisms : ∀ x name, (x,name) ∈ names.morphisms → l.morphism name = .success x

def LeafScope.builtin (l : LeafMeanings) : LeafScope := ⟨.builtins,some l⟩

namespace LeafScope

theorem nameIn_reference (l : LeafMeanings) (tag name : String) :
    (builtin l).nameIn (.reference tag name) = some (l,name) := by
  simp [nameIn,builtin]

theorem nameIn_of_none (l : LeafMeanings) {n : Node} (h : n.reference? = none) :
    (builtin l).nameIn n = none := by
  simp [nameIn,builtin,h]

end LeafScope

namespace NamedLeaves

/-- How a nested value is written: by a name that it has, or by its body if it has none. -/
inductive Writes {α : Type} (tag : String) (es : List (α × String)) (x : α) (body : Node) :
    Node → Prop
  | named {name : String} (h : (x,name) ∈ es) : Writes tag es x body (.reference tag name)
  | spelled (h : ∀ name, (x,name) ∉ es) : Writes tag es x body body

theorem writes {α : Type} [DecidableEq α] (tag : String) (es : List (α × String)) (x : α)
    (body : Node) : Writes tag es x body (match nameOf? x es with
      | some name => .reference tag name
      | none => body) := by
  cases h : nameOf? x es with
  | some name => exact .named (mem_of_nameOf? h)
  | none => exact .spelled (not_mem_of_nameOf? h)

section Writes
variable {α : Type} {tag : String} {es : List (α × String)} {x : α} {body n : Node}

theorem Writes.tag_eq (h : Writes tag es x body n) (hb : body.tag = tag) : n.tag = tag := by
  cases h with
  | named => rfl
  | spelled => exact hb

theorem Writes.reads {l : LeafMeanings} (h : Writes tag es x body n)
    (hr : body.reference? = none) (meaning : LeafMeanings → String → Attempt α)
    (read : Node → Attempt α) (hb : n = body → read body = .success x)
    (hl : ∀ y name, (y,name) ∈ es → name ∈ n.referencesTagged tag → meaning l name = .success y) :
    (match (LeafScope.builtin l).nameIn n with
      | some (l,name) => meaning l name
      | none => read n) = .success x := by
  cases h with
  | named hx =>
    rw [LeafScope.nameIn_reference]
    exact hl x _ hx (by simp [Node.referencesTagged_eq])
  | spelled =>
    rw [LeafScope.nameIn_of_none l hr]
    exact hb rfl

theorem Writes.mem_referencesTagged (h : Writes tag es x body n) {name : String}
    (hn : name ∈ n.referencesTagged tag) : (x,name) ∈ es ∨ name ∈ body.referencesTagged tag := by
  cases h with
  | named hx =>
    rw [Node.referencesTagged_eq] at hn
    obtain rfl : name = _ := by simpa using hn
    exact .inl hx
  | spelled => exact .inr hn

end Writes

/-- The nodes that leaves are written with: names that were given, and bodies of such nodes. -/
inductive Written (names : NamedLeaves) : Node → Prop
  | name {s : Symbol} {tag name : String} (hs : Symbol.ofTag? tag = some s)
    (h : names.Has (s,name)) : Written names (.reference tag name)
  | body {n : Node} (ht : n.tag ∈ ["Module","ModuleElement","ModuleMorphism","Map","Address"])
    (hr : n.reference? = none) (hc : ∀ c ∈ n.children, Written names c) : Written names n

variable {names : NamedLeaves}

theorem Writes.written {α : Type} {tag : String} {es : List (α × String)} {x : α} {body n : Node}
    (h : Writes tag es x body n) {s : Symbol} (hs : Symbol.ofTag? tag = some s)
    (hx : ∀ name, (x,name) ∈ es → names.Has (s,name)) (hb : names.Written body) :
    names.Written n := by
  cases h with
  | named hm => exact .name hs (hx _ hm)
  | spelled => exact hb

/-- What leaves are written with refers to no names but those that were given. -/
theorem Written.has_references {n : Node} (h : names.Written n) :
    ∀ r ∈ n.references, names.Has r := by
  induction h with
  | name hs h =>
    rw [Node.references_reference hs]
    intro r hr
    rwa [List.mem_singleton.mp hr]
  | @body n ht hr hc ih =>
    have hd : n.tag ≠ "Denotator" := by
      rintro hd
      simp [hd] at ht
    rw [Node.references_eq,Node.ownReferences_eq_nil hr hd,List.nil_append,Node.allReferences_eq]
    intro r hr
    obtain ⟨c,hc,hr⟩ := List.mem_flatMap.mp hr
    exact ih c hc r hr

end NamedLeaves

namespace Module

def shape : Module → ModuleShape
  | .null => .null
  | .z => .z
  | .zn _ => .zn
  | .q => .q
  | .r => .r
  | .product _ => .product

theorem get?_builtins (m : Module) : Vocabulary.builtins.modules.get? m.tag = some m.shape := by
  cases m <;> rfl

@[simp] theorem tag_body (names : NamedLeaves) (m : Module) : (m.body names).tag = "Module" := by
  cases m <;> rfl

theorem writes_node (names : NamedLeaves) (m : Module) :
    NamedLeaves.Writes "Module" names.modules m (m.body names) (m.node names) :=
  NamedLeaves.writes _ _ _ _

@[simp] theorem tag_node (names : NamedLeaves) (m : Module) : (m.node names).tag = "Module" :=
  (writes_node names m).tag_eq (tag_body names m)

theorem type_body (names : NamedLeaves) (m : Module) :
    (m.body names).attr? "type" = some m.tag := by
  cases m <;> simp [body,bodyNode,Node.attr?_withAttr]

@[simp] theorem reference?_body (names : NamedLeaves) (m : Module) :
    (m.body names).reference? = none := by
  cases m <;> simp [body,bodyNode,Node.reference?,Node.attr?_withAttr]

theorem children_body (names : NamedLeaves) (m : Module) : (m.body names).children =
    match m with
    | .product fs => nodes names fs
    | _ => [] := by
  cases m <;> simp [body,bodyNode]

theorem shape_body (names : NamedLeaves) (l : LeafMeanings) (m : Module) :
    (m.body names).shape .module (LeafScope.builtin l).vocabulary.modules = .success m.shape :=
  Node.shape_of_attr? (type_body names m) (get?_builtins m)

theorem ofNode_eq (s : LeafScope) (n : Node) : ofNode s n =
    (n.shape .module s.vocabulary.modules >>= fun shape => match shape with
      | .null => .success .null
      | .z => .success .z
      | .q => .success .q
      | .r => .success .r
      | .zn => do
        let k ← n.modulus
        .success (.zn k)
      | .product => do
        let fs ← ofNodes s n.children
        .success (.product fs)) := by
  cases n; unfold ofNode; rfl

theorem modulus_of_isProper {n : UInt64} (h : (zn n).isProper) {c : Node}
    (hc : c.attr? "modulus" = some (toString n)) : c.modulus = .success n := by
  have hparsed := Node.parsed_of_attr? hc (Integer.readUInt64_toString n) IntegerError.message
  simp only [isProper,Bool.and_eq_true,decide_eq_true_eq,ne_eq] at h
  have hmax : ¬ maxModulus < n := by
    rw [UInt64.not_lt]
    exact h.2
  simp [Node.modulus,Node.parsedUInt64,hparsed,Attempt.success_bind,h.1,hmax]

theorem ofNodes_cons (s : LeafScope) {c : Node} (h : c.tag = "Module") (cs : List Node) :
    ofNodes s (c :: cs) = Attempt.cons (ofNested s c) (ofNodes s cs) := by
  rw [ofNodes,if_pos h]
  rfl

theorem ofNested_of_body {names : NamedLeaves} {l : LeafMeanings} {m : Module}
    (hb : m.node names = m.body names → ofNode (.builtin l) (m.body names) = .success m)
    (hl : ∀ x name, (x,name) ∈ names.modules → name ∈ (m.node names).referencesTagged "Module" →
      l.module name = .success x) :
    ofNested (.builtin l) (m.node names) = .success m :=
  (writes_node names m).reads (reference?_body names m) LeafMeanings.module (ofNode (.builtin l))
    hb hl

/-- The node of a proper module reads back if the names in it do. -/
theorem ofNode_body {names : NamedLeaves} {l : LeafMeanings} {m : Module} (h : m.isProper)
    (hl : ∀ x name, (x,name) ∈ names.modules → name ∈ (m.body names).referencesTagged "Module" →
      l.module name = .success x) :
    ofNode (.builtin l) (m.body names) = .success m := by
  induction m using Module.rec (motive_2 := fun fs => allProper fs →
    (∀ x name, (x,name) ∈ names.modules →
      name ∈ Node.allReferencesTagged "Module" (nodes names fs) → l.module name = .success x) →
    ofNodes (.builtin l) (nodes names fs) = .success fs) with
  | zn n =>
    rw [ofNode_eq,shape_body,Attempt.success_bind]
    dsimp only [shape]
    rw [modulus_of_isProper h (by simp [body,bodyNode]),Attempt.success_bind]
  | product fs ih =>
    rw [ofNode_eq,shape_body,Attempt.success_bind]
    dsimp only [shape]
    rw [Node.referencesTagged_eq,reference?_body] at hl
    rw [children_body] at hl ⊢
    rw [ih h hl,Attempt.success_bind]
  | nil => rfl
  | cons f fs ihf ihfs =>
    rename_i h hl
    simp only [allProper,Bool.and_eq_true] at h
    have hcons : nodes names (f :: fs) = f.node names :: nodes names fs := rfl
    rw [hcons,Node.allReferencesTagged] at hl
    have hhead : ofNested (.builtin l) (f.node names) = .success f :=
      ofNested_of_body
        (fun he => ihf h.1 fun x name hx hm => hl x name hx (List.mem_append_left _ (he ▸ hm)))
        fun x name hx hm => hl x name hx (List.mem_append_left _ hm)
    have htail := ihfs h.2 fun x name hx hm => hl x name hx (List.mem_append_right _ hm)
    rw [hcons,ofNodes_cons _ (tag_node names f),hhead,htail]
    rfl
  | _ =>
    rw [ofNode_eq,shape_body,Attempt.success_bind]
    rfl

theorem ofNested_node {names : NamedLeaves} {l : LeafMeanings} {m : Module} (h : m.isProper)
    (hl : ∀ x name, (x,name) ∈ names.modules → l.module name = .success x) :
    ofNested (.builtin l) (m.node names) = .success m :=
  ofNested_of_body (fun _ => ofNode_body h fun x name hx _ => hl x name hx)
    fun x name hx _ => hl x name hx

theorem written_node {names : NamedLeaves} {m : Module} (h : names.Written (m.body names)) :
    names.Written (m.node names) :=
  (writes_node names m).written (s := .module) rfl
    (fun _ hm => List.mem_map_of_mem (f := Prod.snd) hm) h

theorem written_body (names : NamedLeaves) (m : Module) : names.Written (m.body names) := by
  refine .body (by simp) (reference?_body names m) ?_
  rw [children_body]
  induction m using Module.rec (motive_2 := fun fs =>
    ∀ c ∈ nodes names fs, names.Written c) with
  | product fs ih => exact ih
  | cons f fs ihf ihfs =>
    rename_i c hc
    rcases List.mem_cons.mp hc with rfl | hc
    · exact written_node (.body (by simp) (reference?_body names f) (by rwa [children_body]))
    · exact ihfs c hc
  | nil => rename_i hc; simp [nodes] at hc
  | _ => simp

end Module

namespace Element

def shape : Element → ElementShape
  | .null => .null
  | .z _ => .z
  | .zn _ _ => .zn
  | .q _ => .q
  | .r _ => .r
  | .product _ => .product

theorem get?_builtins (x : Element) : Vocabulary.builtins.elements.get? x.tag = some x.shape := by
  cases x <;> rfl

@[simp] theorem tag_body (names : NamedLeaves) (x : Element) :
    (x.body names).tag = "ModuleElement" := by
  cases x <;> rfl

theorem writes_node (names : NamedLeaves) (x : Element) :
    NamedLeaves.Writes "ModuleElement" names.elements x (x.body names) (x.node names) :=
  NamedLeaves.writes _ _ _ _

@[simp] theorem tag_node (names : NamedLeaves) (x : Element) :
    (x.node names).tag = "ModuleElement" :=
  (writes_node names x).tag_eq (tag_body names x)

theorem type_body (names : NamedLeaves) (x : Element) :
    (x.body names).attr? "type" = some x.tag := by
  cases x <;> simp [body,valueNode,Node.attr?_withAttr,tag]

@[simp] theorem reference?_body (names : NamedLeaves) (x : Element) :
    (x.body names).reference? = none := by
  cases x <;> simp [body,valueNode,Node.reference?,Node.attr?_withAttr]

theorem children_body (names : NamedLeaves) (x : Element) : (x.body names).children =
    match x with
    | .product xs => nodes names xs
    | _ => [] := by
  cases x <;> simp [body,valueNode]

theorem shape_body (names : NamedLeaves) (l : LeafMeanings) (x : Element) :
    (x.body names).shape .element (LeafScope.builtin l).vocabulary.elements = .success x.shape :=
  Node.shape_of_attr? (type_body names x) (get?_builtins x)

theorem ofNode_eq (s : LeafScope) (n : Node) : ofNode s n =
    (n.shape .element s.vocabulary.elements >>= fun shape => match shape with
      | .null => .success .null
      | .z => do
        let v ← n.parsedInt64 "value"
        .success (.z v)
      | .zn => do
        let v ← n.parsedInt64 "value"
        let k ← n.modulus
        .success (.residue v k)
      | .q => do
        let v ← n.parsed "value" Fraction.read FractionError.message
        .success (.q v)
      | .r => do
        let v ← n.parsed "value" Binary64.read DecimalError.message
        .success (.r v)
      | .product => do
        let xs ← ofNodes s n.children
        .success (.product xs)) := by
  cases n; unfold ofNode; rfl

theorem ofNodes_cons (s : LeafScope) {c : Node} (h : c.tag = "ModuleElement") (cs : List Node) :
    ofNodes s (c :: cs) = Attempt.cons (ofNested s c) (ofNodes s cs) := by
  rw [ofNodes,if_pos h]
  rfl

theorem ofNested_of_body {names : NamedLeaves} {l : LeafMeanings} {x : Element}
    (hb : x.node names = x.body names → ofNode (.builtin l) (x.body names) = .success x)
    (hl : ∀ y name, (y,name) ∈ names.elements →
      name ∈ (x.node names).referencesTagged "ModuleElement" → l.element name = .success y) :
    ofNested (.builtin l) (x.node names) = .success x :=
  (writes_node names x).reads (reference?_body names x) LeafMeanings.element (ofNode (.builtin l))
    hb hl

theorem ofNode_body {names : NamedLeaves} {l : LeafMeanings} {x : Element} (h : x.isProper)
    (hl : ∀ y name, (y,name) ∈ names.elements →
      name ∈ (x.body names).referencesTagged "ModuleElement" → l.element name = .success y) :
    ofNode (.builtin l) (x.body names) = .success x := by
  induction x using Element.rec (motive_2 := fun xs => allProper xs →
    (∀ y name, (y,name) ∈ names.elements →
      name ∈ Node.allReferencesTagged "ModuleElement" (nodes names xs) →
      l.element name = .success y) →
    ofNodes (.builtin l) (nodes names xs) = .success xs) with
  | null =>
    rw [ofNode_eq,shape_body,Attempt.success_bind]
    rfl
  | z v =>
    have hattr : (body names (.z v)).attr? "value" = some (toString v.toInt) := by
      simp [body,valueNode]
    have hv := Node.parsed_of_attr? hattr (Integer.readInt64_toString v) IntegerError.message
    rw [ofNode_eq,shape_body,Attempt.success_bind]
    dsimp only [shape,Node.parsedInt64]
    rw [hv,Attempt.success_bind]
  | zn v n =>
    have hattr : (body names (.zn v n)).attr? "value" = some (toString v.toInt) := by
      simp [body,valueNode,Node.attr?_withAttr]
    have hv := Node.parsed_of_attr? hattr (Integer.readInt64_toString v) IntegerError.message
    have hp := h
    simp only [isProper,Bool.and_eq_true] at hp
    rw [ofNode_eq,shape_body,Attempt.success_bind]
    dsimp only [shape,Node.parsedInt64]
    rw [hv,Attempt.success_bind,Module.modulus_of_isProper hp.1 (by simp [body]),
      Attempt.success_bind,residue_of_isProper h]
  | q v =>
    have hattr : (body names (.q v)).attr? "value" = some v.text := by simp [body,valueNode]
    have hv := Node.parsed_of_attr? hattr (Fraction.read_text v) FractionError.message
    rw [ofNode_eq,shape_body,Attempt.success_bind]
    dsimp only [shape]
    rw [hv,Attempt.success_bind]
  | r v =>
    have hattr : (body names (.r v)).attr? "value" = some v.text := by simp [body,valueNode]
    have hv := Node.parsed_of_attr? hattr (Binary64.read_text h) DecimalError.message
    rw [ofNode_eq,shape_body,Attempt.success_bind]
    dsimp only [shape]
    rw [hv,Attempt.success_bind]
  | product xs ih =>
    rw [ofNode_eq,shape_body,Attempt.success_bind]
    dsimp only [shape]
    rw [Node.referencesTagged_eq,reference?_body] at hl
    rw [children_body] at hl ⊢
    rw [ih h hl,Attempt.success_bind]
  | nil => rfl
  | cons x xs ihx ihxs =>
    rename_i h hl
    simp only [allProper,Bool.and_eq_true] at h
    have hcons : nodes names (x :: xs) = x.node names :: nodes names xs := rfl
    rw [hcons,Node.allReferencesTagged] at hl
    have hhead : ofNested (.builtin l) (x.node names) = .success x :=
      ofNested_of_body
        (fun he => ihx h.1 fun y name hy hm => hl y name hy (List.mem_append_left _ (he ▸ hm)))
        fun y name hy hm => hl y name hy (List.mem_append_left _ hm)
    have htail := ihxs h.2 fun y name hy hm => hl y name hy (List.mem_append_right _ hm)
    rw [hcons,ofNodes_cons _ (tag_node names x),hhead,htail]
    rfl

theorem ofNested_node {names : NamedLeaves} {l : LeafMeanings} {x : Element} (h : x.isProper)
    (hl : ∀ y name, (y,name) ∈ names.elements → l.element name = .success y) :
    ofNested (.builtin l) (x.node names) = .success x :=
  ofNested_of_body (fun _ => ofNode_body h fun y name hy _ => hl y name hy)
    fun y name hy _ => hl y name hy

theorem written_node {names : NamedLeaves} {x : Element} (h : names.Written (x.body names)) :
    names.Written (x.node names) :=
  (writes_node names x).written (s := .element) rfl
    (fun _ hm => List.mem_map_of_mem (f := Prod.snd) hm) h

theorem written_body (names : NamedLeaves) (x : Element) : names.Written (x.body names) := by
  refine .body (by simp) (reference?_body names x) ?_
  rw [children_body]
  induction x using Element.rec (motive_2 := fun xs =>
    ∀ c ∈ nodes names xs, names.Written c) with
  | product xs ih => exact ih
  | cons x xs ihx ihxs =>
    rename_i c hc
    rcases List.mem_cons.mp hc with rfl | hc
    · exact written_node (.body (by simp) (reference?_body names x) (by rwa [children_body]))
    · exact ihxs c hc
  | nil => rename_i hc; simp [nodes] at hc
  | _ => simp

end Element

namespace Morphism

def shape : Morphism → MorphismShape
  | .constant _ _ => .constant
  | .identity _ => .identity
  | .affine _ _ _ => .affine
  | .embedding _ _ => .embedding
  | .composition _ _ => .composition

theorem get?_builtins (f : Morphism) :
    Vocabulary.builtins.morphisms.get? f.tag = some f.shape := by
  cases f <;> rfl

@[simp] theorem tag_body (names : NamedLeaves) (f : Morphism) :
    (f.body names).tag = "ModuleMorphism" := by
  cases f <;> rfl

theorem writes_node (names : NamedLeaves) (f : Morphism) :
    NamedLeaves.Writes "ModuleMorphism" names.morphisms f (f.body names) (f.node names) :=
  NamedLeaves.writes _ _ _ _

@[simp] theorem tag_node (names : NamedLeaves) (f : Morphism) :
    (f.node names).tag = "ModuleMorphism" :=
  (writes_node names f).tag_eq (tag_body names f)

theorem type_body (names : NamedLeaves) (f : Morphism) :
    (f.body names).attr? "type" = some f.tag := by
  cases f <;> simp [body,typed]

@[simp] theorem reference?_body (names : NamedLeaves) (f : Morphism) :
    (f.body names).reference? = none := by
  cases f <;> simp [body,typed,Node.reference?,Node.attr?_withAttr]

theorem children_body (names : NamedLeaves) (f : Morphism) : (f.body names).children =
    match f with
    | .constant d x => [d.node names,x.node names]
    | .identity m => [m.node names]
    | .affine k a b => [k.node names,a.node names,b.node names]
    | .embedding d c => [d.node names,c.node names]
    | .composition f g => [f.node names,g.node names] := by
  cases f <;> simp [body,typed,node]

theorem shape_body (names : NamedLeaves) (l : LeafMeanings) (f : Morphism) :
    (f.body names).shape .morphism (LeafScope.builtin l).vocabulary.morphisms = .success f.shape :=
  Node.shape_of_attr? (type_body names f) (get?_builtins f)

def ofNested (s : LeafScope) (n : Node) : Attempt Morphism :=
  match s.nameIn n with
  | some (l,name) => l.morphism name
  | none => ofNode s n

theorem ofChildren_first (s : LeafScope) (parent : String) (position : Nat) {c : Node}
    (h : c.tag = "ModuleMorphism") (cs : List Node) :
    ofChildren s parent position 0 (c :: cs) = ofNested s c := by
  rw [ofChildren,if_pos h]
  rfl

theorem ofChildren_second (s : LeafScope) (parent : String) (position : Nat) {c : Node}
    (h : c.tag = "ModuleMorphism") (cs : List Node) :
    ofChildren s parent position 1 (c :: cs) = ofChildren s parent position 0 cs := by
  rw [ofChildren,if_pos h]

theorem ofNode_eq (s : LeafScope) (n : Node) : ofNode s n =
    (n.shape .morphism s.vocabulary.morphisms >>= fun shape => match shape with
      | .constant => do
        let m ← Module.ofChild s n 0
        let x ← Element.ofChild s n 0
        .success (.constant m x)
      | .identity => do
        let m ← Module.ofChild s n 0
        .success (.identity m)
      | .affine => do
        let m ← Module.ofChild s n 0
        let a ← Element.ofChild s n 0
        let b ← Element.ofChild s n 1
        checkedIn n (affine? m a b)
      | .embedding => do
        let m ← Module.ofChild s n 0
        let c ← Module.ofChild s n 1
        checkedIn n (embedding? m c)
      | .composition => do
        let f ← ofChildren s n.tag 0 0 n.children
        let g ← ofChildren s n.tag 1 1 n.children
        if f.domain = g.codomain then .success (.composition f g)
        else
          .malformed n.tag
            ("cannot compose " ++ f.domain.text ++ " after " ++ g.codomain.text)) := by
  cases n; unfold ofNode; rfl

theorem module_ofChild {names : NamedLeaves} {l : LeafMeanings}
    (hl : ∀ x name, (x,name) ∈ names.modules → l.module name = .success x) {n : Node} {i : Nat}
    {m : Module} (h : m.isProper) (hc : (n.childrenTagged "Module")[i]? = some (m.node names)) :
    Module.ofChild (.builtin l) n i = .success m := by
  rw [Module.ofChild,Node.nthChild_of_getElem? hc,Attempt.success_bind]
  exact Module.ofNested_node h hl

theorem element_ofChild {names : NamedLeaves} {l : LeafMeanings}
    (hl : ∀ x name, (x,name) ∈ names.elements → l.element name = .success x) {n : Node} {i : Nat}
    {x : Element} (h : x.isProper)
    (hc : (n.childrenTagged "ModuleElement")[i]? = some (x.node names)) :
    Element.ofChild (.builtin l) n i = .success x := by
  rw [Element.ofChild,Node.nthChild_of_getElem? hc,Attempt.success_bind]
  exact Element.ofNested_node h hl

theorem ofNested_of_body {names : NamedLeaves} {l : LeafMeanings} {f : Morphism}
    (hb : f.node names = f.body names → ofNode (.builtin l) (f.body names) = .success f)
    (hl : ∀ y name, (y,name) ∈ names.morphisms →
      name ∈ (f.node names).referencesTagged "ModuleMorphism" → l.morphism name = .success y) :
    ofNested (.builtin l) (f.node names) = .success f :=
  (writes_node names f).reads (reference?_body names f) LeafMeanings.morphism (ofNode (.builtin l))
    hb hl

/-- The node of a proper morphism reads back if all names of modules and elements are known, and the
names of morphisms in it. -/
theorem ofNode_body {names : NamedLeaves} {l : LeafMeanings}
    (hmodules : ∀ x name, (x,name) ∈ names.modules → l.module name = .success x)
    (helements : ∀ x name, (x,name) ∈ names.elements → l.element name = .success x)
    {f : Morphism} (h : f.isProper)
    (hl : ∀ y name, (y,name) ∈ names.morphisms →
      name ∈ (f.body names).referencesTagged "ModuleMorphism" → l.morphism name = .success y) :
    ofNode (.builtin l) (f.body names) = .success f := by
  rw [ofNode_eq,shape_body,Attempt.success_bind]
  induction f with
  | constant d x =>
    have hp := h
    simp only [isProper,Bool.and_eq_true] at hp
    dsimp only [shape]
    rw [module_ofChild hmodules hp.1 (by simp [Node.childrenTagged,children_body]),
      Attempt.success_bind,
      element_ofChild helements hp.2 (by simp [Node.childrenTagged,children_body]),
      Attempt.success_bind]
  | identity m =>
    dsimp only [shape]
    rw [module_ofChild hmodules h (by simp [Node.childrenTagged,children_body]),
      Attempt.success_bind]
  | affine k a b =>
    have hp := h
    simp only [isProper,Bool.and_eq_true] at hp
    dsimp only [shape]
    rw [module_ofChild hmodules hp.2.1.1 (by simp [Node.childrenTagged,children_body]),
      Attempt.success_bind,
      element_ofChild helements hp.2.1.2 (by simp [Node.childrenTagged,children_body]),
      Attempt.success_bind,
      element_ofChild helements hp.2.2 (by simp [Node.childrenTagged,children_body]),
      Attempt.success_bind,
      affine?_of_isProper h]
    rfl
  | embedding d c =>
    have hp := h
    simp only [isProper,Bool.and_eq_true] at hp
    dsimp only [shape]
    rw [module_ofChild hmodules hp.2.1 (by simp [Node.childrenTagged,children_body]),
      Attempt.success_bind,
      module_ofChild hmodules hp.2.2 (by simp [Node.childrenTagged,children_body]),
      Attempt.success_bind,
      embedding?_of_isProper h]
    rfl
  | composition f g ihf ihg =>
    have hp := h
    simp only [isProper,Bool.and_eq_true,decide_eq_true_eq] at hp
    rw [Node.referencesTagged_eq,reference?_body] at hl
    dsimp only at hl
    rw [children_body,Node.allReferencesTagged,Node.allReferencesTagged,
      Node.allReferencesTagged,List.append_nil] at hl
    have nested {e : Morphism} (he : ∀ y name, (y,name) ∈ names.morphisms →
        name ∈ (e.node names).referencesTagged "ModuleMorphism" → l.morphism name = .success y)
        (ih : (∀ y name, (y,name) ∈ names.morphisms →
          name ∈ (e.body names).referencesTagged "ModuleMorphism" →
          l.morphism name = .success y) → ofNode (.builtin l) (e.body names) = .success e) :
        ofNested (.builtin l) (e.node names) = .success e :=
      ofNested_of_body (fun hb => ih fun y name hy hm => he y name hy (hb ▸ hm)) he
    have hf : ofNested (.builtin l) (f.node names) = .success f :=
      nested (fun y name hy hm => hl y name hy (List.mem_append_left _ hm)) fun hf => by
        rw [ofNode_eq,shape_body,Attempt.success_bind]
        exact ihf hp.2.1 hf
    have hg : ofNested (.builtin l) (g.node names) = .success g :=
      nested (fun y name hy hm => hl y name hy (List.mem_append_right _ hm)) fun hg => by
        rw [ofNode_eq,shape_body,Attempt.success_bind]
        exact ihg hp.2.2 hg
    dsimp only [shape]
    rw [children_body,ofChildren_first _ _ _ (tag_node names f),hf,Attempt.success_bind,
      ofChildren_second _ _ _ (tag_node names f),ofChildren_first _ _ _ (tag_node names g),hg,
      Attempt.success_bind,if_pos hp.1]

theorem ofNested_node {names : NamedLeaves} {l : LeafMeanings} (hl : l.Knows names) {f : Morphism}
    (h : f.isProper) : ofNested (.builtin l) (f.node names) = .success f :=
  ofNested_of_body
    (fun _ => ofNode_body hl.modules hl.elements h
      fun y name hy _ => hl.morphisms y name hy)
    fun y name hy _ => hl.morphisms y name hy

theorem written_node {names : NamedLeaves} {f : Morphism} (h : names.Written (f.body names)) :
    names.Written (f.node names) :=
  (writes_node names f).written (s := .morphism) rfl
    (fun _ hm => List.mem_map_of_mem (f := Prod.snd) hm) h

theorem written_body (names : NamedLeaves) (f : Morphism) : names.Written (f.body names) := by
  have hm (m : Module) := Module.written_node (Module.written_body names m)
  have hx (x : Element) := Element.written_node (Element.written_body names x)
  induction f <;> refine .body (by simp) (reference?_body names _) ?_ <;>
    simp only [children_body,List.forall_mem_cons,List.not_mem_nil,false_imp_iff,implies_true,
      and_true]
  case constant d x => exact ⟨hm d,hx x⟩
  case identity m => exact hm m
  case affine k a b => exact ⟨hm k,hx a,hx b⟩
  case embedding d c => exact ⟨hm d,hm c⟩
  case composition f g ihf ihg => exact ⟨written_node ihf,written_node ihg⟩

theorem ofCoordinate_coordinateNode {names : NamedLeaves} {l : LeafMeanings} (hl : l.Knows names)
    {f : Morphism} (h : f.isProper) (address : Module) :
    ofCoordinate (.builtin l) address (f.coordinateNode names address) = .success f := by
  have constantTag :
      (LeafScope.builtin l).vocabulary.maps.get? "ConstantMap" = some .constant := rfl
  have morphismTag :
      (LeafScope.builtin l).vocabulary.maps.get? "MorphismMap" = some .morphism := rfl
  have general : ofCoordinate (.builtin l) address
      (((Node.leaf "Map").withAttr "type" "MorphismMap").withChildren [f.node names]) =
        .success f := by
    unfold ofCoordinate
    rw [Node.shape_of_attr? (by simp) morphismTag,Attempt.success_bind]
    dsimp only
    rw [Node.children_withChildren,ofChildren_first _ _ _ (tag_node names f)]
    exact ofNested_node hl h
  unfold coordinateNode
  cases f with
  | constant d x =>
    dsimp only
    split <;> rename_i hd
    · have hp := h
      simp only [isProper,Bool.and_eq_true] at hp
      unfold ofCoordinate
      rw [Node.shape_of_attr? (by simp) constantTag,Attempt.success_bind]
      dsimp only
      rw [element_ofChild hl.elements hp.2 (by simp [Node.childrenTagged]),Attempt.success_bind,hd]
    · exact general
  | _ => exact general

theorem written_coordinateNode (names : NamedLeaves) (address : Module) (f : Morphism) :
    names.Written (f.coordinateNode names address) := by
  have map (tag : String) {c : Node} (h : names.Written c) :
      names.Written (((Node.leaf "Map").withAttr "type" tag).withChildren [c]) :=
    .body (by simp) (by simp [Node.reference?,Node.attr?_withAttr]) (by simpa using h)
  have general := map "MorphismMap" (written_node (written_body names f))
  unfold coordinateNode
  cases f with
  | constant d x =>
    dsimp only
    split
    · exact map _ (Element.written_node (Element.written_body names x))
    · exact general
  | _ => exact general

end Morphism
end AddressedForms
