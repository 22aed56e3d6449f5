import AddressedForms.Proofs.Document.Congruence
import AddressedForms.Proofs.Document.Contents
set_option autoImplicit false

/-!
Where definitions come from. Whatever a document defines, with clashes or without, is read from
nodes inside it.
-/

namespace AddressedForms

inductive Node.Inside (root : Node) : Node → Prop
  | root : Inside root root
  | child {n c : Node} (h : Inside root n) (hc : c ∈ n.children) : Inside root c

namespace Node
variable {root n c : Node}

theorem references_child (hc : c ∈ n.children) : c.references ⊆ n.references := by
  intro r hr
  rw [references_eq,allReferences_eq]
  exact List.mem_append_right _ (List.mem_flatMap.mpr ⟨c,hc,hr⟩)

theorem Inside.references (h : root.Inside n) : n.references ⊆ root.references := by
  induction h with
  | root => exact List.Subset.refl _
  | child _ hc ih => exact List.Subset.trans (references_child hc) ih

theorem Inside.referencesTagged (h : root.Inside n) {target : String} {s : Symbol}
    (hs : Symbol.ofTag? target = some s) {k : String}
    (hk : k ∈ allReferencesTagged target n.children) : (s,k) ∈ root.references := by
  obtain ⟨c,hc,hk⟩ := mem_allReferencesTagged.mp hk
  exact (h.child hc).references (mem_references_of_tagged hs c hk)

end Node

namespace FormSketch

def DrawnFrom (root : Node) (f : FormSketch) : Prop :=
  ∃ top n name kind, root.Inside n ∧ f = .ofNode top n name kind

end FormSketch

namespace FormSketches
variable {root : Node} {s : FormSketches}

theorem mem_push {f e : FormSketch} (h : e ∈ (s.push f).sketches) : e ∈ s.sketches ∨ e = f := by
  unfold push at h
  split at h
  · exact .inl h
  · simpa using h

theorem drawn_add (top : Bool) {n : Node} (hn : root.Inside n)
    (h : ∀ f ∈ s.sketches, f.DrawnFrom root) : ∀ f ∈ (add top n s).sketches, f.DrawnFrom root := by
  induction n using Node.rec (motive_2 := fun ns => ∀ s : FormSketches, (∀ n ∈ ns, root.Inside n) →
    (∀ f ∈ s.sketches, f.DrawnFrom root) → ∀ f ∈ (addParts ns s).sketches, f.DrawnFrom root)
    generalizing top s with
  | mk tag attrs children ih =>
    rw [add_eq]
    split
    · exact h
    · generalize FormSketch.header ⟨tag,attrs,children⟩ = header
      obtain ⟨header,es⟩ := header
      cases header with
      | none => exact h
      | some header =>
        intro f hf
        rcases mem_push hf with hf | rfl
        · replace hf : f ∈ (if header.2 = .simple then s else addParts children s).sketches := hf
          split at hf
          · exact h f hf
          · exact ih s (fun c hc => hn.child hc) h f hf
        · exact ⟨_,_,_,_,hn,rfl⟩
  | nil =>
    rename_i s _ h f hf
    exact h f hf
  | cons n ns ihn ihns =>
    rename_i s hn h f hf
    rw [List.forall_mem_cons] at hn
    rw [addParts] at hf
    split at hf
    · exact ihns _ hn.2 (ihn false hn.1 h) f hf
    · exact ihns s hn.2 h f hf

end FormSketches

mutual
def DenotatorSketch.references : DenotatorSketch → List String
  | .use name => [name]
  | .define _ _ parts => allReferences parts
  | .inline _ parts => allReferences parts
def DenotatorSketch.allReferences : List DenotatorSketch → List String
  | [] => []
  | s :: ss => s.references ++ allReferences ss
end

namespace DenotatorSketch
variable {root : Node} {taken : List String}

/-- Sketches that are made of denotators inside a tree and refer to what these refer to. -/
structure DrawnFrom (root : Node) (ss : List DenotatorSketch) : Prop where
  nodes : ∀ m ∈ allNodes ss, root.Inside m ∧ m.tag = "Denotator"
  references : ∀ k ∈ allReferences ss, (.denotator,k) ∈ root.references
  named : ∀ e ∈ allDefinitions ss, e.2.node.name? = some e.1

theorem drawnFrom_nil : DrawnFrom root [] := ⟨nofun,nofun,nofun⟩

theorem drawnFrom_cons {s : DenotatorSketch} {ss : List DenotatorSketch} (h : DrawnFrom root [s])
    (hs : DrawnFrom root ss) : DrawnFrom root (s :: ss) := by
  obtain ⟨hn,hr,hd⟩ := h
  rw [allNodes,allNodes,List.append_nil] at hn
  rw [allReferences,allReferences,List.append_nil] at hr
  rw [allDefinitions,allDefinitions,List.append_nil] at hd
  exact ⟨List.forall_mem_append.mpr ⟨hn,hs.nodes⟩,List.forall_mem_append.mpr ⟨hr,hs.references⟩,
    List.forall_mem_append.mpr ⟨hd,hs.named⟩⟩

theorem drawn_ofNode {n : Node} (hn : root.Inside n) (ht : n.tag = "Denotator") :
    DrawnFrom root [(ofNode taken n).1] := by
  induction n using Node.rec (motive_2 := fun ns => ∀ taken, (∀ n ∈ ns, root.Inside n) →
    DrawnFrom root (ofNodes taken ns).1) generalizing taken with
  | mk tag attrs children ih =>
    have hparts (taken : List String) : DrawnFrom root (ofNodes taken children).1 :=
      ih taken fun c hc => hn.child hc
    have hinline (taken : List String) :
        DrawnFrom root [.inline ⟨tag,attrs,children⟩ (ofNodes taken children).1] := by
      obtain ⟨hnodes,hrefs,hnamed⟩ := hparts taken
      refine ⟨?_,?_,?_⟩ <;> simp only [allNodes,nodes,allReferences,references,allDefinitions,
        definitions,List.append_nil]
      · exact List.forall_mem_cons.mpr ⟨⟨hn,ht⟩,hnodes⟩
      · exact hrefs
      · exact hnamed
    rw [ofNode_eq]
    cases hr : Node.reference? ⟨tag,attrs,children⟩ with
    | some name =>
      refine ⟨by simp [allNodes,nodes],fun k hk => ?_,by simp [allDefinitions,definitions]⟩
      simp only [allReferences,references,List.append_nil,List.mem_singleton] at hk
      have hmem : name ∈ Node.referencesTagged "Denotator" ⟨tag,attrs,children⟩ := by
        simp [Node.referencesTagged_of_reference hr ht]
      exact hk ▸ hn.references (Node.mem_references_of_tagged rfl _ hmem)
    | none =>
      cases hname : Node.name? ⟨tag,attrs,children⟩ with
      | none => exact hinline taken
      | some name =>
        dsimp only
        split
        · exact hinline taken
        · obtain ⟨hnodes,hrefs,hnamed⟩ := hparts (name :: taken)
          refine ⟨?_,?_,?_⟩ <;> simp only [allNodes,nodes,allReferences,references,allDefinitions,
            definitions,List.append_nil]
          · exact List.forall_mem_cons.mpr ⟨⟨hn,ht⟩,hnodes⟩
          · exact hrefs
          · exact List.forall_mem_cons.mpr ⟨hname,hnamed⟩
  | nil => exact drawnFrom_nil
  | cons n ns ihn ihns =>
    rename_i taken hn
    rw [List.forall_mem_cons] at hn
    rw [ofNodes]
    split <;> rename_i ht
    · exact drawnFrom_cons (ihn hn.1 ht) (ihns _ hn.2)
    · exact ihns _ hn.2

theorem allNodes_eq (ss : List DenotatorSketch) : allNodes ss = ss.flatMap nodes := by
  induction ss with
  | nil => rfl
  | cons s ss ih => rw [allNodes,ih,List.flatMap_cons]

theorem allReferences_eq (ss : List DenotatorSketch) :
    allReferences ss = ss.flatMap references := by
  induction ss with
  | nil => rfl
  | cons s ss ih => rw [allReferences,ih,List.flatMap_cons]

/-- Sketches with nothing in them that others do not have. -/
structure Within (ss ts : List DenotatorSketch) : Prop where
  nodes : allNodes ss ⊆ allNodes ts
  references : allReferences ss ⊆ allReferences ts
  definitions : allDefinitions ss ⊆ allDefinitions ts

theorem Within.names {ss ts : List DenotatorSketch} (h : Within ss ts) : names ss ⊆ names ts :=
  List.map_subset _ h.definitions

theorem DrawnFrom.within {ss ts : List DenotatorSketch} (h : DrawnFrom root ts)
    (hs : Within ss ts) : DrawnFrom root ss :=
  ⟨fun m hm => h.nodes m (hs.nodes hm),fun k hk => h.references k (hs.references hk),
    fun e he => h.named e (hs.definitions he)⟩

theorem DrawnFrom.append {ss ts : List DenotatorSketch} (h : DrawnFrom root ss)
    (ht : DrawnFrom root ts) : DrawnFrom root (ss ++ ts) := by
  refine ⟨?_,?_,?_⟩
  · rw [allNodes_eq,List.flatMap_append,← allNodes_eq,← allNodes_eq]
    exact List.forall_mem_append.mpr ⟨h.nodes,ht.nodes⟩
  · rw [allReferences_eq,List.flatMap_append,← allReferences_eq,← allReferences_eq]
    exact List.forall_mem_append.mpr ⟨h.references,ht.references⟩
  · rw [allDefinitions_eq,List.flatMap_append,← allDefinitions_eq,← allDefinitions_eq]
    exact List.forall_mem_append.mpr ⟨h.named,ht.named⟩

theorem Within.trans {ss ts us : List DenotatorSketch} (h : Within ss ts) (k : Within ts us) :
    Within ss us :=
  ⟨List.Subset.trans h.nodes k.nodes,List.Subset.trans h.references k.references,
    List.Subset.trans h.definitions k.definitions⟩

theorem within_head (s : DenotatorSketch) (ss : List DenotatorSketch) : Within [s] (s :: ss) := by
  constructor <;> simp [allNodes,allReferences,allDefinitions]

theorem within_tail (s : DenotatorSketch) (ss : List DenotatorSketch) : Within ss (s :: ss) := by
  constructor <;> simp [allNodes,allReferences,allDefinitions]

theorem within_of_mem {s : DenotatorSketch} {ss : List DenotatorSketch} (h : s ∈ ss) :
    Within [s] ss := by
  induction ss with
  | nil => cases h
  | cons t ss ih =>
    rcases List.mem_cons.mp h with rfl | h
    · exact within_head s ss
    · exact (ih h).trans (within_tail t ss)

theorem within_parts (n : Node) (parts : List DenotatorSketch) :
    Within parts [.inline n parts] := by
  constructor <;> simp [allNodes,nodes,allReferences,references,allDefinitions,definitions]

theorem within_define (name : String) (n : Node) (parts : List DenotatorSketch) :
    Within [.inline n parts] [.define name n parts] := by
  constructor <;> simp [allNodes,nodes,allReferences,references,allDefinitions,definitions]

theorem within_of_mem_definitions {ss : List DenotatorSketch} {name : String}
    {d : DenotatorDefinition} (h : (name,d) ∈ allDefinitions ss) :
    Within [.inline d.node d.parts] ss := by
  induction ss using DenotatorSketch.rec_1 (motive_1 := fun s => (name,d) ∈ s.definitions →
    Within [.inline d.node d.parts] [s]) with
  | use name =>
    rename_i h
    cases h
  | define key n parts ih =>
    rename_i h
    rw [definitions] at h
    rcases List.mem_cons.mp h with h | h
    · cases h
      exact within_define _ n parts
    · exact ((ih h).trans (within_parts n parts)).trans (within_define key n parts)
  | inline n parts ih =>
    rename_i h
    exact (ih h).trans (within_parts n parts)
  | nil => cases h
  | cons s ss ihs ihss =>
    rcases List.mem_append.mp h with h | h
    · exact (ihs h).trans (within_head s ss)
    · exact (ihss h).trans (within_tail s ss)

theorem uses_subset {ss : List DenotatorSketch} {k : String} (h : k ∈ allUses ss) :
    k ∈ allReferences ss ∨ k ∈ names ss := by
  induction ss using DenotatorSketch.rec_1 (motive_1 := fun s =>
    k ∈ s.uses → k ∈ allReferences [s] ∨ k ∈ names [s]) with
  | use name =>
    rename_i h
    simpa [allReferences,references] using .inl (List.mem_singleton.mp h)
  | define name n parts ih =>
    rename_i h
    simpa [names,allDefinitions,definitions] using .inr (.inl (List.mem_singleton.mp h))
  | inline n parts ih =>
    rename_i h
    exact (ih h).imp ((within_parts n parts).references ·) ((within_parts n parts).names ·)
  | nil => cases h
  | cons s ss ihs ihss =>
    rcases List.mem_append.mp h with h | h
    · exact (ihs h).imp ((within_head s ss).references ·) ((within_head s ss).names ·)
    · exact (ihss h).imp ((within_tail s ss).references ·) ((within_tail s ss).names ·)

end DenotatorSketch

namespace Definitions
variable {root n : Node} {d : Definitions}

/-- All that is defined comes from nodes inside a tree. -/
structure Drawn (root : Node) (d : Definitions) : Prop where
  forms : ∀ f ∈ d.forms.sketches, f.DrawnFrom root
  sketches : DenotatorSketch.DrawnFrom root d.sketches
  leaves : ∀ k name m, (d.leaves k).get? name = some m → root.Inside m ∧ m.tag = k.tag

theorem drawn_empty (es : List ReadError) : Drawn root (empty.reportAll es) where
  forms := by simp [empty,reportAll,FormSketches.reportAll,FormSketches.empty]
  sketches := DenotatorSketch.drawnFrom_nil
  leaves k name m h := by cases k <;> cases h

theorem Drawn.of_leaves {d' : Definitions} (h : Drawn root d) (hl : ∀ k, d'.leaves k = d.leaves k)
    (hf : ∀ f ∈ d'.forms.sketches, f.DrawnFrom root)
    (hs : DenotatorSketch.DrawnFrom root d'.sketches) : Drawn root d' :=
  ⟨hf,hs,fun k name m hm => h.leaves k name m (hl k ▸ hm)⟩

theorem Drawn.reportAll (h : Drawn root d) (es : List ReadError) : Drawn root (d.reportAll es) :=
  h.of_leaves (fun k => by cases k <;> rfl) h.forms h.sketches

theorem Drawn.addLeaf (h : Drawn root d) (hn : root.Inside n) (k : LeafKind) :
    Drawn root (d.withLeaves k (Definitions.addLeaf k.symbol k.tag n (d.leaves k)).1) := by
  refine ⟨by simpa using h.forms,by simpa using h.sketches,fun j name m hm => ?_⟩
  rw [leaves_withLeaves] at hm
  split at hm <;> rename_i hj
  · subst hj
    unfold Definitions.addLeaf at hm
    generalize hleaf : leafOf j.tag n = leaf at hm
    obtain ⟨leaf,es⟩ := leaf
    cases leaf with
    | none => exact h.leaves j name m hm
    | some e =>
      obtain ⟨key,c⟩ := e
      dsimp only at hm
      split at hm
      · exact h.leaves j name m hm
      · rw [Table.get?_insert] at hm
        split at hm
        · cases hm
          have hvalue := congrArg Attempt.value? hleaf
          rw [leafOf,Attempt.value?_bind] at hvalue
          obtain ⟨_,-,hvalue⟩ := Option.bind_eq_some_iff.mp hvalue
          split at hvalue <;> cases hvalue
          obtain ⟨hmem,htag⟩ := Node.child?_eq_some ‹_›
          exact ⟨hn.child hmem,htag⟩
        · exact h.leaves j name m hm
  · exact h.leaves j name m hm

theorem Drawn.add (h : Drawn root d) (hn : root.Inside n) : Drawn root (d.add n) := by
  unfold Definitions.add
  split_ifs with _ ht
  · exact h.of_leaves (fun k => by cases k <;> rfl) (FormSketches.drawn_add true hn h.forms)
      h.sketches
  · exact h.of_leaves (fun k => by cases k <;> rfl) h.forms
      (h.sketches.append (DenotatorSketch.drawn_ofNode hn ht))
  · exact (h.addLeaf hn .module).reportAll _
  · exact (h.addLeaf hn .element).reportAll _
  · exact (h.addLeaf hn .morphism).reportAll _
  · exact h.reportAll _

theorem drawn_ofRoot (root : Node) : Drawn root (ofRoot root) := by
  have hfold (ns : List Node) (hns : ∀ n ∈ ns, root.Inside n) {d : Definitions}
      (h : Drawn root d) : Drawn root (ns.foldl Definitions.add d) := by
    induction ns generalizing d with
    | nil => exact h
    | cons n ns ih =>
      rw [List.forall_mem_cons] at hns
      exact ih hns.2 (h.add hns.1)
  rw [ofRoot_eq]
  refine hfold _ (fun n hn => ?_) (drawn_empty _)
  unfold sources at hn
  split at hn
  · exact .child .root hn
  · cases hn

theorem within_of_get? {name : String} {x : DenotatorDefinition}
    (hx : d.denotators.get? name = some x) :
    DenotatorSketch.Within [.inline x.node x.parts] d.sketches :=
  DenotatorSketch.within_of_mem_definitions (Table.mem_of_get?_ofList hx)

end Definitions
end AddressedForms
