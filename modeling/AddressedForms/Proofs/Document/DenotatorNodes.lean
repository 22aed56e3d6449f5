import AddressedForms.Document.Definitions
import AddressedForms.Proofs.Document.LeafNodes
import AddressedForms.Proofs.Document.Manuscript
import AddressedForms.Proofs.Lists
set_option autoImplicit false

/-!
The node of a denotator, and the sketch that is made of it: named factors become uses of their
names, all others are sketched in their places.
-/

namespace AddressedForms
namespace Manuscript
variable {g : FormGraph} {names : NamedLeaves} {d : Denotator} {n : Node}

/-- A factor stands in a node by its name, if it has one, or by a node of its own. -/
def IsFactorNode (g : FormGraph) (names : NamedLeaves) (f : Denotator) (c : Node) : Prop :=
  match f.name with
  | some k => c = .reference "Denotator" k
  | none => nodeOf g names f = .ok c

theorem nodesOf_cons_eq_ok {ds : List Denotator} {cs : List Node} :
    nodesOf g names (d :: ds) = .ok cs ↔
      ∃ c cs', IsFactorNode g names d c ∧ nodesOf g names ds = .ok cs' ∧ cs = c :: cs' := by
  have hrest (c : Node) : (nodesOf g names ds >>= fun cs' => .ok (c :: cs')) = .ok cs ↔
      ∃ cs', nodesOf g names ds = .ok cs' ∧ cs = c :: cs' := by
    simp only [Except.bind_eq_ok_iff,Except.ok.injEq,@eq_comm _ cs]
  rw [nodesOf]
  cases hname : d.name <;> refine Except.bind_eq_ok_iff.trans (exists_congr fun c => ?_) <;>
    rw [hrest c,exists_and_left,IsFactorNode,hname]
  simp only [Except.ok.injEq,@eq_comm _ c]

theorem nodesOf_eq_ok {ds : List Denotator} {cs : List Node} :
    nodesOf g names ds = .ok cs ↔ List.Forall₂ (IsFactorNode g names) ds cs := by
  induction ds generalizing cs with
  | nil => simp [nodesOf,eq_comm]
  | cons d ds ih => simp only [nodesOf_cons_eq_ok,List.forall₂_cons_left_iff,ih]

def headed (d : Denotator) (form : String) : Node :=
  let n := ((Node.leaf "Denotator").withAttr "type" d.kind.text).withAttr "form" form
  let n := match d.name with
    | some name => n.withAttr "name" name
    | none => n
  match d.index? with
  | some i => n.withAttr "index" (toString i)
  | none => n

/-- The children that are no denotators: the address, and the coordinate of a simple one. -/
def leafNodes (names : NamedLeaves) (d : Denotator) : List Node :=
  addressNodes names d.address ++ (match d.morphism? with
    | some f => [f.coordinateNode names d.address]
    | none => [])

theorem headNode_eq_ok : headNode g d = .ok n ↔ ∃ form, g.name? d.form = some form ∧
    n = match d.name with
      | some name => (((Node.leaf "Denotator").withAttr "type" d.kind.text).withAttr "form"
        form).withAttr "name" name
      | none => ((Node.leaf "Denotator").withAttr "type" d.kind.text).withAttr "form" form := by
  have hform (form : String) : formName g d.form = .ok form ↔ g.name? d.form = some form := by
    unfold formName
    cases g.name? d.form <;> simp
  rw [headNode,Except.bind_eq_ok_iff]
  refine exists_congr fun form => and_congr (hform form) ?_
  cases d.name <;> simp [eq_comm]

theorem nodeOf_eq_ok (h : nodeOf g names d = .ok n) : ∃ form cs, g.name? d.form = some form ∧
    List.Forall₂ (IsFactorNode g names) d.factors cs ∧
    n = (headed d form).withChildren (leafNodes names d ++ cs) := by
  have composite {ds : List Denotator} (hds : d.factors = ds) (hm : d.morphism? = none)
      (hi : d.index? = none) (hn : (do
        let n ← headNode g d
        let cs ← nodesOf g names ds
        Except.ok (n.withChildren (addressNodes names d.address ++ cs))) = Except.ok n) :
      ∃ form cs, g.name? d.form = some form ∧
        List.Forall₂ (IsFactorNode g names) d.factors cs ∧
        n = (headed d form).withChildren (leafNodes names d ++ cs) := by
    obtain ⟨m,hm',hn⟩ := Except.bind_eq_ok_iff.mp hn
    obtain ⟨form,hform,rfl⟩ := headNode_eq_ok.mp hm'
    obtain ⟨cs,hcs,hn⟩ := Except.bind_eq_ok_iff.mp hn
    refine ⟨form,cs,hform,hds ▸ nodesOf_eq_ok.mp hcs,?_⟩
    rw [← Except.ok.inj hn]
    simp [headed,leafNodes,hm,hi]
  cases d with
  | simple k f =>
    rw [nodeOf] at h
    obtain ⟨m,hm,h⟩ := Except.bind_eq_ok_iff.mp h
    obtain ⟨form,hform,rfl⟩ := headNode_eq_ok.mp hm
    refine ⟨form,[],hform,.nil,?_⟩
    rw [← Except.ok.inj h]
    simp [headed,leafNodes,Denotator.morphism?,Denotator.index?,Denotator.address,Denotator.head]
  | colimit k i f =>
    rw [nodeOf] at h
    obtain ⟨m,hm,h⟩ := Except.bind_eq_ok_iff.mp h
    obtain ⟨form,hform,hm⟩ := headNode_eq_ok.mp hm
    obtain ⟨c,hc,h⟩ : ∃ c, IsFactorNode g names f c ∧ (.ok ((m.withAttr "index"
        (toString i)).withChildren (addressNodes names k.address ++ [c])) :
          Except WriteError Node) = .ok n := by
      unfold IsFactorNode
      cases hname : f.name <;> simp only [hname] at h <;>
        obtain ⟨c,hc,h⟩ := Except.bind_eq_ok_iff.mp h
      · exact ⟨c,hc,h⟩
      · exact ⟨c,(Except.ok.inj hc).symm,h⟩
    refine ⟨form,[c],hform,.cons hc .nil,?_⟩
    rw [← Except.ok.inj h,hm]
    simp [headed,leafNodes,Denotator.morphism?,Denotator.index?,Denotator.address,Denotator.head]
  | limit k ds | power k ds | list k ds => exact composite rfl rfl rfl (by rwa [nodeOf] at h)

section Headed
variable (d : Denotator) (form : String)

@[simp] theorem tag_headed : (headed d form).tag = "Denotator" := by
  cases hn : d.name <;> cases hi : d.index? <;> simp [headed,hn,hi]

@[simp] theorem reference?_headed : (headed d form).reference? = none := by
  cases hn : d.name <;> cases hi : d.index? <;>
    simp [headed,hn,hi,Node.reference?,Node.attr?_withAttr]

theorem name?_headed : (headed d form).name? = d.name := by
  cases hn : d.name <;> cases hi : d.index? <;>
    simp [headed,hn,hi,Node.name?,Node.attr?_withAttr]

theorem type_headed : (headed d form).attr? "type" = some d.kind.text := by
  cases hn : d.name <;> cases hi : d.index? <;> simp [headed,hn,hi,Node.attr?_withAttr]

theorem form_headed : (headed d form).attr? "form" = some form := by
  cases hn : d.name <;> cases hi : d.index? <;> simp [headed,hn,hi,Node.attr?_withAttr]

theorem index_headed {i : Nat} (hi : d.index? = some i) :
    (headed d form).attr? "index" = some (toString i) := by
  cases hn : d.name <;> simp [headed,hn,hi]

end Headed

theorem IsFactorNode.tag {f : Denotator} {c : Node} (h : IsFactorNode g names f c) :
    c.tag = "Denotator" := by
  unfold IsFactorNode at h
  split at h
  · rw [h]; rfl
  · obtain ⟨form,cs,-,-,rfl⟩ := nodeOf_eq_ok h
    simp

theorem tag_of_mem_leafNodes {c : Node} (h : c ∈ leafNodes names d) :
    c.tag = "Address" ∨ c.tag = "Map" := by
  rcases List.mem_append.mp h with h | h
  · unfold addressNodes at h
    split at h
    · simp at h
    · rw [List.mem_singleton.mp h]
      exact .inl rfl
  · split at h
    · rw [List.mem_singleton.mp h]
      right
      rename_i f _
      unfold Morphism.coordinateNode
      cases f <;> simp
      split <;> simp
    · simp at h

end Manuscript

namespace DenotatorSketch

def partsOf (n : Node) : List DenotatorSketch := (ofNodes [] n.children).1

theorem ofNode_eq (taken : List String) (n : Node) : ofNode taken n =
    match n.reference? with
    | some name => (.use name,taken)
    | none =>
      match n.name? with
      | none => (.inline n (ofNodes taken n.children).1,(ofNodes taken n.children).2)
      | some name =>
        if name ∈ taken then (.inline n (ofNodes taken n.children).1,(ofNodes taken n.children).2)
        else (.define name n (ofNodes (name :: taken) n.children).1,
          (ofNodes (name :: taken) n.children).2) := by
  cases n; rw [ofNode]; rfl

theorem ofNodes_append_of_skipped (taken : List String) {ns : List Node}
    (h : ∀ n ∈ ns, n.tag ≠ "Denotator") (ms : List Node) :
    ofNodes taken (ns ++ ms) = ofNodes taken ms := by
  induction ns with
  | nil => rfl
  | cons n ns ih =>
    rw [List.cons_append,ofNodes,if_neg (h n List.mem_cons_self)]
    exact ih fun m hm => h m (List.mem_cons_of_mem _ hm)

theorem allDuplicates_eq (ss : List DenotatorSketch) :
    allDuplicates ss = ss.flatMap duplicates := by
  induction ss with
  | nil => rfl
  | cons s ss ih => rw [allDuplicates,ih,List.flatMap_cons]

theorem allDefinitions_eq (ss : List DenotatorSketch) :
    allDefinitions ss = ss.flatMap definitions := by
  induction ss with
  | nil => rfl
  | cons s ss ih => rw [allDefinitions,ih,List.flatMap_cons]

theorem allUses_eq (ss : List DenotatorSketch) : allUses ss = ss.flatMap uses := by
  induction ss with
  | nil => rfl
  | cons s ss ih => rw [allUses,ih,List.flatMap_cons]

def IsPart (g : FormGraph) (names : NamedLeaves) (f : Denotator) (s : DenotatorSketch) : Prop :=
  match f.name with
  | some k => s = .use k
  | none => ∃ n, Manuscript.nodeOf g names f = .ok n ∧ s = .inline n (partsOf n)

/-- What the sketches below the node of a denotator are. -/
structure Plain (g : FormGraph) (names : NamedLeaves) (d : Denotator) (n : Node) : Prop where
  sketched : ∀ taken, ofNodes taken n.children = (partsOf n,taken)
  parts : List.Forall₂ (IsPart g names) d.factors (partsOf n)
  duplicates : allDuplicates (partsOf n) = []
  definitions : allDefinitions (partsOf n) = []
  uses : ∀ k ∈ allUses (partsOf n), ∃ e ∈ Denotator.allNodes d.factors, e.name = some k

structure PlainPart (g : FormGraph) (names : NamedLeaves) (f : Denotator) (c : Node)
    (s : DenotatorSketch) : Prop where
  sketched : ∀ taken, ofNode taken c = (s,taken)
  part : IsPart g names f s
  duplicates : s.duplicates = []
  definitions : s.definitions = []
  uses : ∀ k ∈ s.uses, ∃ e ∈ f.nodes, e.name = some k

section Plain
variable {g : FormGraph} {names : NamedLeaves}

theorem exists_plainPart {f : Denotator} {c : Node} (hc : Manuscript.IsFactorNode g names f c)
    (hplain : ∀ n, Manuscript.nodeOf g names f = .ok n → Plain g names f n) :
    ∃ s, PlainPart g names f c s := by
  unfold Manuscript.IsFactorNode at hc
  cases hname : f.name with
  | some k =>
    rw [hname] at hc
    refine ⟨.use k,fun taken => by rw [hc,ofNode_eq]; simp,by simp [IsPart,hname],rfl,rfl,?_⟩
    intro k' hk
    rw [DenotatorSketch.uses,List.mem_singleton] at hk
    exact ⟨f,Denotator.self_mem_nodes f,by rw [hname,hk]⟩
  | none =>
    rw [hname] at hc
    obtain ⟨hsketched,-,hduplicates,hdefinitions,huses⟩ := hplain c hc
    obtain ⟨form,cs,-,-,he⟩ := Manuscript.nodeOf_eq_ok hc
    have href : c.reference? = none := he ▸ Manuscript.reference?_headed f form
    have hnone : c.name? = none := he ▸ (Manuscript.name?_headed f form).trans hname
    refine ⟨.inline c (partsOf c),fun taken => ?_,by simp [IsPart,hname,hc],?_,hdefinitions,
      fun k hk => ?_⟩
    · rw [ofNode_eq,href,hnone,hsketched taken]
    · simp [DenotatorSketch.duplicates,hnone,hduplicates]
    · obtain ⟨e,he,hek⟩ := huses k hk
      exact ⟨e,by rw [Denotator.nodes_eq]; exact List.mem_cons_of_mem _ he,hek⟩

theorem exists_plainParts {fs : List Denotator} {cs : List Node}
    (hcs : List.Forall₂ (Manuscript.IsFactorNode g names) fs cs)
    (hplain : ∀ f ∈ fs, ∀ n, Manuscript.nodeOf g names f = .ok n → Plain g names f n) :
    ∃ ss, (∀ taken, ofNodes taken cs = (ss,taken)) ∧
      List.Forall₂ (fun f s => ∃ c, PlainPart g names f c s) fs ss := by
  induction hcs with
  | nil => exact ⟨[],fun _ => rfl,.nil⟩
  | @cons f c fs cs hc _ ih =>
    obtain ⟨s,hs⟩ := exists_plainPart hc (hplain f List.mem_cons_self)
    obtain ⟨ss,hsketched,hparts⟩ := ih fun e he => hplain e (List.mem_cons_of_mem _ he)
    refine ⟨s :: ss,fun taken => ?_,.cons ⟨c,hs⟩ hparts⟩
    rw [ofNodes,if_pos hc.tag]
    simp only [hs.sketched taken,hsketched taken]

/-- A node that is written sketches as the tree it is written for, without definitions inside. -/
theorem plain_nodeOf {d : Denotator} {n : Node} (h : Manuscript.nodeOf g names d = .ok n) :
    Plain g names d n := by
  induction d using Denotator.factor_induction generalizing n with
  | h d ih =>
    obtain ⟨form,cs,-,hcs,rfl⟩ := Manuscript.nodeOf_eq_ok h
    obtain ⟨ss,hsketched,hparts⟩ := exists_plainParts hcs fun f hf n hn => ih f hf hn
    have hskip (taken : List String) :
        ofNodes taken (Manuscript.leafNodes names d ++ cs) = (ss,taken) := by
      refine (ofNodes_append_of_skipped taken (fun c hc ht => ?_) cs).trans (hsketched taken)
      rcases Manuscript.tag_of_mem_leafNodes hc with h | h <;> rw [h] at ht <;> simp at ht
    have hpartsOf : partsOf ((Manuscript.headed d form).withChildren
        (Manuscript.leafNodes names d ++ cs)) = ss := by
      rw [partsOf,Node.children_withChildren,hskip]
    have hall : ∀ s ∈ ss, ∃ f ∈ d.factors, ∃ c, PlainPart g names f c s := fun s hs =>
      exists_of_forall₂_right hparts hs
    refine ⟨fun taken => ?_,?_,?_,?_,fun k hk => ?_⟩
    · rw [Node.children_withChildren,hpartsOf,hskip taken]
    · rw [hpartsOf]
      exact hparts.imp fun _ _ ⟨_,hs⟩ => hs.part
    · rw [hpartsOf,allDuplicates_eq,List.flatMap_eq_nil_iff]
      intro s hs
      obtain ⟨f,-,c,hplain⟩ := hall s hs
      exact hplain.duplicates
    · rw [hpartsOf,allDefinitions_eq,List.flatMap_eq_nil_iff]
      intro s hs
      obtain ⟨f,-,c,hplain⟩ := hall s hs
      exact hplain.definitions
    · rw [hpartsOf,allUses_eq] at hk
      obtain ⟨s,hs,hk⟩ := List.mem_flatMap.mp hk
      obtain ⟨f,hf,c,hplain⟩ := hall s hs
      obtain ⟨e,he,hek⟩ := hplain.uses k hk
      exact ⟨e,Denotator.mem_allNodes.mpr ⟨f,hf,he⟩,hek⟩

end Plain

end DenotatorSketch

namespace Manuscript

theorem written_leafNodes {names : NamedLeaves} {d : Denotator} {c : Node}
    (h : c ∈ leafNodes names d) : names.Written c := by
  rcases List.mem_append.mp h with h | h
  · unfold addressNodes at h
    split at h
    · simp at h
    · rw [List.mem_singleton.mp h]
      have address := Module.written_node (Module.written_body names d.address)
      exact .body (by simp) (by simp [Node.reference?]) (by simpa using address)
  · split at h
    · rw [List.mem_singleton.mp h]
      exact Morphism.written_coordinateNode names _ _
    · simp at h

/-- The node of a denotator refers to the forms of its nodes, to the named ones below it, and to
named leaves. -/
theorem mem_references_nodeOf {g : FormGraph} {names : NamedLeaves} {d : Denotator} {n : Node}
    (h : nodeOf g names d = .ok n) {r : Symbol × String} (hr : r ∈ n.references) :
    (∃ e ∈ d.nodes, ∃ k, g.name? e.form = some k ∧ r = (.form,k)) ∨
      (∃ e ∈ Denotator.allNodes d.factors, ∃ k, e.name = some k ∧ r = (.denotator,k)) ∨
      names.Has r := by
  induction d using Denotator.factor_induction generalizing n with
  | h d ih =>
    obtain ⟨form,cs,hform,hcs,rfl⟩ := nodeOf_eq_ok h
    have hown : ((headed d form).withChildren (leafNodes names d ++ cs)).ownReferences =
        [(.form,form)] := by
      have href : ((headed d form).withChildren (leafNodes names d ++ cs)).reference? = none :=
        reference?_headed d form
      have hattr : ((headed d form).withChildren (leafNodes names d ++ cs)).attr? "form" =
        some form := form_headed d form
      simp [Node.ownReferences,href,hattr]
    rw [Node.references_eq,hown,List.mem_append,Node.allReferences_eq,
      Node.children_withChildren] at hr
    rcases hr with hr | hr
    · exact .inl ⟨d,Denotator.self_mem_nodes d,form,hform,List.mem_singleton.mp hr⟩
    · obtain ⟨c,hc,hrc⟩ := List.mem_flatMap.mp hr
      rcases List.mem_append.mp hc with hc | hc
      · exact .inr (.inr ((written_leafNodes hc).has_references r hrc))
      · obtain ⟨f,hf,hfc⟩ := exists_of_forall₂_right hcs hc
        unfold IsFactorNode at hfc
        split at hfc <;> rename_i hname
        · rename_i k
          rw [hfc,@Node.references_reference "Denotator" .denotator (by decide),
            List.mem_singleton] at hrc
          exact .inr (.inl ⟨f,Denotator.mem_allNodes_of_mem hf,k,hname,hrc⟩)
        · have below {e : Denotator} (he : e ∈ f.nodes) : e ∈ Denotator.allNodes d.factors :=
            Denotator.mem_allNodes.mpr ⟨f,hf,he⟩
          rcases ih f hf hfc hrc with ⟨e,he,k,hk,hrk⟩ | ⟨e,he,k,hk,hrk⟩ | hl
          · left
            refine ⟨e,?_,k,hk,hrk⟩
            rw [Denotator.nodes_eq]
            exact List.mem_cons_of_mem _ (below he)
          · refine .inr (.inl ⟨e,below ?_,k,hk,hrk⟩)
            rw [Denotator.nodes_eq]
            exact List.mem_cons_of_mem _ he
          · exact .inr (.inr hl)

end Manuscript
end AddressedForms
