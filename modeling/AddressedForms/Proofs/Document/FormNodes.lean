import AddressedForms.Document.Definitions
import AddressedForms.Proofs.Document.LeafNodes
import AddressedForms.Proofs.Document.Manuscript
import AddressedForms.Proofs.Lists
set_option autoImplicit false

/-!
The node of a form, and the sketch that is made of it.
-/

namespace AddressedForms

/-- A sketch with all that a form is written with: names for its sub-forms and a node for its
module. -/
structure FormSketch.Outlines (g : FormGraph) (names : NamedLeaves) (f : Form)
    (s : FormSketch) : Prop where
  name : s.name = f.name
  kind : s.kind = f.kind
  parts : List.Forall₂ (fun id k => g.name? id = some k) f.subForms s.parts
  labels : s.labels = f.labels.map Labels.names
  module : s.module = f.module?.map (Module.node names)
  top : s.top = true
  sound : s.sound = true

namespace Manuscript

theorem formReference_eq_ok {g : FormGraph} {id : FormId} {n : Node} :
    formReference g id = .ok n ↔ ∃ k, g.name? id = some k ∧ n = .reference "Form" k := by
  unfold formReference formName
  cases h : g.name? id with
  | none => simp [bind,Except.bind]
  | some k => simp [bind,Except.bind,eq_comm]

theorem formReferences_eq_ok {g : FormGraph} {ids : List FormId} {ns : List Node}
    (h : ids.mapM (formReference g) = .ok ns) : ∃ ks,
      List.Forall₂ (fun id k => g.name? id = some k) ids ks ∧
      ns = ks.map (Node.reference "Form") := by
  have hrel := mapM_eq_ok_iff.mp h
  clear h
  induction hrel with
  | nil => exact ⟨[],.nil,rfl⟩
  | cons hr _ ih =>
    obtain ⟨ks,hks,he⟩ := ih
    obtain ⟨k,hk,hn⟩ := formReference_eq_ok.mp hr
    exact ⟨k :: ks,.cons hk hks,by rw [hn,he]; rfl⟩

def labelsNodes (f : Form) : List Node :=
  match f.labels with
  | some l => [labelsNode l]
  | none => []

theorem formNode_eq_ok {g : FormGraph} {names : NamedLeaves} {f : Form} {n : Node}
    (h : formNode g names f = .ok n) : ∃ parts ks,
      n = (((Node.leaf "Form").withAttr "name" f.name).withAttr "type" f.kind.text).withChildren
        (parts ++ labelsNodes f) ∧
      List.Forall₂ (fun id k => g.name? id = some k) f.subForms ks ∧
      ((∃ m, f.module? = some m ∧ f.kind = .simple ∧ ks = [] ∧ parts = [m.node names]) ∨
        (f.module? = none ∧ f.kind ≠ .simple ∧ parts = ks.map (Node.reference "Form"))) := by
  unfold formNode at h
  cases hb : f.body with
  | simple m =>
    rw [hb] at h
    refine ⟨[m.node names],[],(Except.ok.inj h).symm,?_,.inl ⟨m,?_,?_,rfl,rfl⟩⟩ <;>
      simp [Form.subForms,Form.module?,Form.kind,hb,Body.subForms,Body.kind]
  | limit _ | colimit _ | power _ | list _ =>
    have hsubs : f.body.subForms = f.subForms := rfl
    simp only [hb] at h
    rw [← hb,hsubs] at h
    obtain ⟨parts,hp,h⟩ := Except.bind_eq_ok_iff.mp h
    obtain ⟨ks,hks,he⟩ := formReferences_eq_ok hp
    exact ⟨parts,ks,(Except.ok.inj h).symm,hks,.inr ⟨by simp [Form.module?,hb],
      by simp [Form.kind,hb,Body.kind],he⟩⟩

end Manuscript

namespace FormSketches

theorem add_eq (top : Bool) (n : Node) (s : FormSketches) : add top n s =
    if n.reference?.isSome then s
    else match FormSketch.header n with
    | ⟨none,es⟩ => s.reportAll es
    | ⟨some (name,kind),_⟩ =>
      let inner := if kind = .simple then s else addParts n.children s
      (inner.reportAll (FormSketch.faults n name kind)).push
        (FormSketch.ofNode top n name kind) := by
  cases n; rw [add]; rfl

theorem addParts_append (ns ms : List Node) (s : FormSketches) :
    addParts (ns ++ ms) s = addParts ms (addParts ns s) := by
  induction ns generalizing s with
  | nil => rfl
  | cons n ns ih =>
    rw [List.cons_append,addParts,addParts]
    split <;> exact ih _

theorem addParts_references (ks : List String) (s : FormSketches) :
    addParts (ks.map (Node.reference "Form")) s = s := by
  induction ks with
  | nil => rfl
  | cons k ks ih =>
    rw [List.map_cons,addParts,if_pos (by simp [Node.isForm]),add_eq,if_pos (by simp),ih]

theorem addParts_labels (f : Form) (s : FormSketches) :
    addParts (Manuscript.labelsNodes f) s = s := by
  unfold Manuscript.labelsNodes
  split
  · rw [addParts,if_neg (by simp [Node.isForm,Manuscript.labelsNode]),addParts]
  · rfl

end FormSketches

namespace FormSketch

theorem labelNames_of_child {n : Node} {f : Form}
    (h : n.child? "Labels" = f.labels.map Manuscript.labelsNode) :
    labelNames n = .success (f.labels.map Labels.names) := by
  unfold labelNames
  rw [h]
  cases f.labels with
  | none => rfl
  | some l =>
    have hname (k : String) : (Manuscript.labelNode k).name? = some k := by
      simp [Manuscript.labelNode,Node.name?]
    have htag : ∀ c ∈ l.names.map Manuscript.labelNode, c.tag = "Label" := by
      intro c hc
      obtain ⟨k,-,rfl⟩ := List.mem_map.mp hc
      rfl
    have hchildren : (Manuscript.labelsNode l).childrenTagged "Label" =
        l.names.map Manuscript.labelNode :=
      List.filter_eq_self.mpr fun c hc => decide_eq_true (htag c hc)
    have hnames : (l.names.map Manuscript.labelNode).mapM Node.name? = some l.names := by
      rw [mapM_eq_some_iff]
      induction l.names with
      | nil => exact .nil
      | cons k ks ih => exact .cons (hname k) ih
    simp only [Option.map_some]
    rw [hchildren,hnames]

theorem faults_eq_nil {n : Node} {f : Form} {ks : List String}
    (hm : f.kind = .simple → (n.child? "Module").isSome)
    (hlabels : n.child? "Labels" = f.labels.map Manuscript.labelsNode)
    (hparts : partNames n f.kind = ks.map some) (hlen : ks.length = f.count)
    (hne : f.subForms = [] → f.kind = .simple)
    (hl : ∀ l, f.labels = some l →
      (f.kind = .limit ∨ f.kind = .colimit) ∧ l.names.length = f.count) :
    faults n f.name f.kind = [] := by
  have hcount : ((partNames n f.kind).filterMap id).length = f.count := by
    rw [hparts,← hlen]
    simp [List.filterMap_map]
  have hcontent : contentFaults n f.name f.kind f.count = [] := by
    have hfits : countFits f.kind f.count := by
      cases hb : f.body with
      | simple m => simp [Form.kind,hb,Body.kind,countFits]
      | limit _ | colimit _ =>
        have : f.count ≠ 0 := fun h0 => by
          have := hne (List.length_eq_zero_iff.mp h0)
          simp [Form.kind,hb,Body.kind] at this
        simpa [Form.kind,hb,Body.kind,countFits] using this
      | power _ | list _ =>
        simp [Form.kind,hb,Body.kind,countFits,Form.count,Form.subForms,Body.subForms]
    unfold contentFaults
    have hmodule : ¬ (f.kind = .simple ∧ (n.child? "Module").isNone) := by
      rintro ⟨hk,hnone⟩
      have := hm hk
      simp_all
    rw [if_neg hmodule,hfits]
    rfl
  have hlabel : labelFaults n f.name f.kind f.count = [] := by
    unfold labelFaults
    rw [labelNames_of_child hlabels]
    cases hs : f.labels with
    | none => rfl
    | some l =>
      obtain ⟨hk,hc⟩ := hl l hs
      have hfits : labelsFit f.kind f.count l.names := by
        rcases hk with hk | hk <;> simp [labelsFit,hk,hc,l.distinct]
      simp [Attempt.success,hfits]
  unfold faults
  dsimp only
  rw [hcount,hcontent,hlabel]
  rfl

end FormSketch

namespace Manuscript

/-- What is read off the node of a form, given the names of its sub-forms. -/
structure ReadsAs (names : NamedLeaves) (f : Form) (ks : List String) (n : Node) : Prop where
  header : FormSketch.header n = .success (f.name,f.kind)
  reference : n.reference? = none
  labels : n.child? "Labels" = f.labels.map labelsNode
  module : (if f.kind = .simple then n.child? "Module" else none) =
    f.module?.map (Module.node names)
  partNames : FormSketch.partNames n f.kind = ks.map some
  inner : ∀ s, (if f.kind = .simple then s else FormSketches.addParts n.children s) = s

theorem readsAs_formNode {g : FormGraph} {names : NamedLeaves} {f : Form} {n : Node}
    (h : formNode g names f = .ok n) : ∃ ks,
      List.Forall₂ (fun id k => g.name? id = some k) f.subForms ks ∧ ReadsAs names f ks n := by
  obtain ⟨parts,ks,rfl,hks,hparts⟩ := formNode_eq_ok h
  generalize hn : (((Node.leaf "Form").withAttr "name" f.name).withAttr "type"
    f.kind.text).withChildren (parts ++ labelsNodes f) = n
  have hname : n.attr? "name" = some f.name := by simp [← hn,Node.attr?_withAttr]
  have htype : n.attr? "type" = some f.kind.text := by simp [← hn]
  have hchildren : n.children = parts ++ labelsNodes f := by rw [← hn]; rfl
  refine ⟨ks,hks,?_,?_,?_,?_,?_,fun s => ?_⟩
  · simp [FormSketch.header,Node.require_of_attr? hname,Node.require_of_attr? htype,
      Attempt.success_bind]
  · simp [← hn,Node.reference?,Node.attr?_withAttr]
  · have hnot : parts.find? (fun c => c.tag = "Labels") = none := by
      rcases hparts with ⟨m,-,-,-,rfl⟩ | ⟨-,-,rfl⟩ <;> simp
    rw [Node.child?,hchildren,List.find?_append,hnot,labelsNodes]
    cases f.labels <;> simp [labelsNode]
  · rcases hparts with ⟨m,hm,hk,-,rfl⟩ | ⟨hm,hk,-⟩
    · simp [hm,hk,Node.child?,hchildren]
    · simp [hm,hk]
  · rcases hparts with ⟨m,-,hk,rfl,-⟩ | ⟨-,hk,rfl⟩
    · simp [FormSketch.partNames,hk]
    · have hforms : (ks.map (Node.reference "Form")).filter Node.isForm =
          ks.map (Node.reference "Form") :=
        List.filter_eq_self.mpr fun c hc => by
          obtain ⟨k,-,rfl⟩ := List.mem_map.mp hc
          simp [Node.isForm]
      have hlabels : (labelsNodes f).filter Node.isForm = [] := by
        unfold labelsNodes
        split <;> simp [labelsNode,Node.isForm]
      rw [FormSketch.partNames,if_neg hk,hchildren,List.filter_append,hforms,hlabels,
        List.append_nil,List.map_map]
      exact List.map_congr_left fun k _ => by simp [FormSketch.partName?]
  · rcases hparts with ⟨m,-,hk,-⟩ | ⟨-,hk,rfl⟩
    · exact if_pos hk
    · rw [if_neg hk,hchildren,FormSketches.addParts_append,FormSketches.addParts_references,
        FormSketches.addParts_labels]

theorem add_formNode {g : FormGraph} {names : NamedLeaves} {f : Form} {n : Node}
    (h : formNode g names f = .ok n) (hne : f.subForms = [] → f.kind = .simple)
    (hl : ∀ l, f.labels = some l →
      (f.kind = .limit ∨ f.kind = .colimit) ∧ l.names.length = f.count)
    {s : FormSketches} (hs : s.named? f.name = none) : ∃ sketch, sketch.Outlines g names f ∧
      FormSketches.add true n s = {s with sketches := s.sketches ++ [sketch]} := by
  obtain ⟨ks,hks,hreads⟩ := readsAs_formNode h
  have hmodule (hk : f.kind = .simple) : (n.child? "Module").isSome := by
    have hm := hreads.module
    rw [if_pos hk] at hm
    rw [hm]
    cases hb : f.body <;> simp_all [Form.kind,Form.module?,Body.kind]
  have hfaults := FormSketch.faults_eq_nil hmodule hreads.labels hreads.partNames
    hks.length_eq.symm hne hl
  refine ⟨FormSketch.ofNode true n f.name f.kind,⟨rfl,rfl,?_,?_,hreads.module,rfl,?_⟩,?_⟩
  · simpa [FormSketch.ofNode,hreads.partNames,List.filterMap_map] using hks
  · simp [FormSketch.ofNode,FormSketch.labelNames_of_child hreads.labels,Attempt.success]
  · simp [FormSketch.ofNode,hfaults,hreads.partNames]
  · have hpush : (s.reportAll []).named? (FormSketch.ofNode true n f.name f.kind).name = none := hs
    rw [FormSketches.add_eq,hreads.reference,hreads.header]
    simp only [Option.isSome_none,Bool.false_eq_true,if_false,Attempt.success,hreads.inner,hfaults]
    rw [FormSketches.push,hpush]
    simp [FormSketches.reportAll]

theorem mem_references_formNode {g : FormGraph} {names : NamedLeaves} {f : Form} {n : Node}
    (h : formNode g names f = .ok n) {r : Symbol × String} (hr : r ∈ n.references) :
    (∃ sub ∈ f.subForms, ∃ k, g.name? sub = some k ∧ r = (.form,k)) ∨ names.Has r := by
  obtain ⟨parts,ks,rfl,hks,hparts⟩ := formNode_eq_ok h
  have hown : Node.ownReferences ((((Node.leaf "Form").withAttr "name" f.name).withAttr "type"
      f.kind.text).withChildren (parts ++ labelsNodes f)) = [] :=
    Node.ownReferences_eq_nil (by simp [Node.reference?,Node.attr?_withAttr]) (by simp)
  have hlabels : ∀ c ∈ labelsNodes f, c.references = [] := by
    intro c hc
    unfold labelsNodes at hc
    split at hc
    · rw [List.mem_singleton.mp hc,labelsNode,Node.references_eq,Node.ownReferences_eq_nil
        (by simp [Node.reference?]) (by simp),Node.allReferences_eq]
      simp only [Node.children_withChildren,List.nil_append,List.flatMap_eq_nil_iff]
      intro x hx
      obtain ⟨k,-,rfl⟩ := List.mem_map.mp hx
      rw [labelNode,Node.references_eq,Node.ownReferences_eq_nil
        (by simp [Node.reference?,Node.attr?_withAttr]) (by simp)]
      rfl
    · simp at hc
  rw [Node.references_eq,hown,List.nil_append,Node.allReferences_eq,
    Node.children_withChildren] at hr
  obtain ⟨c,hc,hrc⟩ := List.mem_flatMap.mp hr
  rcases List.mem_append.mp hc with hc | hc
  · rcases hparts with ⟨m,-,-,-,rfl⟩ | ⟨-,-,rfl⟩
    · rw [List.mem_singleton.mp hc] at hrc
      exact .inr ((Module.written_node (Module.written_body names m)).has_references r hrc)
    · obtain ⟨k,hk,rfl⟩ := List.mem_map.mp hc
      rw [@Node.references_reference "Form" .form (by decide),List.mem_singleton] at hrc
      obtain ⟨sub,hsub,hname⟩ := exists_of_forall₂_right hks hk
      exact .inl ⟨sub,hsub,k,hname,hrc⟩
  · rw [hlabels c hc] at hrc
    simp at hrc

end Manuscript
end AddressedForms
