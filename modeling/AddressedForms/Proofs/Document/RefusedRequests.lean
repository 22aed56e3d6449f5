import AddressedForms.Proofs.Document.WholeForms
import AddressedForms.Proofs.Repository.Idempotence
set_option autoImplicit false

/-!
Documents of requests that may have been refused. On a cycle a form is written before its parts; if
one of these is refused then, the form stays, and its node refers to nothing, or to another form of
that name.
-/

namespace AddressedForms

def Outcome.Recovers (o : Outcome) (g : FormGraph) (name : String) (id : FormId) : Prop :=
  ∃ new, (name,new) ∈ o.symbols.forms ∧ g.sameForm new id

namespace Manuscript
variable {g : FormGraph} {es : List Entry} {m : Manuscript}

def SelfContained (m : Manuscript) : Prop :=
  ∀ k, (.form,k) ∈ m.node.references → m.writtenForms.contains k

def Finished (m : Manuscript) : Prop :=
  ∀ name id, m.writtenForms.get? name = some id → ∀ sub ∈ m.forms.subForms id, m.HasForm sub

section Parts
variable (h : Compiled g es m)
include h

theorem Compiled.exists_formNode {id : FormId} (hid : .form id ∈ es) :
    ∃ names f n, g.get? id = some f ∧ formNode g names f = .ok n ∧ n ∈ m.nodes := by
  induction h with
  | empty => simp at hid
  | @snoc es m k e hm hs ih =>
    rcases List.mem_append.mp hid with hid | hid
    · obtain ⟨names,f,n,hf,hn,hmem⟩ := ih hid
      obtain ⟨c,hc⟩ := hs.exists_node
      exact ⟨names,f,n,hf,hn,by simp [hc,hmem]⟩
    · cases List.mem_singleton.mp hid
      cases hs with
      | @form _ f n hf hnew hn =>
        rw [hm.forms_eq] at hf hn
        exact ⟨m.names,f,n,hf,hn,by simp [push]⟩

theorem Compiled.exists_reference {name : String} {id sub : FormId}
    (hid : m.writtenForms.get? name = some id) (hs : sub ∈ g.subForms id) :
    ∃ k, g.name? sub = some k ∧ (.form,k) ∈ m.node.references := by
  obtain ⟨names,f,n,hf,hn,hmem⟩ := h.exists_formNode ((h.writtenForms_iff name id).mp hid).1
  rw [FormGraph.subForms_of_get? hf] at hs
  obtain ⟨parts,ks,rfl,hks,⟨-,-,-,rfl,-⟩ | ⟨-,-,rfl⟩⟩ := formNode_eq_ok hn
  · rw [List.forall₂_nil_right_iff.mp hks] at hs
    cases hs
  · obtain ⟨k,hk,hname⟩ := exists_of_forall₂_left hks hs
    refine ⟨k,hname,Node.references_child (c := _) (by simpa [node] using hmem) ?_⟩
    refine Node.references_child (c := .reference "Form" k) ?_ ?_
    · simpa using .inl ⟨k,hk,rfl⟩
    · rw [@Node.references_reference "Form" .form (by decide)]
      exact List.mem_singleton_self _

end Parts

theorem Attempted.complete (h : Attempted g es m) (hf : m.Finished) : Complete g es m where
  forms id hid sub hs := by
    obtain ⟨-,f,-,hget,-⟩ := h.compiled.exists_formNode hid
    have hwritten := (h.compiled.writtenForms_iff _ id).mpr ⟨hid,_,hget,rfl⟩
    exact hf _ id hwritten sub (h.compiled.forms_eq.symm ▸ hs)
  denotators := h.denotators

section Recovered
variable (hm : Compiled g es m) (hg : g.Sound) (hmp : g.ModulesProper) (c : Catalogue)
include hm hg hmp

theorem Compiled.plans_of_selfContained (hs : m.SelfContained) {p : FormPlan}
    (hp : p ∈ m.definitions.plans .builtins c) :
    ∃ id f, m.writtenForms.get? p.name = some id ∧ g.get? id = some f ∧ FormPlan.Plans g f p := by
  obtain ⟨s,hmem,hsp⟩ := FormPlan.mem_ofSketches hp
  obtain ⟨id,f,hid,hf,hplans⟩ := hm.exists_plan hg hmp c hmem
  obtain ⟨q,hq,hplan⟩ := hplans fun x hx k hk => by
    obtain ⟨k',hk',href⟩ := hm.exists_reference hid (by rwa [FormGraph.subForms_of_get? hf])
    cases hk.symm.trans hk'
    exact hs k href
  have hvalue : (FormPlan.ofSketch (m.definitions.scope .builtins) c m.definitions.forms s).value? =
      some p := hsp
  rw [hq] at hvalue
  cases hvalue
  obtain ⟨-,_,_,-,-,rfl⟩ := FormPlan.ofSketch_eq_some hsp
  exact ⟨id,f,hid,hf,hplan⟩

theorem Compiled.finished_of_similar
    (hc : ∀ name id, c.forms.get? name = some id → g.contains id) (hs : m.SelfContained)
    (hr : ∀ name id, m.writtenForms.get? name = some id →
      ∃ new, (m.definitions.built .builtins c g).table.get? name = some (.value new) ∧
        (m.definitions.built .builtins c g).graph.Similar id new) : m.Finished := by
  have hretains := hm.retains_built hg c hc
  intro name id hid sub hsub
  rw [hm.forms_eq] at hsub
  obtain ⟨new,hnew,hsim⟩ := hr name id hid
  obtain ⟨p,hp,rfl,-⟩ := (Definitions.get?_built m.drawn_definitions
    ((hm.gathered hg).nodup_sketchNames hm) hc).mp hnew
  obtain ⟨id',f,hid',hf,hplan⟩ := hm.plans_of_selfContained hg hmp c hs hp
  cases hid.symm.trans hid'
  obtain ⟨new',e,hnew',he,-,hbody⟩ := hm.exists_built hg c hc hp hplan
  cases hnew.symm.trans hnew'
  obtain ⟨f',hf',-,hback⟩ := hsim.symm.exists_form he
  cases ((hretains.get? (FormGraph.contains_of_get? hf)).trans hf).symm.trans hf'
  -- Each part is similar to what its name stands for, and so to what was written under the name.
  rw [FormGraph.subForms_of_get? hf] at hsub
  obtain ⟨y,⟨k,hk,hky⟩,hys⟩ := List.forall₂_same.mp (hbody.comp hback).subForms sub hsub
  obtain ⟨k',hk',href⟩ := hm.exists_reference hid (by rwa [FormGraph.subForms_of_get? hf])
  cases hk.symm.trans hk'
  obtain ⟨held,hheld⟩ := Table.exists_of_contains (hs k href)
  obtain ⟨y',hky',hsim'⟩ := hr k held hheld
  cases hky.symm.trans hky'
  obtain ⟨-,e',he',-⟩ := (hm.writtenForms_iff k held).mp hheld
  refine (hm.hasForm_iff hg.namesUnique).mpr ⟨k,held,hheld,?_⟩
  exact (hretains.similar_iff hg (FormGraph.contains_of_get? he') (hg.issued id f hf sub hsub)).mp
    (hsim'.trans hys)

end Recovered
end Manuscript

section Reader
variable {a : Reader} {r : Repository} (hr : r.Reachable) (root : Node)
include hr

theorem Reader.similar_readNode {x y : FormId} :
    let b := (Definitions.ofRoot root).built a.vocabulary
      (.ofRepository r a.settings.catalogFallback) r.forms
    b.graph.contains x → b.graph.contains y →
      ((a.readNode root r).2.2.forms.Similar x y ↔ b.graph.Similar x y) := by
  intro b hx hy
  obtain ⟨hyes,hno⟩ := a.readNode_entered root hr
  have hread := (Repository.follows_ofNode a.vocabulary
    (.ofRepository r a.settings.catalogFallback) root r).forms.reachable hr.forms
  by_cases hreg : a.Registers (some root) r
  · obtain ⟨hs,hentered⟩ := hyes hreg
    rw [hs]
    exact (hentered.marks.coincide hread.sound).similar_iff hx hy
  · rw [hno hreg]
    exact .rfl

theorem Reader.recovers_iff (name : String) {id : FormId} (hid : r.forms.contains id) :
    let b := (Definitions.ofRoot root).built a.vocabulary
      (.ofRepository r a.settings.catalogFallback) r.forms
    (a.readNode root r).1.Recovers (a.readNode root r).2.2.forms name id ↔
      ∃ new, b.table.get? name = some (.value new) ∧ b.graph.Similar id new := by
  intro b
  have hc := (hr.catalogue a.settings.catalogFallback).forms
  have hdrawn := Definitions.drawn_ofRoot root
  have hnames := (Definitions.collects_ofRoot root).forms
  have hreachable : (a.readNode root r).2.2.forms.Reachable :=
    (Repository.follows_readNode? a (some root) r).forms.reachable hr.forms
  have hold : b.graph.contains id :=
    FormGraph.Retains.contains (Definitions.extended hdrawn hnames hc).old hid
  have hmem (new : FormId) : (name,new) ∈ (a.readNode root r).1.symbols.forms ↔
      b.table.get? name = some (.value new) := by
    rw [(a.readNode_fields root r).2.2,Reading.ofNode_eq]
    exact ⟨Resolution.get?_of_mem_values,Resolution.mem_values⟩
  refine exists_congr fun new => (and_congr_left' (hmem new)).trans (and_congr_right fun hnew => ?_)
  obtain ⟨p,-,-,-,f,hf,-⟩ := Definitions.exists_form hdrawn hnames hc hnew
  rw [FormGraph.sameForm_iff_similar hreachable.sound.namesUnique,
    Reader.similar_readNode hr root (FormGraph.contains_of_get? hf) hold]
  exact ⟨.symm,.symm⟩

end Reader

/-- Whatever is requested, and whether or not it is refused: the document is self-contained and all
forms in it are read back as they were just if all parts of them are in it. A form that is written
whole is read back in any case; and what is missing of the others lies on a cycle with them. -/
theorem Reader.readNode_attemptAll {a : Reader} {r : Repository} (hr : r.Reachable)
    (hp : r.forms.ModulesProper) (ha : a.vocabulary = .builtins) (asked : List Entry) :
    let m := (Manuscript.empty r.forms).attemptAll asked
    let o := (a.readNode m.node r).1
    let g := (a.readNode m.node r).2.2.forms
    (m.SelfContained ∧ (∀ name id, m.writtenForms.get? name = some id → o.Recovers g name id) ↔
      m.Finished) ∧
    ∀ name id, m.writtenForms.get? name = some id → (m.Whole id → o.Recovers g name id) ∧
      ∀ sub ∈ r.forms.subForms id, m.HasForm sub ∨
        ∃ c : Cycle FormId, id ∈ c ∧ sub ∈ c ∧ c.Chain (Walk.Edge r.forms.subForms) := by
  intro m o g
  obtain ⟨es,h⟩ := (Manuscript.attempted_empty r.forms).attemptAll asked
  have hm : Manuscript.Compiled r.forms es m := h.compiled
  have hg := hr.forms.sound
  let c := Catalogue.ofRepository r a.settings.catalogFallback
  have hc := (hr.catalogue a.settings.catalogFallback).forms
  have hwritten {name : String} {id : FormId} (hid : m.writtenForms.get? name = some id) :
      .form id ∈ es ∧ r.forms.contains id := by
    obtain ⟨hmem,f,hf,-⟩ := (hm.writtenForms_iff name id).mp hid
    exact ⟨hmem,FormGraph.contains_of_get? hf⟩
  have hrecovers {name : String} {id : FormId} (hid : m.writtenForms.get? name = some id) :
      o.Recovers g name id ↔
        ∃ new, (m.definitions.built .builtins c r.forms).table.get? name = some (.value new) ∧
          (m.definitions.built .builtins c r.forms).graph.Similar id new := by
    have hiff := Reader.recovers_iff (a := a) hr m.node name (hwritten hid).2
    rwa [m.ofRoot_node,ha] at hiff
  have hwhole {name : String} {id : FormId} (hid : m.writtenForms.get? name = some id)
      (hw : m.Whole id) : o.Recovers g name id :=
    (hrecovers hid).mpr (hm.exists_similar_of_whole hg hp c hc hid hw)
  refine ⟨⟨fun hall => ?_,fun hf => ⟨fun k hk => ?_,fun name id hid => hwhole hid ?_⟩⟩,
    fun name id hid => ⟨hwhole hid,fun sub hs => ?_⟩⟩
  · exact hm.finished_of_similar hg hp c hc hall.1 fun name id hid =>
      (hrecovers hid).mp (hall.2 name id hid)
  · exact hm.means (h.complete hf) hk
  · refine hm.whole_of_parts hg.namesUnique (fun k held hheld sub hs => ?_) ?_
    · exact hf k held hheld sub (hm.forms_eq.symm ▸ hs)
    · exact (hm.hasForm_iff hg.namesUnique).mpr ⟨name,id,hid,.refl _ _⟩
  · exact (h.forms id (hwritten hid).1 sub hs).imp_right (Walk.exists_common_cycle hs)

/-- A cycle through two forms, of which the first has the name of a form that is not on it. -/
def Repository.namesakes : Repository :=
  empty.run [.add "A" (.simple .z),.declare "A" .list,.add "B" (.list ⟨1⟩),
    .define ⟨1⟩ (.list ⟨2⟩) none]

theorem Repository.slots_namesakes : namesakes.forms.slots =
    [.defined ⟨"A",.simple .z,none,false⟩,.defined ⟨"A",.list ⟨2⟩,none,false⟩,
      .defined ⟨"B",.list ⟨1⟩,none,false⟩] := by cbv

theorem Repository.modulesProper_namesakes : namesakes.forms.ModulesProper := by
  refine FormGraph.modulesProper_of_slots fun f x hf hx => ?_
  rw [slots_namesakes] at hf
  simp only [List.mem_cons,Slot.defined.injEq,List.not_mem_nil,or_false] at hf
  rcases hf with rfl | rfl | rfl <;> cases hx
  rfl

/-- What comes of writing the first of these forms, and then the second, which is refused when the
third has been written as a part of it. -/
def Manuscript.namesakes : Manuscript :=
  (empty Repository.namesakes.forms).attemptAll [.form ⟨0⟩,.form ⟨1⟩]

/-- The third form is read without errors, as a list of the first. -/
theorem Reader.readNode_namesakes :
    let o := (readNode default Manuscript.namesakes.node .namesakes).1
    let g := (readNode default Manuscript.namesakes.node .namesakes).2.2.forms
    o.isSuccess ∧ Manuscript.namesakes.SelfContained ∧
      Manuscript.namesakes.writtenForms.get? "B" = some ⟨2⟩ ∧ o.Recovers g "A" ⟨0⟩ ∧
      ¬ o.Recovers g "B" ⟨2⟩ := by
  have hclean : (readNode default Manuscript.namesakes.node .namesakes).1.isSuccess := by cbv
  have hentries : Manuscript.namesakes.writtenForms.entries = [("A",⟨0⟩),("B",⟨2⟩)] := by cbv
  have hA : Manuscript.namesakes.writtenForms.get? "A" = some ⟨0⟩ :=
    Table.get?_of_mem_entries (by simp [hentries])
  have hB : Manuscript.namesakes.writtenForms.get? "B" = some ⟨2⟩ :=
    Table.get?_of_mem_entries (by simp [hentries])
  have hforms : Manuscript.namesakes.forms = Repository.namesakes.forms := by
    obtain ⟨es,h⟩ := (Manuscript.attempted_empty Repository.namesakes.forms).attemptAll
      [.form ⟨0⟩,.form ⟨1⟩]
    exact h.compiled.forms_eq
  have hself : Manuscript.namesakes.SelfContained := by
    have hrefs : Manuscript.namesakes.node.references = [(.form,"A")] := by cbv
    intro k hk
    rw [hrefs] at hk
    cases List.mem_singleton.mp hk
    exact Table.contains_of_get? hA
  have hget {i : Nat} {f : Form} (hf : Repository.namesakes.forms.slots[i]? = some (.defined f)) :
      Repository.namesakes.forms.get? ⟨i⟩ = some f := FormGraph.get?_eq_some_iff.mpr hf
  have hwhole : Manuscript.namesakes.Whole ⟨0⟩ := by
    have hget := hget (i := 0) (by rw [Repository.slots_namesakes]; rfl)
    have hsubs : Repository.namesakes.forms.subForms ⟨0⟩ = [] := FormGraph.subForms_of_get? hget
    intro x hx
    rw [hforms] at hx
    rcases hx.cases_head with rfl | ⟨y,hy,-⟩
    · exact ⟨_,⟨0⟩,hforms ▸ hget,hA,.inl rfl⟩
    · simp [hsubs] at hy
  have hmissing : ¬ Manuscript.namesakes.HasForm ⟨1⟩ := by
    have hget := hget (i := 1) (by rw [Repository.slots_namesakes]; rfl)
    have hequal : Repository.namesakes.forms.equalForms ⟨0⟩ ⟨1⟩ = false := by cbv
    rintro ⟨f,held,hf,hheld,hsame⟩
    rw [hforms] at hf hsame
    cases hget.symm.trans hf
    cases hA.symm.trans hheld
    simp [hequal] at hsame
  have hpart : ⟨1⟩ ∈ Manuscript.namesakes.forms.subForms ⟨2⟩ := by
    have hget := hget (i := 2) (by rw [Repository.slots_namesakes]; rfl)
    rw [hforms,FormGraph.subForms_of_get? hget]
    exact List.mem_singleton_self _
  obtain ⟨hiff,hall⟩ := @readNode_attemptAll default .namesakes ⟨_,rfl⟩
    Repository.modulesProper_namesakes rfl [.form ⟨0⟩,.form ⟨1⟩]
  have hfirst := (hall "A" ⟨0⟩ hA).1 hwhole
  refine ⟨hclean,hself,hB,hfirst,fun hthird => hmissing ?_⟩
  refine hiff.mp ⟨hself,fun name id hid => ?_⟩ "B" ⟨2⟩ hB ⟨1⟩ hpart
  have hmem : (name,id) ∈ Manuscript.namesakes.writtenForms.entries :=
    Table.mem_entries_of_get? hid
  rw [hentries] at hmem
  rcases List.mem_pair.mp hmem with ⟨rfl,rfl⟩ | ⟨rfl,rfl⟩
  · exact hfirst
  · exact hthird

end AddressedForms
