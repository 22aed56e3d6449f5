import AddressedForms.Proofs.Document.Attempts
import AddressedForms.Proofs.Document.BuiltDefinitions
import AddressedForms.Proofs.Document.BuiltForms
import AddressedForms.Proofs.Document.ProperModules
set_option autoImplicit false

/-!
Forms that are written with all that they lead to, in a manuscript that may have others. Their plans
need no others, so they are kept, and each becomes a form that is similar to the one written.
-/

namespace AddressedForms

namespace FormGraph
variable {g : FormGraph} {x y z : FormId}

theorem Similar.exists_sub (h : g.Similar x y) (hz : z ∈ g.subForms y) :
    ∃ w ∈ g.subForms x, g.Similar w z := by
  obtain ⟨f,hf,hz⟩ := get?_of_mem_subForms hz
  obtain ⟨e,he,-,hb⟩ := h.symm.exists_form hf
  obtain ⟨w,hw,hzw⟩ := exists_of_forall₂_left hb.subForms hz
  exact ⟨w,by rwa [subForms_of_get? he],hzw.symm⟩

theorem Similar.exists_leads (h : g.Similar x y) (hz : Walk.Leads g.subForms y z) :
    ∃ w, Walk.Leads g.subForms x w ∧ g.Similar w z := by
  induction hz with
  | refl => exact ⟨x,.refl,h⟩
  | tail _ he ih =>
    obtain ⟨v,hv,hs⟩ := ih
    obtain ⟨w,hw,hsim⟩ := hs.exists_sub he
    exact ⟨w,hv.tail hw,hsim⟩

end FormGraph

theorem FormPlan.mem_prune {ps : List FormPlan} {P : FormPlan → Prop}
    (h : ∀ p ∈ ps, P p → ∀ t ∈ p.parts, (∃ q ∈ ps, P q ∧ t = .sketched q.name) ∨
      ∃ id, t = .catalogued id) {p : FormPlan} (hp : p ∈ ps) (hP : P p) : p ∈ prune ps := by
  classical
  have hsub : ps.filter P ⊆ ps := List.filter_subset_self ps
  refine subset_prune hsub (fun q hq => ?_) (List.mem_filter.mpr ⟨hp,decide_eq_true hP⟩)
  obtain ⟨hq,hP⟩ := List.mem_filter.mp hq
  rw [isComplete,List.all_eq_true]
  intro t ht
  rcases h q hq (of_decide_eq_true hP) t ht with ⟨u,hu,hPu,rfl⟩ | ⟨id,rfl⟩
  · exact decide_eq_true (List.mem_map_of_mem (List.mem_filter.mpr ⟨hu,decide_eq_true hPu⟩))
  · rfl

namespace Manuscript
variable {g : FormGraph} {es : List Entry} {m : Manuscript} {x y : FormId}

/-- All that a form leads to is written. -/
def Whole (m : Manuscript) (id : FormId) : Prop :=
  ∀ x, Walk.Leads m.forms.subForms id x → m.HasForm x

section Whole
variable (hm : Compiled g es m) (hu : g.NamesUnique)
include hm hu

theorem Compiled.hasForm_iff : m.HasForm x ↔
    ∃ name held, m.writtenForms.get? name = some held ∧ g.Similar held x := by
  rw [← hm.forms_eq] at hu ⊢
  constructor
  · rintro ⟨f,held,hf,hheld,hsame⟩
    refine ⟨f.name,held,hheld,?_⟩
    rcases hsame with rfl | hsame
    · exact .refl _ _
    · exact (FormGraph.equalForms_iff_similar hu held x).mp hsame
  · rintro ⟨name,held,hheld,hsim⟩
    obtain ⟨-,f,hf,rfl⟩ := (hm.writtenForms_iff name held).mp hheld
    rw [← hm.forms_eq] at hf
    obtain ⟨e,he,hname,-⟩ := hsim.exists_form hf
    exact ⟨e,held,he,by rwa [hname],.inr ((FormGraph.equalForms_iff_similar hu held x).mpr hsim)⟩

theorem Compiled.hasForm_similar (h : m.HasForm x) (hs : g.Similar x y) : m.HasForm y := by
  rw [hm.hasForm_iff hu] at h ⊢
  obtain ⟨name,held,hheld,hsim⟩ := h
  exact ⟨name,held,hheld,hsim.trans hs⟩

theorem Compiled.whole_similar (h : m.Whole x) (hs : g.Similar x y) : m.Whole y := by
  intro z hz
  rw [hm.forms_eq] at hz
  obtain ⟨w,hw,hwz⟩ := hs.exists_leads hz
  exact hm.hasForm_similar hu (h w (hm.forms_eq ▸ hw)) hwz

theorem Compiled.exists_part (h : m.Whole x) (hy : y ∈ g.subForms x) :
    ∃ name held, g.name? y = some name ∧ m.writtenForms.get? name = some held ∧
      g.Similar held y ∧ m.Whole held := by
  have hleads : Walk.Leads g.subForms x y := .single hy
  have hwhole : m.Whole y := fun z hz => h z (hm.forms_eq ▸ hleads.trans (hm.forms_eq ▸ hz))
  obtain ⟨name,held,hheld,hsim⟩ := (hm.hasForm_iff hu).mp (hwhole y .refl)
  obtain ⟨-,f,hf,rfl⟩ := (hm.writtenForms_iff name held).mp hheld
  obtain ⟨e,he,hname,-⟩ := hsim.exists_form hf
  exact ⟨f.name,held,by rw [FormGraph.name?_of_get? he,hname],hheld,hsim,
    hm.whole_similar hu hwhole hsim.symm⟩

theorem Compiled.whole_of_parts (h : ∀ name held, m.writtenForms.get? name = some held →
      ∀ sub ∈ g.subForms held, m.HasForm sub) (hx : m.HasForm x) : m.Whole x := by
  intro y hy
  rw [hm.forms_eq] at hy
  induction hy with
  | refl => exact hx
  | tail _ he ih =>
    obtain ⟨name,held,hheld,hsim⟩ := (hm.hasForm_iff hu).mp ih
    obtain ⟨w,hw,hwz⟩ := hsim.exists_sub he
    exact hm.hasForm_similar hu (h name held hheld w hw) hwz

end Whole

theorem drawn_definitions (m : Manuscript) : m.definitions.Drawn m.node :=
  m.ofRoot_node ▸ Definitions.drawn_ofRoot m.node

section Plans
variable (hm : Compiled g es m) (hg : g.Sound) (hmp : g.ModulesProper) (c : Catalogue)
include hm hg hmp

theorem Compiled.exists_plan {s : FormSketch} (hs : s ∈ m.definitions.forms.sketches) :
    ∃ id f, m.writtenForms.get? s.name = some id ∧ g.get? id = some f ∧
      ((∀ sub ∈ f.subForms, ∀ k, g.name? sub = some k → m.writtenForms.contains k) →
        ∃ p, FormPlan.ofSketch (m.definitions.scope .builtins) c m.definitions.forms s = .success p ∧
          FormPlan.Plans g f p) := by
  have hd := hm.gathered hg
  obtain ⟨id,hid,f,names,hf,hw,ho⟩ := exists_of_forall₂_right hd.forms hs
  rw [hm.forms_eq] at hf ho
  refine ⟨id,f,?_,hf,fun hsubs => ?_⟩
  · exact (hm.writtenForms_iff s.name id).mpr ⟨Entry.mem_filterMap_form?.mp hid,f,hf,ho.name.symm⟩
  · exact ofSketch_of_outlines ho (fun x hx => hd.ofNested_node hw (hmp id f x hf hx))
      fun sub hsub k hk => (hd.isSome_named?_iff hm k).mpr (hsubs sub hsub k hk)

theorem Compiled.exists_plan_of_whole {name : String} {id : FormId}
    (hid : m.writtenForms.get? name = some id) (hwhole : m.Whole id) :
    ∃ f p, g.get? id = some f ∧ p ∈ m.definitions.plans .builtins c ∧ p.name = name ∧
      FormPlan.Plans g f p := by
  have hu := hg.namesUnique
  have hd := hm.gathered hg
  let ps := (m.definitions.forms.sketches.map (FormPlan.ofSketch (m.definitions.scope .builtins) c
    m.definitions.forms)).filterMap Attempt.value?
  let P (p : FormPlan) : Prop := ∃ id f, m.writtenForms.get? p.name = some id ∧ m.Whole id ∧
    g.get? id = some f ∧ FormPlan.Plans g f p
  have hplan (name : String) (id : FormId) (hid : m.writtenForms.get? name = some id)
      (hwhole : m.Whole id) :
      ∃ p ∈ ps, p.name = name ∧ ∃ f, g.get? id = some f ∧ FormPlan.Plans g f p := by
    obtain ⟨s,hs,rfl⟩ := List.mem_map.mp
      ((hd.mem_sketchNames_iff hm name).mpr (Table.contains_of_get? hid))
    obtain ⟨id',f,hid',hf,hplans⟩ := hm.exists_plan hg hmp c hs
    cases hid.symm.trans hid'
    obtain ⟨p,hp,hfp⟩ := hplans fun sub hsub k hk => by
      obtain ⟨k',held,hk',hheld,-⟩ :=
        hm.exists_part hu hwhole (FormGraph.subForms_of_get? hf ▸ hsub)
      cases hk.symm.trans hk'
      exact Table.contains_of_get? hheld
    have hvalue : (FormPlan.ofSketch (m.definitions.scope .builtins) c m.definitions.forms s).value? =
        some p := by rw [hp]; rfl
    obtain ⟨-,_,_,-,-,rfl⟩ := FormPlan.ofSketch_eq_some hvalue
    exact ⟨_,List.mem_filterMap.mpr ⟨_,List.mem_map_of_mem hs,hvalue⟩,rfl,f,hf,hfp⟩
  obtain ⟨p,hmem,rfl,f,hf,hfp⟩ := hplan name id hid hwhole
  refine ⟨f,p,hf,FormPlan.mem_prune (P := P) ?_ hmem ⟨id,f,hid,hwhole,hf,hfp⟩,rfl,hfp⟩
  rintro p - ⟨id,f,hid,hwhole,hf,hfp⟩ t ht
  obtain ⟨sub,hsub,k,hk,rfl⟩ := exists_of_forall₂_right hfp.parts ht
  obtain ⟨k',held,hk',hheld,-,hpart⟩ :=
    hm.exists_part hu hwhole (FormGraph.subForms_of_get? hf ▸ hsub)
  cases hk.symm.trans hk'
  obtain ⟨q,hq,rfl,e,he,hqe⟩ := hplan k held hheld hpart
  exact .inl ⟨q,hq,⟨held,e,hheld,hpart,he,hqe⟩,rfl⟩

variable (hc : ∀ name id, c.forms.get? name = some id → g.contains id)
include hc

omit hmp in
theorem Compiled.exists_built {f : Form} {p : FormPlan}
    (hp : p ∈ m.definitions.plans .builtins c) (hf : FormPlan.Plans g f p) :
    let b := m.definitions.built .builtins c g
    ∃ new e, b.table.get? p.name = some (.value new) ∧ b.graph.get? new = some e ∧
      e.name = f.name ∧
      f.body.Related (fun x y => ∃ k, g.name? x = some k ∧ b.table.get? k = some (.value y))
        e.body := by
  intro b
  have hdrawn := m.drawn_definitions
  have hnames := (hm.gathered hg).nodup_sketchNames hm
  have hbuilt {name : String} {new : FormId} : b.table.get? name = some (.value new) ↔ _ :=
    Definitions.get?_built hdrawn hnames hc
  obtain ⟨new,e,hnew,-,he,hbecomes⟩ :=
    (Definitions.extended hdrawn hnames hc (v := .builtins)).new p hp
  refine ⟨new,e,hbuilt.mpr ⟨p,hp,rfl,hnew⟩,he,hbecomes.name.trans hf.name,?_⟩
  have hr := hf.related hbecomes.body
  refine ⟨hr.kind_eq,hr.module_eq,forall₂_of_mem hr.subForms ?_⟩
  rintro sub hsub y - ⟨k,hk,hky⟩
  obtain ⟨t,ht,k',hk',rfl⟩ := exists_of_forall₂_left hf.parts hsub
  cases hk.symm.trans hk'
  rcases (Definitions.closed_plans hdrawn hnames hc).parts p hp _ ht with ⟨q,hq,hqk⟩ | ⟨_,hid,-⟩
  · cases hqk
    exact ⟨q.name,hk,hbuilt.mpr ⟨q,hq,rfl,hky⟩⟩
  · cases hid

omit hmp in
theorem Compiled.retains_built : g.Retains (m.definitions.built .builtins c g).graph :=
  (Definitions.extended m.drawn_definitions ((hm.gathered hg).nodup_sketchNames hm) hc).old

/-- The name of a form that is written whole stands for a new one that is similar to it. -/
theorem Compiled.exists_similar_of_whole {name : String} {id : FormId}
    (hid : m.writtenForms.get? name = some id) (hwhole : m.Whole id) :
    ∃ new, (m.definitions.built .builtins c g).table.get? name = some (.value new) ∧
      (m.definitions.built .builtins c g).graph.Similar id new := by
  have hretains := hm.retains_built hg c hc
  set b := m.definitions.built .builtins c g
  let C (x y : FormId) : Prop := ∃ name, m.writtenForms.get? name = some x ∧ m.Whole x ∧
    b.table.get? name = some (.value y)
  have hagree : ∀ x y, C x y → b.graph.Agree (fun p q => ∃ z, b.graph.Similar p z ∧ C z q) x y := by
    rintro x y ⟨name,hx,hwhole,hy⟩
    obtain ⟨f,p,hf,hp,rfl,hplans⟩ := hm.exists_plan_of_whole hg hmp c hx hwhole
    obtain ⟨y',e,hy',he,hname,hr⟩ := hm.exists_built hg c hc hp hplans
    cases hy.symm.trans hy'
    refine ⟨f,e,(hretains.get? (FormGraph.contains_of_get? hf)).trans hf,he,hname.symm,
      hr.kind_eq,hr.module_eq,forall₂_of_mem hr.subForms ?_⟩
    rintro sub hsub z - ⟨k,hk,hkz⟩
    obtain ⟨k',held,hk',hheld,hsim,hpart⟩ :=
      hm.exists_part hg.namesUnique hwhole (by rwa [FormGraph.subForms_of_get? hf])
    cases hk.symm.trans hk'
    exact ⟨held,hsim.symm.extend hretains.keeps,k,hheld,hpart,hkz⟩
  obtain ⟨f,p,-,hp,rfl,hplans⟩ := hm.exists_plan_of_whole hg hmp c hid hwhole
  obtain ⟨new,-,hnew,-⟩ := hm.exists_built hg c hc hp hplans
  exact ⟨new,hnew,FormGraph.similar_of_copies hagree ⟨p.name,hid,hwhole,hnew⟩⟩

end Plans
end Manuscript
end AddressedForms
