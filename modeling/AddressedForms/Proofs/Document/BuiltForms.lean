import AddressedForms.Proofs.Document.Attempt
import AddressedForms.Proofs.Document.FormPlan
import AddressedForms.Proofs.Document.LeafResolution
set_option autoImplicit false

/-!
The forms of a written document are built anew: under every name a form that is similar to all those
which were written under it. The bisimulation leads from any of them to the one that was entered,
and on to the new one.
-/

namespace AddressedForms

namespace FormGraph

def ModulesProper (g : FormGraph) : Prop :=
  ∀ id f x, g.get? id = some f → f.module? = some x → x.isProper

theorem modulesProper_of_slots {g : FormGraph}
    (h : ∀ f x, .defined f ∈ g.slots → f.module? = some x → x.isProper) : g.ModulesProper :=
  fun _ f x hf => h f x (List.mem_of_getElem? (get?_eq_some_iff.mp hf))

end FormGraph

namespace Manuscript

/-- What the names of written forms stand for: new forms with the labels of those that were written
under them, and with sub-forms for which other names stand. -/
structure Restored (g : FormGraph) (m : Manuscript) (ext : FormGraph)
    (form? : String → Option FormId) : Prop where
  reachable : g.Reachable → ext.Reachable
  old : ∀ x, g.contains x → ext.slot? x = g.slot? x
  new : ∀ name held f, m.writtenForms.get? name = some held → g.get? held = some f →
    ∃ id f', form? name = some id ∧ ¬ g.contains id ∧ ext.get? id = some f' ∧ f'.name = f.name ∧
      f'.labels = f.labels ∧
      f.body.Related (fun a b => ∃ k, g.name? a = some k ∧ form? k = some b) f'.body

section Restored
variable {g ext : FormGraph} {m : Manuscript} {form? : String → Option FormId}

theorem Restored.get? (h : Restored g m ext form?) {x : FormId} {f : Form}
    (hf : g.get? x = some f) : ext.get? x = some f := by
  rw [FormGraph.get?_eq_some_iff] at hf ⊢
  rw [h.old x (FormGraph.contains_of_slot? hf),hf]

theorem Restored.keeps (h : Restored g m ext form?) : g.Keeps ext :=
  FormGraph.keeps_of_get? fun _ _ => h.get?

theorem Restored.similar (h : Restored g m ext form?) (hg : m.forms = g) (hu : g.NamesUnique)
    (hc : ∀ name held, m.writtenForms.get? name = some held → ∀ sub ∈ g.subForms held,
      m.HasForm sub) {x : FormId} {name : String} (hx : m.HasForm x)
    (hn : g.name? x = some name) :
    ∃ y, form? name = some y ∧ ¬ g.contains y ∧ ext.Similar x y := by
  subst hg
  have hwritten (c : FormId) (hc' : m.HasForm c) : ∃ name held f, m.forms.name? c = some name ∧
      m.writtenForms.get? name = some held ∧ m.forms.get? held = some f ∧
      m.forms.Similar c held := by
    obtain ⟨e,held,he,hheld,hsame⟩ := hc'
    have hsim : m.forms.Similar c held := by
      rcases hsame with rfl | hsame
      · exact .refl _ _
      · exact ((FormGraph.equalForms_iff_similar hu held c).mp hsame).symm
    obtain ⟨f,hf,-⟩ := hsim.exists_form he
    exact ⟨e.name,held,f,FormGraph.name?_of_get? he,hheld,hf,hsim⟩
  let C (a b : FormId) : Prop := ∃ name f, m.writtenForms.get? name = some a ∧
    m.forms.get? a = some f ∧ form? name = some b
  have hagree : ∀ a b, C a b → ext.Agree (fun p q => ∃ c, ext.Similar p c ∧ C c q) a b := by
    rintro a b ⟨name,f,ha,hf,hb⟩
    obtain ⟨id,f',hid,-,hf',hname,-,hr⟩ := h.new name a f ha hf
    cases hb.symm.trans hid
    refine ⟨f,f',h.get? hf,hf',hname.symm,hr.kind_eq,hr.module_eq,forall₂_of_mem hr.subForms ?_⟩
    rintro p hp q - ⟨k,hk,hkq⟩
    obtain ⟨k',held,e,hk',hheld,he,hsim⟩ :=
      hwritten p (hc name a ha p (by rwa [FormGraph.subForms_of_get? hf]))
    cases hk.symm.trans hk'
    exact ⟨held,hsim.extend h.keeps,k,e,hheld,he,hkq⟩
  obtain ⟨k,held,f,hk,hheld,hf,hsim⟩ := hwritten x hx
  cases hn.symm.trans hk
  obtain ⟨id,-,hid,hnew,-⟩ := h.new name held f hheld hf
  refine ⟨id,hid,hnew,(hsim.extend h.keeps).trans ?_⟩
  exact FormGraph.similar_of_copies hagree ⟨name,f,hheld,hf,hid⟩

end Restored

theorem ofSketch_of_outlines {g : FormGraph} {names : NamedLeaves} {l : LeafMeanings}
    {c : Catalogue} {fs : FormSketches} {f : Form} {s : FormSketch} (ho : s.Outlines g names f)
    (hm : ∀ x, f.module? = some x → Module.ofNested (.builtin l) (x.node names) = .success x)
    (hs : ∀ sub ∈ f.subForms, ∀ k, g.name? sub = some k → (fs.named? k).isSome) :
    ∃ p, FormPlan.ofSketch (.builtin l) c fs s = .success p ∧ FormPlan.Plans g f p := by
  have hmodule : FormPlan.moduleOf (.builtin l) s.module = .success f.module? := by
    rw [ho.module]
    cases hf : f.module? with
    | none => rfl
    | some x =>
      simp only [Option.map_some,FormPlan.moduleOf,hm x hf,Attempt.success_bind]
  have hparts : List.Forall₂ (fun id t => ∃ k, g.name? id = some k ∧ t = .sketched k) f.subForms
      (s.parts.map PlannedPart.sketched) := by
    rw [List.forall₂_map_right_iff]
    exact ho.parts.imp fun id k hk => ⟨k,hk,rfl⟩
  have hmap : s.parts.mapM (PlannedPart.ofName? fs c) = some (s.parts.map .sketched) := by
    rw [mapM_eq_some_iff,List.forall₂_map_right_iff,List.forall₂_same]
    intro k hk
    obtain ⟨sub,hsub,hname⟩ := exists_of_forall₂_right ho.parts hk
    obtain ⟨t,ht⟩ := Option.isSome_iff_exists.mp (hs sub hsub k hname)
    simp [PlannedPart.ofName?,ht]
  refine ⟨⟨s.name,s.kind,s.tag,f.module?,s.parts.map .sketched,s.labels⟩,?_,ho.name,ho.kind,rfl,
    hparts,ho.labels⟩
  rw [FormPlan.ofSketch,hmodule,Attempt.success_bind,ho.sound,hmap]

/-- The plans of all forms of a document, which need nothing but each other. -/
structure Planned (g : FormGraph) (es : List Entry) (m : Manuscript) (l : LeafMeanings)
    (c : Catalogue) (d : Definitions) (ps : List FormPlan) : Prop where
  values : (d.forms.sketches.map (FormPlan.ofSketch (.builtin l) c d.forms)).filterMap
    Attempt.value? = ps
  reports : (d.forms.sketches.map (FormPlan.ofSketch (.builtin l) c d.forms)).flatMap
    Attempt.reports = []
  names : d.forms.sketches.map FormSketch.name = ps.map FormPlan.name
  plans : ∀ p ∈ ps, ∃ id f, .form id ∈ es ∧ g.get? id = some f ∧ FormPlan.Plans g f p
  written : ∀ k, m.writtenForms.contains k → ∃ q ∈ ps, q.name = k
  subForms : ∀ id f, .form id ∈ es → g.get? id = some f → ∀ sub ∈ f.subForms,
    ∃ q ∈ ps, g.name? sub = some q.name

section BuiltForms
variable {g : FormGraph} {es : List Entry} {m : Manuscript} {d : Definitions} {l : LeafMeanings}
  {c : Catalogue} {ps : List FormPlan}

theorem Gathered.planned (h : Gathered es m d) (hm : Compiled g es m)
    (hc : ∀ id, .form id ∈ es → ∀ sub ∈ g.subForms id, m.HasForm sub) (hl : l.Knows m.names)
    (hp : g.ModulesProper) (c : Catalogue) : ∃ ps, Planned g es m l c d ps := by
  have hform : m.forms = g := hm.forms_eq
  obtain ⟨ps,hps,hvalues,hreports⟩ := Attempt.successes
    (f := FormPlan.ofSketch (.builtin l) c d.forms)
    (P := fun s p => s.name = p.name ∧ ∃ id f, .form id ∈ es ∧ g.get? id = some f ∧
      FormPlan.Plans g f p) fun s hs => by
    obtain ⟨id,hid,f,names,hf,hw,ho⟩ := exists_of_forall₂_right h.forms hs
    have hid := Entry.mem_filterMap_form?.mp hid
    rw [hform] at hf ho
    obtain ⟨p,hp,hplans⟩ := ofSketch_of_outlines (c := c) ho
      (fun x hx => Module.ofNested_node (hp id f x hf hx) (hl.mono hw).modules) fun sub hs k hk => by
      rw [← FormGraph.subForms_of_get? hf] at hs
      exact (h.isSome_named?_iff hm k).mpr ((hc id hid sub hs).contains (hform ▸ hk))
    exact ⟨p,hp,ho.name.trans hplans.name.symm,id,f,hid,hf,hplans⟩
  have hwritten (k : String) (hk : m.writtenForms.contains k) : ∃ q ∈ ps, q.name = k := by
    rw [← h.isSome_named?_iff hm,FormSketches.named?,List.find?_isSome] at hk
    obtain ⟨s,hs,hsk⟩ := hk
    obtain ⟨q,hq,hname,-⟩ := exists_of_forall₂_left hps hs
    exact ⟨q,hq,hname.symm.trans (of_decide_eq_true hsk)⟩
  refine ⟨ps,hvalues,hreports,map_eq_of_forall₂ hps fun s p hsp => hsp.1,fun p hp => ?_,
    hwritten,fun id f hid hf sub hs => ?_⟩
  · obtain ⟨s,-,-,hplan⟩ := exists_of_forall₂_right hps hp
    exact hplan
  · obtain ⟨e,held,he,hheld,-⟩ := hc id hid sub (by rwa [FormGraph.subForms_of_get? hf])
    obtain ⟨q,hq,hname⟩ := hwritten e.name (Table.contains_of_get? hheld)
    rw [hform] at he
    exact ⟨q,hq,by rw [FormGraph.name?_of_get? he,hname]⟩

theorem Planned.prune_eq (h : Planned g es m l c d ps) : FormPlan.prune ps = ps := by
  refine FormPlan.prune_eq_self fun p hp => ?_
  obtain ⟨id,f,hid,hf,hplans⟩ := h.plans p hp
  rw [FormPlan.isComplete,List.all_eq_true]
  intro t ht
  obtain ⟨sub,hs,k,hk,rfl⟩ := exists_of_forall₂_right hplans.parts ht
  obtain ⟨q,hq,hqk⟩ := h.subForms id f hid hf sub hs
  rw [hk,Option.some.injEq] at hqk
  simpa [PlannedPart.isAmong,hqk] using ⟨q,hq,rfl⟩

theorem Planned.extended (h : Planned g es m l c d ps) (hg : g.Sound)
    (hn : (ps.map FormPlan.name).Nodup) :
    FormExtension.Extended g ps (FormExtension.ofPlans g ps) := by
  refine FormExtension.extended_ofPlans hn fun ids hids p hp => ?_
  obtain ⟨id,f,hid,hf,hplans⟩ := h.plans p hp
  exact hplans.becomes hids (h.subForms id f hid hf) (hg.nonempty id f hf)
    fun l => hg.labelled id f l hf

structure Rebuilt (g : FormGraph) (m : Manuscript) (c : Catalogue) (names : List String)
    (b : BuiltForms) : Prop where
  reports : b.reports = []
  restored : Restored g m b.graph fun name =>
    (Resolution.lookup .form c.forms.get? b.table name).value?
  top : b.top.map Prod.fst = names
  values : ∀ name ∈ names, ∃ id, b.table.get? name = some (.value id) ∧ (name,id) ∈ b.top

theorem Planned.ofSketches_eq (h : Planned g es m l c d ps) (htop : ∀ s ∈ d.forms.sketches, s.top)
    (he : FormExtension.Extended g ps (FormExtension.ofPlans g ps)) :
    BuiltForms.ofSketches (.builtin l) c g d.forms =
      { graph := (FormExtension.ofPlans g ps).graph
        table := .ofList ((ps.map FormPlan.name).map fun name =>
          (name,.ofOption ((FormExtension.ofPlans g ps).ids.get? name)))
        top := (ps.map FormPlan.name).filterMap fun name =>
          ((FormExtension.ofPlans g ps).ids.get? name).map fun id => (name,id)
        reports := [] } := by
  have hkept : (FormExtension.ofPlans g ps).sound ps = ps.map FormPlan.name := by
    simp [FormExtension.sound,he.failed,h.prune_eq]
  have hname : ∀ s ∈ d.forms.sketches, s.name ∈ ps.map FormPlan.name := fun s hs =>
    h.names ▸ List.mem_map_of_mem hs
  simp only [BuiltForms.ofSketches,h.values,h.reports,h.prune_eq,hkept,he.reports,
    List.append_nil,BuiltForms.mk.injEq,true_and,and_true]
  rw [← h.names,List.map_map,List.filterMap_map]
  refine ⟨congrArg Table.ofList (List.map_congr_left fun s hs => ?_),
    List.filterMap_congr fun s hs => ?_⟩
  · rw [h.names,if_pos (hname s hs),Function.comp_apply]
  · rw [h.names,if_pos (hname s hs),if_pos (htop s hs),Function.comp_apply]

theorem Gathered.ofSketches (h : Gathered es m d) (hg : g.Sound) (hm : Compiled g es m)
    (hc : ∀ id, .form id ∈ es → ∀ sub ∈ g.subForms id, m.HasForm sub) (hl : l.Knows m.names)
    (hp : g.ModulesProper) (c : Catalogue) :
    Rebuilt g m c (d.forms.sketches.map FormSketch.name)
      (BuiltForms.ofSketches (.builtin l) c g d.forms) := by
  obtain ⟨ps,hps⟩ := h.planned hm hc hl hp c
  have hext := hps.extended hg (hps.names ▸ h.nodup_sketchNames hm)
  have htop : ∀ s ∈ d.forms.sketches, s.top := by
    intro s hs
    obtain ⟨id,-,f,names,-,-,ho⟩ := exists_of_forall₂_right h.forms hs
    exact ho.top
  have hvalue : ∀ p ∈ ps, ∃ id f', (FormExtension.ofPlans g ps).ids.get? p.name = some id ∧
      ¬ g.contains id ∧ (FormExtension.ofPlans g ps).graph.get? id = some f' ∧
      FormExtension.Becomes g (FormExtension.ofPlans g ps).ids ps p f' := hext.new
  rw [hps.ofSketches_eq htop hext,hps.names]
  set b := FormExtension.ofPlans g ps
  have hget (p : FormPlan) (hp : p ∈ ps) {id : FormId} (hid : b.ids.get? p.name = some id) :
      (Table.ofList ((ps.map FormPlan.name).map fun name =>
        (name,Resolution.ofOption (b.ids.get? name)))).get? p.name = some (.value id) := by
    rw [Table.get?_ofList_map _ fun name => Resolution.ofOption (b.ids.get? name),
      if_pos (List.mem_map_of_mem hp),hid]
    rfl
  refine ⟨rfl,⟨hext.reachable,hext.old,fun name held f hheld hf => ?_⟩,?_,fun name hname => ?_⟩
  · obtain ⟨p,hp,rfl⟩ := hps.written name (Table.contains_of_get? hheld)
    obtain ⟨id,e,hid,he,hplans⟩ := hps.plans p hp
    have hid' := (hm.writtenForms_iff p.name id).mpr ⟨hid,e,he,hplans.name.symm⟩
    rw [hheld] at hid'
    cases hid'
    rw [hf] at he
    cases he
    obtain ⟨new,f',hnew,hfresh,hf',hb⟩ := hvalue p hp
    refine ⟨new,f',?_,hfresh,hf',hb.name.trans hplans.name,hplans.labels_eq hb,?_⟩
    · exact congrArg Attempt.value? (Resolution.lookup_of_value (hget p hp hnew))
    · have hr := hplans.related hb.body
      refine ⟨hr.kind_eq,hr.module_eq,forall₂_of_mem hr.subForms ?_⟩
      rintro a ha x - ⟨k,hk,hkx⟩
      obtain ⟨q,hq,hqk⟩ := hps.subForms held f hid hf a ha
      rw [hk,Option.some.injEq] at hqk
      subst hqk
      exact ⟨_,hk,congrArg Attempt.value? (Resolution.lookup_of_value (hget q hq hkx))⟩
  · rw [List.map_filterMap]
    refine (List.filterMap_congr fun name hname => ?_).trans List.filterMap_some
    obtain ⟨p,hp,rfl⟩ := List.mem_map.mp hname
    obtain ⟨id,-,hid,-⟩ := hvalue p hp
    simp [hid]
  · obtain ⟨p,hp,rfl⟩ := List.mem_map.mp hname
    obtain ⟨id,-,hid,-⟩ := hvalue p hp
    exact ⟨id,hget p hp hid,List.mem_filterMap.mpr ⟨p.name,hname,by simp [hid]⟩⟩

theorem Rebuilt.exists_new {names : List String} {b : BuiltForms} (h : Rebuilt g m c names b)
    (hm : Compiled g es m) {name : String} (hn : name ∈ names)
    (hw : m.writtenForms.contains name) :
    ∃ held f id f', m.writtenForms.get? name = some held ∧ g.get? held = some f ∧
      b.table.get? name = some (.value id) ∧ (name,id) ∈ b.top ∧ b.graph.get? id = some f' ∧
      f'.name = name ∧ f'.labels = f.labels := by
  obtain ⟨held,hheld⟩ := Table.exists_of_contains hw
  obtain ⟨-,f,hf,hfn⟩ := (hm.writtenForms_iff name held).mp hheld
  obtain ⟨id,hid,htop⟩ := h.values name hn
  obtain ⟨new,f',hnew,-,hf',hname,hlabels,-⟩ := h.restored.new name held f hheld hf
  rw [Resolution.lookup_of_value hid] at hnew
  cases hnew
  exact ⟨held,f,id,f',hheld,hf,hid,htop,hf',hname.trans hfn,hlabels⟩

theorem Rebuilt.names_top {names : List String} {b : BuiltForms} (h : Rebuilt g m c names b)
    (hm : Compiled g es m) (hn : names.Nodup)
    (hw : ∀ name ∈ names, m.writtenForms.contains name) :
    (b.top.map Prod.snd).map b.graph.name? = names.map some := by
  have htop := h.top
  subst htop
  rw [List.map_map,List.map_map]
  refine List.map_congr_left fun e he => ?_
  have hname : e.1 ∈ b.top.map Prod.fst := List.mem_map_of_mem he
  obtain ⟨held,f,id,f',-,-,-,hid,hf',hfn,-⟩ := h.exists_new hm hname (hw e.1 hname)
  have heq : e.2 = id := Table.value_unique hn he hid
  rw [Function.comp_apply,Function.comp_apply,heq,FormGraph.name?_of_get? hf',hfn]

theorem Rebuilt.exists_similar {names : List String} {b : BuiltForms} (h : Rebuilt g m c names b)
    (hm : Compiled g es m) (hu : g.NamesUnique)
    (hc : ∀ id, .form id ∈ es → ∀ sub ∈ g.subForms id, m.HasForm sub)
    (hn : ∀ name, m.writtenForms.contains name → name ∈ names) {x : FormId} (hx : m.HasForm x) :
    ∃ name held f new f', g.name? x = some name ∧ m.writtenForms.get? name = some held ∧
      g.get? held = some f ∧ b.table.get? name = some (.value new) ∧ (name,new) ∈ b.top ∧
      ¬ g.contains new ∧ b.graph.Similar x new ∧ b.graph.get? new = some f' ∧
      f'.labels = f.labels := by
  have hform := hm.forms_eq
  obtain ⟨name,hname⟩ : ∃ name, g.name? x = some name := by
    obtain ⟨e,-,he,-⟩ := hx
    exact ⟨e.name,FormGraph.name?_of_get? (hform ▸ he)⟩
  have hw := hx.contains (hform ▸ hname)
  obtain ⟨held,f,new,f',hheld,hf,hid,htop,hf',-,hlabels⟩ := h.exists_new hm (hn name hw) hw
  obtain ⟨y,hy,hfresh,hsim⟩ := h.restored.similar hform hu
    (fun k held hheld => hc held ((hm.writtenForms_iff k held).mp hheld).1) hx hname
  rw [Resolution.lookup_of_value hid] at hy
  cases hy
  exact ⟨name,held,f,new,f',hname,hheld,hf,hid,htop,hfresh,hsim,hf',hlabels⟩

end BuiltForms

end Manuscript
end AddressedForms
