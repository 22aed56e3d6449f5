import Mathlib
import AddressedForms.Proofs.Document.Reading
set_option autoImplicit false

/-!
The round trip of forms: what is written of any forms, in cycles or not, is read as one new form for
each name, equal to all forms which that name was written for.
-/

namespace AddressedForms

namespace Manuscript

theorem Compiled.names_of_forms {g : FormGraph} {es : List Entry} {m : Manuscript}
    (h : Compiled g es m) (hes : ∀ e ∈ es, ∃ id, e = .form id) :
    m.nodes.map Node.name? = (es.filterMap Entry.form?).map g.name? := by
  induction h with
  | empty => rfl
  | @snoc es m k e hm hs ih =>
    obtain ⟨id,rfl⟩ := hes e (by simp)
    have ih := ih fun a ha => hes a (List.mem_append_left _ ha)
    cases hs with
    | @form _ f n hf hnew hn =>
      rw [hm.forms_eq] at hf
      obtain ⟨parts,ks,rfl,-⟩ := formNode_eq_ok hn
      rw [filterMap_append_single,List.map_append,← ih]
      simp [push,Entry.form?,FormGraph.name?_of_get? hf,Node.name?,Node.attr?_withAttr]

theorem Gathered.sketches_eq_nil {es : List Entry} {m : Manuscript} {d : Definitions}
    (h : Gathered es m d) (hes : ∀ e ∈ es, ∃ id, e = .form id) : d.sketches = [] := by
  have hnil : es.filterMap Entry.denotator? = [] := by
    rw [List.filterMap_eq_nil_iff]
    intro e he
    obtain ⟨id,rfl⟩ := hes e he
    rfl
  have hf := h.sketches
  rw [hnil] at hf
  exact List.forall₂_nil_left_iff.mp hf

theorem resolved_of_sketches_eq_nil {m : Manuscript} (h : m.definitions.sketches = [])
    (c : Catalogue) : (m.resolved c).reports = [] ∧ m.attempts c = [] := by
  rw [attempts,resolved,h,Definitions.denotators,h]
  exact ⟨rfl,rfl⟩

theorem Written.eq_form {g : FormGraph} {ids : List FormId} {es : List Entry} {m : Manuscript}
    (h : Written g (ids.map .form) es m) {e : Entry} (he : e ∈ es) : ∃ id, e = .form id := by
  obtain ⟨a,ha,hdue⟩ := h.due e he
  obtain ⟨id,-,rfl⟩ := List.mem_map.mp ha
  obtain ⟨x,-,rfl⟩ := List.mem_map.mp hdue
  exact ⟨x,rfl⟩

theorem Written.hasForm_of_leads {g : FormGraph} {asked es : List Entry}
    {m : Manuscript} (h : Written g asked es m) {id x : FormId} (hid : .form id ∈ asked)
    (hx : Walk.Leads g.subForms id x) : m.HasForm x := by
  have hnil : g.ClosedUnder [] := by simp [FormGraph.ClosedUnder]
  have hdeps := g.dependencies_extends id hnil
  have hmem := hdeps.closed.leads hdeps.mem hx
  exact h.has _ hid _ (List.mem_map_of_mem hmem)

end Manuscript

/-- A written form is read back as a form with the same name, structure and labels. -/
theorem Reader.readNode_writtenForms {a : Reader} {r : Repository} {ids : List FormId}
    {m : Manuscript} (hr : r.forms.Reachable) (hp : r.forms.ModulesProper)
    (ha : a.vocabulary = .builtins) (hs : a.settings.registerDecoded = false)
    (hw : (Manuscript.empty r.forms).writeAll (ids.map .form) = .ok m) :
    let o := (a.readNode m.node r).1
    let ext := (a.readNode m.node r).2.2.forms
    o.isSuccess ∧
    (m.nodes.map Node.name?).Nodup ∧ o.forms.map ext.name? = m.nodes.map Node.name? ∧
    (o.symbols.forms.map Prod.fst).Nodup ∧
    (∀ y, r.forms.contains y → ext.slot? y = r.forms.slot? y) ∧
    ∀ id ∈ ids, ∀ x, Walk.Leads r.forms.subForms id x →
      ∃ name held f new f', r.forms.name? x = some name ∧
        m.writtenForms.get? name = some held ∧ r.forms.get? held = some f ∧
        (name,new) ∈ o.symbols.forms ∧ new ∈ o.forms ∧ ¬ r.forms.contains new ∧
        ext.sameForm new x ∧ ext.get? new = some f' ∧ f'.labels = f.labels := by
  intro o ext
  have hg := hr.sound
  obtain ⟨es,h⟩ := Manuscript.written_of_writeAll hw
  have hes : ∀ e ∈ es, ∃ id, e = .form id := fun _ he => h.eq_form he
  have hleaf : ∀ e ∈ ids.map Entry.form, e.leafIsProper := by
    intro e he
    obtain ⟨id,-,rfl⟩ := List.mem_map.mp he
    rfl
  have hd := h.compiled.gathered hg
  obtain ⟨ho,hrepo⟩ := h.readNode_eq hg hleaf hp rfl ha hs
  set c := Catalogue.ofRepository r a.settings.catalogFallback
  have hb := h.rebuilt hg hleaf hp c
  obtain ⟨hnamed,hattempts⟩ := Manuscript.resolved_of_sketches_eq_nil (hd.sketches_eq_nil hes) c
  have hnodup := hd.nodup_sketchNames h.compiled
  have hnames := hd.sketchNames h.compiled
  rw [← h.compiled.names_of_forms hes] at hnames
  have hext : ext = (m.built c).graph := congrArg Repository.forms hrepo
  have hout : o = Outcome.ofReading (m.reading c r) a.settings.maxErrors := ho
  refine ⟨?_,?_,?_,?_,?_,fun id hid x hx => ?_⟩
  · rw [hout]
    exact (Manuscript.isSuccess_ofReading_iff _ _).mpr
      (by simp [Manuscript.reading,hnamed,hattempts])
  · rw [← hnames]
    exact hnodup.map (Option.some_injective _)
  · rw [hout,hext,← hnames]
    exact hb.names_top h.compiled hnodup fun name hname =>
      (hd.mem_sketchNames_iff h.compiled name).mp hname
  · rw [hout]
    exact Resolution.nodup_values _
  · rw [hext]
    exact hb.restored.old
  · have hx : m.HasForm x := h.hasForm_of_leads (List.mem_map_of_mem hid) hx
    obtain ⟨name,held,f,new,f',hname,hheld,hf,hid,htop,hfresh,hsim,hf',hlabels⟩ :=
      h.exists_similar hg hleaf hp c hx
    have hu := (hb.restored.reachable hr).sound.namesUnique
    refine ⟨name,held,f,new,f',hname,hheld,hf,?_,?_,hfresh,?_,?_,hlabels⟩
    · rw [hout]
      exact Resolution.mem_values hid
    · rw [hout]
      exact List.mem_map_of_mem htop
    · rw [hext,FormGraph.sameForm_iff_similar hu]
      exact hsim.symm
    · rwa [hext]

/-- Both copies of a cycle are read as one new form. -/
theorem Reader.readNode_twinCycles : ∃ m,
    (Manuscript.empty .twinCycles).writeAll ([⟨0⟩,⟨2⟩].map .form) = .ok m ∧
    let o := (default.readNode m.node ⟨.twinCycles,.empty⟩).1
    let ext := (default.readNode m.node ⟨.twinCycles,.empty⟩).2.2.forms
    o.isSuccess ∧ o.forms.map ext.name? = m.nodes.map Node.name? ∧
    ∃ new, ("A",new) ∈ o.symbols.forms ∧ ext.sameForm new ⟨2⟩ := by
  have hok : ((Manuscript.empty .twinCycles).writeAll
      ([⟨0⟩,⟨2⟩].map .form)).toOption.isSome := by cbv
  generalize hw : (Manuscript.empty .twinCycles).writeAll ([⟨0⟩,⟨2⟩].map .form) = w at hok
  cases w with
  | error e => cases hok
  | ok m =>
    have hp : FormGraph.twinCycles.ModulesProper := by
      refine FormGraph.modulesProper_of_slots fun f x hmem hx => ?_
      simp only [FormGraph.twinCycles,List.mem_cons,List.not_mem_nil,Slot.defined.injEq,
        or_false] at hmem
      rcases hmem with rfl | rfl | rfl | rfl <;> cases hx
    obtain ⟨hclean,-,hforms,-,-,hnew⟩ := @readNode_writtenForms default ⟨.twinCycles,.empty⟩
      [⟨0⟩,⟨2⟩] m FormGraph.reachable_twinCycles hp rfl rfl hw
    obtain ⟨name,held,f,new,f',hname,-,-,hsymbol,-,-,hsame,-⟩ := hnew ⟨2⟩ (by simp) ⟨2⟩ .refl
    cases hname
    exact ⟨m,rfl,hclean,hforms,new,hsymbol,hsame⟩

end AddressedForms
