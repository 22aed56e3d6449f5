import AddressedForms.Proofs.Document.CoincidingReadings
import AddressedForms.Proofs.Document.Completeness
set_option autoImplicit false

/-!
Names of a document are not captured. What is read without reports reads the same in a larger
catalogue, since every name in it is found already; so what is read without any catalogue depends
on the size of the graph only, whatever is registered there and under whatever names.
-/

namespace AddressedForms

/-- A catalogue of which another one has every entry. -/
structure Catalogue.Within (c c' : Catalogue) : Prop where
  forms : ∀ name id, c.forms.get? name = some id → c'.forms.get? name = some id
  denotators : ∀ name d, c.denotators.get? name = some d → c'.denotators.get? name = some d

theorem Resolution.lookup_of_within {α : Type} {outside outside' : String → Option α} {k : String}
    {t : Table (Resolution α)} (hw : ∀ x, outside k = some x → outside' k = some x)
    (hk : t.get? k = none → (outside k).isSome) (s : Symbol) :
    lookup s outside' t k = lookup s outside t k := by
  unfold lookup
  cases ht : t.get? k with
  | some x => cases x <;> rfl
  | none =>
    obtain ⟨x,hx⟩ := Option.isSome_iff_exists.mp (hk ht)
    dsimp only
    rw [hx,hw x hx]

namespace NameSpace
variable {d : Definitions} {ds : Table DenotatorDefinition} {c c' : Catalogue} {root : Node}

theorem has_of_within (hw : c.Within c') {s : Symbol} {name : String} (h : has ⟨d,ds,c⟩ s name) :
    has ⟨d,ds,c'⟩ s name := by
  have hforms (hk : c.forms.contains name) : c'.forms.contains name :=
    have ⟨id,hid⟩ := Table.exists_of_contains hk
    Table.contains_of_get? (hw.forms name id hid)
  have hdenotators (hk : c.denotators.contains name) : c'.denotators.contains name :=
    have ⟨x,hx⟩ := Table.exists_of_contains hk
    Table.contains_of_get? (hw.denotators name x hx)
  cases s with
  | form =>
    simp only [has,Bool.or_eq_true] at h ⊢
    exact h.imp_right hforms
  | denotator =>
    simp only [has,Bool.or_eq_true] at h ⊢
    exact h.imp_right hdenotators
  | module | element | morphism => exact h

theorem Answers.of_within (hw : c.Within c') (h : Answers ⟨d,ds,c⟩ root) :
    Answers ⟨d,ds,c'⟩ root := fun e he => has_of_within hw (h e he)

theorem Answers.unresolved {n : NameSpace} (h : n.Answers root) :
    n.unresolved (Reading.referencesOf root) = [] := by
  unfold NameSpace.unresolved
  rw [List.map_eq_nil_iff,List.filter_eq_nil_iff]
  intro e he
  rw [List.mem_eraseDups,Reading.referencesOf] at he
  split at he
  · simp [h e he]
  · cases he

end NameSpace

theorem PlannedPart.ofName?_of_within {c c' : Catalogue} (hw : c.Within c') {s : FormSketches}
    {k : String} {t : PlannedPart} (h : ofName? s c k = some t) : ofName? s c' k = some t := by
  unfold ofName? at h ⊢
  split at h
  · exact h
  · obtain ⟨id,hid,rfl⟩ := Option.map_eq_some_iff.mp h
    rw [hw.forms k id hid]
    rfl

theorem FormPlan.ofSketch_of_within {c c' : Catalogue} (hw : c.Within c') {s : FormSketches}
    {f : FormSketch} (h : ∀ k ∈ f.parts, (PlannedPart.ofName? s c k).isSome) (l : LeafScope) :
    ofSketch l c' s f = ofSketch l c s f := by
  obtain ⟨ts,hts⟩ := exists_forall₂ fun k hk => Option.isSome_iff_exists.mp (h k hk)
  have hts' := hts.imp fun _ _ => PlannedPart.ofName?_of_within hw
  rw [ofSketch,ofSketch,mapM_eq_some_iff.mpr hts,mapM_eq_some_iff.mpr hts']

namespace Definitions
variable {root : Node} {d : Definitions} {v : Vocabulary} {c c' : Catalogue} {g : FormGraph}
  (hw : c.Within c')
include hw

theorem CleanForms.built_eq (h : CleanForms root d v c g) : d.built v c' g = d.built v c g := by
  have hplans : d.forms.sketches.map (FormPlan.ofSketch (d.scope v) c' d.forms) =
      d.forms.sketches.map (FormPlan.ofSketch (d.scope v) c d.forms) :=
    List.map_congr_left fun f hf =>
      FormPlan.ofSketch_of_within hw (fun k hk => h.isSome_ofName? hf hk) _
  simp only [Definitions.built,BuiltForms.ofSketches,hplans]

variable (h : CleanDocument root d v c g)
include h

theorem CleanDocument.mentions_eq {n : Node} (hn : root.Inside n) (ht : n.tag = "Denotator") :
    Attempt.Congruence.Mentions (fun _ a b => a = b)
      (fun k => (Resolution.lookup .form c'.forms.get? (d.built v c g).table k).value?)
      (fun k => (Resolution.lookup .form c.forms.get? (d.built v c g).table k).value?)
      (Leaves.resolve v d).1.meanings (Leaves.resolve v d).1.meanings n where
  leaves := ⟨fun _ _ => rfl,fun _ _ => rfl,fun _ _ => rfl⟩
  form k hk := by
    have href : (.form,k) ∈ root.references := by
      refine hn.references ?_
      rw [Node.references_eq]
      exact List.mem_append_left _ (by simp [Node.ownReferences,hk,ht])
    have hsome : (Resolution.lookup .form c.forms.get? (d.built v c g).table k).value?.isSome :=
      h.supplied.forms k href
    rw [Resolution.lookup_of_within (hw.forms k)]
    intro hnone
    rw [Resolution.lookup,hnone] at hsome
    rwa [Attempt.value?_ofOption] at hsome

theorem CleanDocument.resolved_eq : d.resolved v c' g = d.resolved v c g := by
  rw [Definitions.resolved,Definitions.resolved,surroundings,surroundings,h.built_eq hw]
  refine Resolution.settleAll_congr .denotator fun t name hp => ?_
  obtain ⟨x,hx⟩ := Table.exists_of_contains ((Table.contains_iff_mem_keys _ _).mpr hp.mem)
  have hwithin := within_of_get? hx
  refine Attempt.congruence_eq.definition _ hx (fun n hn => ?_) fun k hk => ?_
  · obtain ⟨hin,ht⟩ := (h.drawn.sketches.within hwithin).nodes n
      (by simpa [DenotatorSketch.allNodes,DenotatorSketch.nodes] using hn)
    exact h.mentions_eq hw hin ht
  · refine Resolution.lookup_of_within (hw.denotators k) (fun hnone => ?_) _
    simp only [DenotatorDefinition.uses,hx] at hk
    exact (h.supplied.uses h.drawn v c g hwithin (List.mem_append_left _ hk)).resolve_left
      ((hp.keys k).mp hnone)

theorem CleanDocument.attempt_eq {s : DenotatorSketch} (hs : s ∈ d.sketches) :
    d.attempt v c' g s = d.attempt v c g s := by
  have hwithin := DenotatorSketch.within_of_mem hs
  have hkeys : ∀ k, (d.resolved v c g).table.get? k = none ↔ k ∉ d.denotators.keys :=
    (Resolution.through_settleAll .denotator).keys
  rw [Definitions.attempt,Definitions.attempt,h.resolved_eq hw,surroundings,surroundings,h.built_eq hw]
  refine Attempt.congruence_eq.build _ s (fun n hn => ?_) fun k hk => ?_
  · obtain ⟨hin,ht⟩ := (h.drawn.sketches.within hwithin).nodes n (List.mem_append_left _ hn)
    exact h.mentions_eq hw hin ht
  · refine Resolution.lookup_of_within (hw.denotators k) (fun hnone => ?_) _
    exact (h.supplied.uses h.drawn v c g hwithin (List.mem_append_left _ hk)).resolve_left
      ((hkeys k).mp hnone)

end Definitions

/-- A document that is read without reports does not notice further entries of the catalogue. -/
theorem Reading.ofNode_of_within {v : Vocabulary} {c c' : Catalogue} {root : Node} {r : Repository}
    (hw : c.Within c') (h : Definitions.CleanDocument root (.ofRoot root) v c r.forms) :
    ofNode v c' root r = ofNode v c root r := by
  rw [ofNode_eq,ofNode_eq]
  have hattempts := List.map_congr_left fun s hs => h.attempt_eq hw (s := s) hs
  simp only [h.built_eq hw,h.resolved_eq hw,hattempts,h.answers.unresolved,
    (h.answers.of_within hw).unresolved]

theorem Catalogue.within_empty (c : Catalogue) : empty.Within c where
  forms name id h := by cases h
  denotators name d h := by cases h

theorem Catalogue.shared_empty {g h : FormGraph} (hs : h.size = g.size) :
    empty.Shared (fun _ => False) g h where
  size := hs
  coincide := ⟨fun _ hx => hx.elim,fun _ _ hx => hx.elim⟩
  contained _ hx := hx.elim
  forms name id h := by cases h
  denotators name d h := by cases h

/-- What is read without reports and without a catalogue is read the same into every graph of that
size, with any catalogue. -/
theorem Reading.ofNode_uncaptured {r s : Repository} (hr : r.Reachable) (hs : s.Reachable)
    (hsize : s.forms.size = r.forms.size) {v : Vocabulary} {root : Node}
    (h : (ofNode v .empty root r).reports = []) (c : Catalogue) :
    Same (ofNode v .empty root r) (ofNode v c root s) ∧
    ∀ x, ¬ r.forms.contains x → (ofNode v c root s).repository.forms.slot? x =
      (ofNode v .empty root r).repository.forms.slot? x := by
  obtain ⟨hsame,hslots,-⟩ := same_ofNode (Catalogue.shared_empty hsize) hr.forms hs.forms v root
  have hclean : (ofNode v .empty root s).reports = [] := hsame.reports.trans h
  have hlarger := ofNode_of_within (Catalogue.within_empty c)
    (cleanDocument_of_names (fun name id hid => by cases hid) hclean)
  rw [hlarger]
  exact ⟨hsame,hslots⟩

theorem Reading.fresh_ofNode (v : Vocabulary) {c : Catalogue} {r : Repository}
    (hc : ∀ name id, c.forms.get? name = some id → r.forms.contains id) (root : Node) :
    r.forms.Retains (ofNode v c root r).repository.forms ∧
    ∀ name id, (name,id) ∈ (ofNode v c root r).symbols.forms → ¬ r.forms.contains id := by
  have hd := Definitions.drawn_ofRoot root
  have hn := (Definitions.collects_ofRoot root).forms
  refine ⟨(Definitions.extended hd hn hc (v := v)).old,fun name id hmem => ?_⟩
  obtain ⟨p,-,-,hnew,-⟩ := Definitions.exists_form hd hn hc (v := v)
    (Resolution.get?_of_mem_values hmem)
  exact hnew

theorem Reader.reports_of_isSuccess {a : Reader} {root : Node} {r : Repository}
    (h : (a.readNode root r).1.isSuccess) :
    (Reading.ofNode a.vocabulary (.ofRepository r a.settings.catalogFallback) root r).reports =
      [] := by
  rw [(a.readNode_eq root r).1,Manuscript.isSuccess_ofReading_iff] at h
  split at h
  · exact List.prefix_nil.mp (h ▸ (Reading.registered_register _).reports)
  · exact h

theorem Reader.readNode_unregistered {a : Reader} (hs : a.settings.registerDecoded = false)
    (root : Node) (r : Repository) :
    let g := Reading.ofNode a.vocabulary (.ofRepository r a.settings.catalogFallback) root r
    let o := Outcome.ofReading g a.settings.maxErrors
    a.readNode root r = (o,{a with status := .ofOutcome o},g.repository) := by
  simp [readNode,Outcome.ofNode,hs]

def Reader.consulting (a : Reader) (consulted : Bool) : Reader :=
  {a with settings := {a.settings with catalogFallback := consulted}}

/-- A document that is read without errors where no catalogue is consulted has the same outcome, and
makes the same forms, in any repository of that size, whether the catalogue is consulted or not. -/
theorem Reader.readNode_uncaptured {r s : Repository} (hr : r.Reachable) (hs : s.Reachable)
    (hsize : s.forms.size = r.forms.size) {a : Reader} (hf : a.settings.catalogFallback = false)
    (hd : a.settings.registerDecoded = false) {root : Node} (h : (a.readNode root r).1.isSuccess)
    (consulted : Bool) :
    let first := a.readNode root r
    let second := (a.consulting consulted).readNode root s
    second.1 = first.1 ∧ second.1.isSuccess ∧ second.2.1.status = first.2.1.status ∧
    (∀ name id, (name,id) ∈ second.1.symbols.forms → ¬ s.forms.contains id) ∧
    (∀ x, ¬ s.forms.contains x → second.2.2.forms.slot? x = first.2.2.forms.slot? x) ∧
    (∀ x, s.forms.contains x → second.2.2.forms.slot? x = s.forms.slot? x) ∧
    second.2.2.form? = s.form? ∧ second.2.2.denotators = s.denotators := by
  intro first second
  have hfirst : first = _ := readNode_unregistered hd root r
  have hsecond : second = _ := readNode_unregistered (a := a.consulting consulted) hd root s
  have hreports : (Reading.ofNode a.vocabulary (.ofRepository r false) root r).reports = [] :=
    hf ▸ reports_of_isSuccess h
  obtain ⟨hsame,hslots⟩ :=
    Reading.ofNode_uncaptured hr hs hsize hreports (.ofRepository s consulted)
  obtain ⟨hretains,hfresh⟩ :=
    Reading.fresh_ofNode a.vocabulary (hs.catalogue consulted).forms root
  have houtcome : second.1 = first.1 := by
    rw [hsecond,hfirst,hf]
    exact Outcome.ofReading_eq_of_same hsame _
  have hcontains (x : FormId) : s.forms.contains x = r.forms.contains x := by
    simp [FormGraph.contains,hsize]
  refine ⟨houtcome,houtcome ▸ h,?_⟩
  rw [hsecond,hfirst,hf]
  refine ⟨congrArg ReaderStatus.ofOutcome (Outcome.ofReading_eq_of_same hsame _),hfresh,
    fun x hx => hslots x (hcontains x ▸ hx),hretains,Reading.form?_ofNode _ _ _ _,rfl⟩

def Reader.isolated : Reader := .new .builtins {Settings.default with catalogFallback := false}

def Node.solo : Node :=
  let pitch := (((leaf "Form").withAttr "name" "Pitch").withAttr "type" "Simple").withChildren
    [(leaf "Module").withAttr "type" "ZRing"]
  song.withChildren (pitch :: song.children)

def Repository.glides : Repository := empty.run [.add "Pitch" (.simple .r),.registerForm ⟨0⟩]

/-- The pitches of the song are not taken for what is registered under their name. -/
theorem Reader.readNode_solo :
    let first := isolated.readNode .solo .pitches
    let second := (isolated.consulting true).readNode .solo .glides
    Repository.glides.forms.size = Repository.pitches.forms.size ∧
    Repository.glides.form? "Pitch" = some ⟨0⟩ ∧
    first.1.isSuccess ∧ second.1 = first.1 ∧
    second.1.symbols.forms =
      [("Beat",⟨2⟩),("Note",⟨3⟩),("Pitch",⟨1⟩),("Song",⟨4⟩)] ∧
    second.2.2.forms.slot? ⟨1⟩ = first.2.2.forms.slot? ⟨1⟩ := by
  intro first second
  have hsize : Repository.glides.forms.size = Repository.pitches.forms.size := by cbv
  have hread : first.1.isSuccess ∧ first.1.symbols.forms =
      [("Beat",⟨2⟩),("Note",⟨3⟩),("Pitch",⟨1⟩),("Song",⟨4⟩)] := by cbv
  have hnew : Repository.glides.forms.contains ⟨1⟩ = false := by cbv
  obtain ⟨hsuccess,hforms⟩ := hread
  obtain ⟨houtcome,-,-,-,hslots,-⟩ := readNode_uncaptured (r := .pitches) (s := .glides)
    ⟨_,rfl⟩ ⟨_,rfl⟩ hsize (a := isolated) rfl rfl hsuccess true
  exact ⟨hsize,by cbv,hsuccess,houtcome,houtcome ▸ hforms,hslots ⟨1⟩ (by simp [hnew])⟩

end AddressedForms
