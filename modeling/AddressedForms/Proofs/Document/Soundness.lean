import AddressedForms.Proofs.Denotator.Operations
import AddressedForms.Proofs.Document.LeavesInRange
import AddressedForms.Proofs.Repository.Registration
set_option autoImplicit false

/-!
What any document leaves behind, with errors or without: forms that are all defined, and denotators
that are valid and have their sets sorted.
-/

namespace AddressedForms

namespace Denotator

theorem WellFormed.extend {g h : FormGraph} {d : Denotator} (hg : g.NamesUnique)
    (hh : h.NamesUnique) (hk : g.Keeps h) (hd : WellFormed g d) : WellFormed h d :=
  ⟨validate_extend hg hh hk hd.valid,hd.sorted,hd.proper⟩

end Denotator

namespace DenotatorSketch
open Denotator
variable {env : Surroundings} {n : Node} {kind : Kind} {form : FormId} {a : Module}
  {parts : List (Attempt Denotator)} {d : Denotator} (hu : env.graph.NamesUnique)
  (hl : env.leaves.InRange)
include hl

theorem ensures_addressOf (n : Node) : (addressOf env n).Ensures fun a => a.isProper := by
  unfold addressOf
  split
  · exact Attempt.ensures_success rfl
  · split
    · exact Module.ensures_ofNested hl _
    · exact Attempt.ensures_malformed _ _

include hu

theorem Constructs.wellFormed (h : Constructs env n form a parts kind d) (ha : a.isProper)
    (hp : ∀ part ∈ parts, part.Ensures (WellFormed env.graph)) : WellFormed env.graph d := by
  cases h with
  | simple hc hf hd => exact .ofMorphism hu (Morphism.ensures_ofCoordinate hl ha _ _ hf) hd
  | limit hds hd => exact .ofLimit hu (Attempt.ensures_all hp _ hds) hd
  | colimit hparts he hd =>
    exact .ofVariant hu (hp _ (hparts ▸ List.mem_cons_self) _ he) hd
  | power hds hd => exact .ofSet hu (Attempt.ensures_all hp _ hds) hd
  | list hds hd => exact .ofList hu (Attempt.ensures_all hp _ hds) hd

theorem ensures_assemble (n : Node) (hp : ∀ part ∈ parts, part.Ensures (WellFormed env.graph)) :
    (assemble env n parts).Ensures (WellFormed env.graph) := by
  intro x hx
  obtain ⟨kind,form,a,d,e,h⟩ := exists_assembles hx
  have ha : a.isProper := ensures_addressOf hl n a h.atAddress
  have hd : WellFormed env.graph d := h.value.wellFormed hu hl ha hp
  have he : WellFormed env.graph e := by
    rcases h.moved with ⟨-,rfl⟩ | hm
    · exact hd
    · exact (hd.readdressTo? hu ha hm).1
  rw [h.named]
  split
  · exact he.rename hu _
  · exact he

end DenotatorSketch

namespace DenotatorSketch
open Denotator
variable {env : Surroundings} {look : String → Attempt Denotator} {P : Denotator → Prop}
  (ha : ∀ n parts, (∀ part ∈ parts, part.Ensures P) → (assemble env n parts).Ensures P)
  (hk : ∀ name, (look name).Ensures P)
include ha hk

theorem ensures_build (s : DenotatorSketch) : (s.build env look).Ensures P := by
  induction s using DenotatorSketch.rec (motive_2 := fun ss =>
    ∀ part ∈ buildAll env look ss, part.Ensures P) with
  | use name | define name => exact hk name
  | inline n parts ih => exact ha n _ ih
  | nil =>
    rename_i h
    cases h
  | cons s ss ihs ihss =>
    rename_i part h
    rcases List.mem_cons.mp h with rfl | h
    · exact ihs
    · exact ihss part h

theorem ensures_definition (defs : Table DenotatorDefinition) (name : String) :
    (DenotatorDefinition.build env look defs name).Ensures P := by
  unfold DenotatorDefinition.build
  split
  · refine ha _ _ fun part hpart => ?_
    rw [buildAll_eq] at hpart
    obtain ⟨s,-,rfl⟩ := List.mem_map.mp hpart
    exact ensures_build ha hk s
  · exact Attempt.ensures_silent

end DenotatorSketch

namespace FormGraph
variable {g h k : FormGraph}

/-- A graph with new forms beside the old ones. All of them are defined, over each other and over
forms that were registered before. -/
structure Enlarges (g h : FormGraph) : Prop where
  old : ∀ x, g.contains x → h.slot? x = g.slot? x
  new : ∀ x, h.contains x → ¬ g.contains x → ∃ f, h.get? x = some f ∧
    ∀ sub ∈ f.subForms, h.contains sub ∧ ¬ g.contains sub ∨ ∃ name, g.lookup? name = some sub

theorem enlarges_refl (g : FormGraph) : g.Enlarges g := ⟨fun _ _ => rfl,fun _ h hn => absurd h hn⟩

theorem Marks.contains {ids : List FormId} (hm : Marks ids g h) (x : FormId) :
    h.contains x ↔ g.contains x := by
  rw [contains_iff_name?,contains_iff_name?,hm.name?]

theorem Marks.size {ids : List FormId} (hm : Marks ids g h) : h.size = g.size := by
  have hleft := hm.contains ⟨g.size⟩
  have hright := hm.contains ⟨h.size⟩
  simp only [FormGraph.contains,decide_eq_true_eq] at hleft hright
  omega

theorem Enlarges.marks {ids : List FormId} (he : g.Enlarges h) (hm : Marks ids h k)
    (hnew : ∀ x ∈ ids, ¬ g.contains x) : g.Enlarges k where
  old x hx := by
    rcases hm x with hslot | ⟨hid,-⟩
    · exact hslot.trans (he.old x hx)
    · exact absurd hx (hnew x hid)
  new x hx hn := by
    obtain ⟨f,hf,hsubs⟩ := he.new x ((hm.contains x).mp hx) hn
    obtain ⟨b,hb⟩ := hm.get? hf
    refine ⟨_,hb,fun sub hsub => (hsubs sub hsub).imp_left fun h => ?_⟩
    exact ⟨(hm.contains sub).mpr h.1,h.2⟩

end FormGraph

namespace FormPlan
variable {l : LeafScope} {c : Catalogue} {s : FormSketches} {p : FormPlan}

theorem catalogued_of_mem_parts (hp : p ∈ ofSketches l c s) {id : FormId}
    (hid : .catalogued id ∈ p.parts) : ∃ name, c.forms.get? name = some id := by
  obtain ⟨f,-,hfp⟩ := mem_ofSketches hp
  obtain ⟨-,m,parts,-,hparts,rfl⟩ := ofSketch_eq_some hfp
  obtain ⟨name,-,hname⟩ := exists_of_forall₂_right hparts hid
  refine ⟨name,?_⟩
  unfold PlannedPart.ofName? at hname
  split at hname
  · cases hname
  · obtain ⟨_,hget,hname⟩ := Option.map_eq_some_iff.mp hname
    cases hname
    exact hget

end FormPlan

namespace Definitions
variable {root : Node} {d : Definitions} {g : FormGraph} {v : Vocabulary} {c : Catalogue}

section
variable (hd : d.Drawn root) (hn : d.forms.names.Nodup)
include hd hn

theorem enlarges_built (hc : ∀ name id, c.forms.get? name = some id → g.lookup? name = some id)
    (hi : ∀ name id, c.forms.get? name = some id → g.contains id) :
    g.Enlarges (d.built v c g).graph := by
  have hclosed : FormPlan.Closed g (d.plans v c) := closed_plans hd hn hi
  have hext := extended hd hn hi (v := v)
  refine ⟨hext.old,fun x hx hnew => ?_⟩
  obtain ⟨p,hp,hid⟩ := (FormExtension.covers_ofPlans g hclosed.names x hx).resolve_left hnew
  obtain ⟨-,f,hf,hb⟩ := hext.of_get? hp hid
  refine ⟨f,hf,fun sub hsub => ?_⟩
  obtain ⟨t,ht,hsub⟩ := exists_of_forall₂_right ((hclosed.fit p hp).bodyOf hb.body).subForms hsub
  have ht : t ∈ p.parts := by
    split at ht
    · cases ht
    · exact ht
  rcases hclosed.parts p hp t ht with ⟨q,hq,rfl⟩ | ⟨id,rfl,-⟩
  · obtain ⟨hsubnew,e,he,-⟩ := hext.of_get? hq hsub
    exact .inl ⟨FormGraph.contains_of_get? he,hsubnew⟩
  · cases hsub
    obtain ⟨name,hname⟩ := FormPlan.catalogued_of_mem_parts hp ht
    exact .inr ⟨name,hc name _ hname⟩

end

section
variable {P : Denotator → Prop} (ha : ∀ n parts, (∀ part ∈ parts, part.Ensures P) →
    (DenotatorSketch.assemble (d.surroundings v c g) n parts).Ensures P)
  (hc : ∀ name x, c.denotators.get? name = some x → P x)
include ha hc

theorem ensures_resolved : ∀ name x, (d.resolved v c g).table.get? name = some (.value x) → P x :=
  Resolution.values_settleAll .denotator fun _ name _ ht =>
    DenotatorSketch.ensures_definition ha (Resolution.ensures_lookup .denotator hc ht)
      d.denotators name

theorem ensures_attempt (s : DenotatorSketch) : (d.attempt v c g s).Ensures P :=
  DenotatorSketch.ensures_build ha
    (Resolution.ensures_lookup .denotator hc (ensures_resolved ha hc)) s

end
end Definitions

namespace Repository
variable {r : Repository}

def ModulesProper (r : Repository) : Prop := ∀ name d, r.denotator? name = some d →
  ∀ n ∈ d.nodes, n.address.isProper ∧ ∀ m, n.morphism? = some m → m.modulesProper

theorem Reachable.wellFormed (hr : r.Reachable) (hm : r.ModulesProper) {name : String}
    {d : Denotator} (hd : r.denotator? name = some d) : d.WellFormed r.forms :=
  ⟨(hr.catalogued name d hd).1,hr.sorted name d hd,hm name d hd⟩

end Repository

namespace Reading

structure Sound (r : Repository) (g : Reading) : Prop where
  forms : r.forms.Enlarges g.repository.forms
  fresh : ∀ e ∈ g.forms, ¬ r.forms.contains e.2
  denotators : ∀ d ∈ g.denotators, d.WellFormed g.repository.forms
  symbols : ∀ e ∈ g.symbols.denotators, e.2.WellFormed g.repository.forms

/-- What holds in the catalogue, and is handed on by assembly, holds of all that is read. -/
theorem ensures_ofNode {P : Denotator → Prop} {v : Vocabulary} {c : Catalogue} {root : Node}
    {r : Repository} (ha : ∀ n parts, (∀ part ∈ parts, part.Ensures P) →
      (DenotatorSketch.assemble ((Definitions.ofRoot root).surroundings v c r.forms) n
        parts).Ensures P)
    (hc : ∀ name x, c.denotators.get? name = some x → P x) :
    (∀ x ∈ (ofNode v c root r).denotators, P x) ∧
      ∀ e ∈ (ofNode v c root r).symbols.denotators, P e.2 := by
  rw [ofNode_eq]
  refine ⟨fun x hx => ?_,fun e he => ?_⟩
  · obtain ⟨a,hattempt,hx⟩ := List.mem_filterMap.mp hx
    obtain ⟨s,-,rfl⟩ := List.mem_map.mp hattempt
    exact Definitions.ensures_attempt ha hc s x hx
  · exact Definitions.ensures_resolved ha hc e.1 e.2 (Resolution.get?_of_mem_values he)

theorem sound_ofNode {r : Repository} (hr : r.Reachable) (hm : r.ModulesProper) (v : Vocabulary)
    (consulted : Bool) (root : Node) :
    (ofNode v (.ofRepository r consulted) root r).Sound r := by
  have hd := Definitions.drawn_ofRoot root
  have hn := (Definitions.collects_ofRoot root).forms
  have hi := (hr.catalogue consulted).forms
  set c := Catalogue.ofRepository r consulted
  set d := Definitions.ofRoot root
  have hext : FormExtension.Extended r.forms (d.plans v c) (d.extension v c r.forms) :=
    Definitions.extended hd hn hi
  have hu : (d.surroundings v c r.forms).graph.NamesUnique :=
    (hext.reachable hr.forms).sound.namesUnique
  have hl : (d.surroundings v c r.forms).leaves.InRange := (Leaves.inRange_resolve v d).scope
  have hkeeps : r.forms.Keeps (d.surroundings v c r.forms).graph :=
    (FormExtension.follows_ofPlans r.forms (d.plans v c)).grows.keeps
  have hold (name : String) (x : Denotator) (hx : c.denotators.get? name = some x) :
      x.WellFormed (d.surroundings v c r.forms).graph :=
    (hr.wellFormed hm (Catalogue.denotator?_of_ofRepository hx)).extend
      hr.forms.sound.namesUnique hu hkeeps
  obtain ⟨hdenotators,hsymbols⟩ := ensures_ofNode
    (fun n _ => DenotatorSketch.ensures_assemble hu hl n) hold
  refine ⟨?_,fun e he => ?_,?_,?_⟩
  · rw [ofNode_eq]
    exact Definitions.enlarges_built hd hn (fun name id h => Catalogue.form?_of_ofRepository h) hi
  · rw [ofNode_eq] at he
    have htop := (Definitions.top_names (v := v) (c := c) (g := r.forms) hn).2 e he
    obtain ⟨p,-,-,hnew,-⟩ := Definitions.exists_form hd hn hi htop
    exact hnew
  · rw [ofNode_eq] at hdenotators ⊢
    exact hdenotators
  · rw [ofNode_eq] at hsymbols ⊢
    exact hsymbols

theorem Sound.register {r : Repository} {g : Reading} (hg : g.Sound r)
    (hu : g.repository.forms.Reachable) (he : Entered g g.register) : g.register.Sound r := by
  have hsame := registered_register g
  have hfollows := Repository.follows_register g
  have hextend {x : Denotator} (hx : x.WellFormed g.repository.forms) :
      x.WellFormed g.register.repository.forms :=
    hx.extend hu.sound.namesUnique (hfollows.forms.reachable hu).sound.namesUnique
      hfollows.forms.grows.keeps
  refine ⟨hg.forms.marks he.marks fun x hx => ?_,?_,?_,?_⟩
  · obtain ⟨e,hmem,rfl⟩ := List.mem_map.mp hx
    exact hg.fresh e hmem
  · rw [hsame.forms]
    exact hg.fresh
  · rw [hsame.denotators]
    exact fun d hd => hextend (hg.denotators d hd)
  · rw [hsame.symbols]
    exact fun e he => hextend (hg.symbols e he)

end Reading

/-- Whatever is read, and however it goes: what was there before is untouched, all that is new is
defined, over what is new or was registered before, and all denotators that come of it are valid
and have their sets sorted. -/
theorem Reader.readNode?_sound {r : Repository} (hr : r.Reachable) (hm : r.ModulesProper)
    (a : Reader) (root : Option Node) :
    let o := (a.readNode? root r).1
    let s := (a.readNode? root r).2.2
    (∀ x, r.forms.contains x → s.forms.slot? x = r.forms.slot? x) ∧
    (∀ x, s.forms.contains x → ¬ r.forms.contains x → ∃ f, s.forms.get? x = some f ∧
      ∀ sub ∈ f.subForms, s.forms.contains sub ∧ ¬ r.forms.contains sub ∨
        ∃ name, r.form? name = some sub) ∧
    (∀ d ∈ o.denotators, d.validate s.forms = .ok () ∧ d.IsSorted) ∧
    ∀ name d, (name,d) ∈ o.symbols.denotators → d.validate s.forms = .ok () ∧ d.IsSorted := by
  intro o s
  cases root with
  | none =>
    have hsame := FormGraph.enlarges_refl r.forms
    exact ⟨hsame.old,hsame.new,nofun,nofun⟩
  | some root =>
    obtain ⟨-,hdenotators,hsymbols⟩ := a.readNode_fields root r
    obtain ⟨hyes,hno⟩ := a.readNode_entered root hr
    set g := Reading.ofNode a.vocabulary (.ofRepository r a.settings.catalogFallback) root r
    have hg : g.Sound r := Reading.sound_ofNode hr hm _ _ root
    have hsound : ∃ h : Reading, h.Sound r ∧ Reading.Registered g h ∧ s = h.repository := by
      by_cases hreg : a.Registers (some root) r
      · obtain ⟨hs,hentered⟩ := hyes hreg
        have hreachable : g.repository.forms.Reachable :=
          (Repository.follows_ofNode _ _ _ r).forms.reachable hr.forms
        exact ⟨_,hg.register hreachable hentered,Reading.registered_register g,hs⟩
      · exact ⟨g,hg,.refl g,hno hreg⟩
    obtain ⟨h,hh,hsame,hs⟩ := hsound
    rw [hs]
    refine ⟨hh.forms.old,hh.forms.new,fun d hd => ?_,fun name d hd => ?_⟩
    · have hd : d ∈ h.denotators := hsame.denotators ▸ hdenotators ▸ hd
      exact ⟨(hh.denotators d hd).valid,(hh.denotators d hd).sorted⟩
    · have hd : (name,d) ∈ h.symbols.denotators := hsame.symbols ▸ hsymbols ▸ hd
      exact ⟨(hh.symbols _ hd).valid,(hh.symbols _ hd).sorted⟩

/-- A form is nowhere, and still the other form and both other denotators are sound. -/
theorem Reader.readNode?_chords :
    let o := (default.readNode? (some .chords) .pitches).1
    let s := (default.readNode? (some .chords) .pitches).2.2
    o.errors.kept = [.unresolvedReference .form "Rhythm"] ∧ o.denotators.length = 2 ∧
    Repository.pitches.forms.size = 1 ∧ s.forms.size = 2 ∧
    s.forms.slot? ⟨0⟩ = Repository.pitches.forms.slot? ⟨0⟩ ∧
    (∃ f, s.forms.get? ⟨1⟩ = some f ∧ ∀ sub ∈ f.subForms,
      s.forms.contains sub ∧ ¬ Repository.pitches.forms.contains sub ∨
        ∃ name, Repository.pitches.form? name = some sub) ∧
    ∀ d ∈ o.denotators, d.validate s.forms = .ok () ∧ d.IsSorted := by
  have hold : Repository.pitches.forms.size = 1 := by cbv
  have hsize : (default.readNode? (some .chords) .pitches).2.2.forms.size = 2 := by cbv
  have hm : Repository.pitches.ModulesProper := by
    intro name d hd
    have hnone : Repository.pitches.denotators = .empty := by cbv
    rw [Repository.denotator?,hnone] at hd
    cases hd
  obtain ⟨hslot,hnew,hdenotators,-⟩ :=
    readNode?_sound (r := .pitches) ⟨_,rfl⟩ hm default (some .chords)
  exact ⟨by cbv,by cbv,hold,hsize,hslot ⟨0⟩ (by simp [FormGraph.contains,hold]),
    hnew ⟨1⟩ (by simp [FormGraph.contains,hsize]) (by simp [FormGraph.contains,hold]),hdenotators⟩

end AddressedForms
