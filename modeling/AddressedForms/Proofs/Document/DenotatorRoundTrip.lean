import Mathlib
import AddressedForms.Proofs.Document.DenotatorReading
set_option autoImplicit false

/-!
The round trip of denotators: what is written of any values is read without errors, every named
denotator and every anonymous one as its equal, and every named leaf as it was.
-/

namespace AddressedForms

/-- A denotator as the checked constructors make it of proper leaves, over forms that their names
tell apart. -/
structure Denotator.Canonical (g : FormGraph) (d : Denotator) : Prop where
  valid : d.validate g = .ok ()
  proper : ∀ n ∈ d.nodes, n.ProperNode
  sorted : ∀ n ∈ d.nodes, n.kind = .power → StrictlySorted n.factors
  exact : ∀ n ∈ d.nodes, n.factors ≠ [] → sharedAddress n.factors = .ok n.address
  apart : ∀ a ∈ d.nodes, ∀ b ∈ d.nodes, g.name? a.form = g.name? b.form → a.form = b.form

/-- The members of a set are told apart, although forms are read as others with their names. -/
theorem Denotator.Canonical.restorable {g : FormGraph} {d : Denotator} (h : d.Canonical g)
    (hg : g.NamesUnique) (env : Surroundings) (supposed : Prop) (hu : env.graph.NamesUnique)
    (he : ∀ x f, g.get? x = some f → env.graph.get? x = some f) :
    ∀ n ∈ d.nodes, n.Restorable g env supposed (Alike env.graph) := by
  intro n hn
  have hplaced (x : Denotator) (hx : x ∈ d.nodes) := (valid_of_validate hg h.valid x hx).node
  have hname (x : Denotator) (hx : x ∈ d.nodes) : env.graph.name? x.form = g.name? x.form := by
    obtain ⟨f,hf,-⟩ := hplaced x hx
    rw [FormGraph.name?_of_get? hf,FormGraph.name?_of_get? (he _ _ hf)]
  refine ⟨h.proper n hn,hplaced n hn,fun node y es hdescribes hy hes _ =>
    hdescribes.assemble_alike hy hu hes (h.exact n hn) fun hk => ?_⟩
  refine (h.sorted n hn hk).nodup.imp_of_mem fun {a b} ha hb hne halike => hne ?_
  have hna {x : Denotator} (hx : x ∈ a.nodes) : x ∈ d.nodes :=
    nodes_trans hx (nodes_trans (mem_nodes_of_mem_factors ha) hn)
  have hnb {x : Denotator} (hx : x ∈ b.nodes) : x ∈ d.nodes :=
    nodes_trans hx (nodes_trans (mem_nodes_of_mem_factors hb) hn)
  refine halike.eq (fun x hx y hy hxy => ?_) (fun x hx => h.sorted x (hna hx))
    fun y hy => h.sorted y (hnb hy)
  have hsame := hxy.name?_eq
  rw [hname x (hna hx),hname y (hnb hy)] at hsame
  exact h.apart x (hna hx) y (hnb hy) hsame

namespace Leaves

theorem get?_of_lookup {α : Type} {s : Symbol} {t : Table (Resolution α)} {name : String} {x : α}
    (h : Resolution.lookup s nowhere t name = .success x) : t.get? name = some (.value x) := by
  unfold Resolution.lookup at h
  split at h
  · cases h
  · cases h
    assumption
  · cases h
  · cases h

end Leaves

namespace Manuscript

theorem mem_leafSymbols {m : Manuscript} (h : m.leaves.meanings.Knows m.names) :
    (∀ x name, (x,name) ∈ m.names.modules → (name,x) ∈ Resolution.values m.leaves.modules) ∧
    (∀ x name, (x,name) ∈ m.names.elements → (name,x) ∈ Resolution.values m.leaves.elements) ∧
    ∀ f name, (f,name) ∈ m.names.morphisms → (name,f) ∈ Resolution.values m.leaves.morphisms :=
  ⟨fun x name hx => Resolution.mem_values (Leaves.get?_of_lookup (h.modules x name hx)),
    fun x name hx => Resolution.mem_values (Leaves.get?_of_lookup (h.elements x name hx)),
    fun f name hf => Resolution.mem_values (Leaves.get?_of_lookup (h.morphisms f name hf))⟩

theorem Written.has_asked {g : FormGraph} {asked es : List Entry} {m : Manuscript}
    (h : Written g asked es m) {e : Entry} (he : e ∈ asked) (hd : ∀ d, e ≠ .denotator d) :
    m.Has e := by
  refine h.has e he e ?_
  cases e with
  | form id =>
    have hnil : g.ClosedUnder [] := by simp [FormGraph.ClosedUnder]
    exact List.mem_map_of_mem (g.dependencies_extends id hnil).mem
  | denotator d => exact absurd rfl (hd d)
  | module name x => simp [Entry.expand]
  | element name x => simp [Entry.expand]
  | morphism name f => simp [Entry.expand]

end Manuscript

/-- Written values are read back: forms and denotators as their equals, leaves as they were. -/
theorem Reader.readNode_writtenValues {a : Reader} {r : Repository} {asked : List Entry}
    {m : Manuscript} (hr : r.forms.Reachable) (hmp : r.forms.ModulesProper)
    (ha : a.vocabulary = .builtins) (hs : a.settings.registerDecoded = false)
    (hw : (Manuscript.empty r.forms).writeAll asked = .ok m) (hp : ∀ e ∈ asked, e.leafIsProper)
    (hd : ∀ d, .denotator d ∈ asked → d.Canonical r.forms) :
    let o := (a.readNode m.node r).1
    let ext := (a.readNode m.node r).2.2.forms
    o.isSuccess ∧
    (o.symbols.denotators.map Prod.fst).Nodup ∧
    (∀ d, .denotator d ∈ asked → ∀ n ∈ d.nodes, ∀ name, n.name = some name →
      ∃ v, (name,v) ∈ o.symbols.denotators ∧ v.equals ext n) ∧
    List.Forall₂ (fun v d => v.equals ext d) (o.denotators.filter (·.name.isNone))
      (asked.filterMap Entry.anonymous?) ∧
    (∀ id, .form id ∈ asked → ∃ name new, r.forms.name? id = some name ∧
      (name,new) ∈ o.symbols.forms ∧ ext.sameForm new id) ∧
    (∀ name x, .module name x ∈ asked → (name,x) ∈ o.symbols.modules) ∧
    (∀ name x, .element name x ∈ asked → (name,x) ∈ o.symbols.elements) ∧
    (∀ name f, .morphism name f ∈ asked → (name,f) ∈ o.symbols.morphisms) := by
  intro o ext
  have hg := hr.sound
  obtain ⟨es,h⟩ := Manuscript.written_of_writeAll hw
  obtain ⟨ho,hrepo⟩ := h.readNode_eq hg hp hmp rfl ha hs
  set c := Catalogue.ofRepository r a.settings.catalogFallback
  have hext : ext = (m.built c).graph := congrArg Repository.forms hrepo
  have hout : o = Outcome.ofReading (m.reading c r) a.settings.maxErrors := ho
  clear_value o ext
  subst hext hout
  have hrestored := (h.rebuilt hg hp hmp c).restored
  have hu := (hrestored.reachable hr).sound.namesUnique
  have hrestorable := h.forall_nodes fun d hmem => (hd d hmem).restorable hg.namesUnique
    (m.surroundings c) False hu fun _ _ => hrestored.get?
  obtain ⟨hclean,hnamed,hanonymous⟩ := h.reading_counterparts hg hp hmp c
    (fun _ _ _ hv hab => hv.trans hab) hrestorable (fun _ _ hv => hv.sameNode.name) r False.elim
  have hequal (v d : Denotator) := (Denotator.equals_iff_alike hu v d).mpr
  obtain ⟨hmodules,helements,hmorphisms⟩ := Manuscript.mem_leafSymbols (h.knows hg hp)
  refine ⟨(Manuscript.isSuccess_ofReading_iff _ _).mpr hclean,Resolution.nodup_values _,
    fun d hmem n hn name hname => ?_,hanonymous.imp hequal,fun id hid => ?_,
    fun name x hx => hmodules x name (h.has_asked hx nofun),
    fun name x hx => helements x name (h.has_asked hx nofun),
    fun name f hf => hmorphisms f name (h.has_asked hf nofun)⟩
  · obtain ⟨v,hv,halike⟩ := hnamed d hmem n hn name hname
    exact ⟨v,hv,hequal v n halike⟩
  · obtain ⟨name,held,f,new,f',hname,-,-,hvalue,-,-,hsim,-⟩ :=
      h.exists_similar hg hp hmp c (h.has_asked hid nofun)
    refine ⟨name,new,hname,Resolution.mem_values hvalue,?_⟩
    rw [FormGraph.sameForm_iff_similar hu]
    exact hsim.symm

def FormGraph.scores : FormGraph :=
  ⟨[.defined ⟨"Pitch",.simple .z,none,false⟩,.defined ⟨"Chord",.list ⟨0⟩,none,false⟩,
    .defined ⟨"Score",.power ⟨1⟩,none,false⟩],.empty⟩

theorem FormGraph.reachable_scores : scores.Reachable := by
  have declared := ((Reachable.empty.declare "Pitch" .simple).declare "Chord" .list).declare
    "Score" .power
  have a := @Reachable.define _ _ declared ⟨0⟩ (.simple .z) none rfl
  have b := @Reachable.define _ _ a ⟨1⟩ (.list ⟨0⟩) none rfl
  exact @Reachable.define _ _ b ⟨2⟩ (.power ⟨1⟩) none rfl

theorem FormGraph.modulesProper_scores : scores.ModulesProper := by
  refine modulesProper_of_slots fun f x hmem hx => ?_
  simp only [scores,List.mem_cons,List.not_mem_nil,Slot.defined.injEq,or_false] at hmem
  rcases hmem with rfl | rfl | rfl <;> cases hx
  rfl

def Denotator.score : Denotator :=
  let root := .simple ⟨⟨0⟩,some "Root",.null⟩ (.constant .null (.z 60))
  let glide := .simple ⟨⟨0⟩,none,.z⟩ (.identity .z)
  .power ⟨⟨2⟩,none,.z⟩
    [.list ⟨⟨1⟩,none,.z⟩ [root,glide],.list ⟨⟨1⟩,some "Tonic",.null⟩ [root,root]]

theorem Denotator.canonical_score : score.Canonical .scores := by
  have hnodes : ∀ n ∈ score.nodes, n.ProperNode ∧ (n.kind = .power → StrictlySorted n.factors) ∧
      (n.factors ≠ [] → sharedAddress n.factors = .ok n.address) := by
    intro n hn
    simp only [score,nodes,allNodes,List.cons_append,List.nil_append,List.mem_cons,
      List.not_mem_nil,or_false] at hn
    have hsorted : StrictlySorted score.factors := by
      refine List.pairwise_pair.mpr ?_
      cbv
    rcases hn with rfl | rfl | rfl | rfl | rfl | rfl | rfl
    · exact ⟨⟨by cbv,by rintro _ ⟨⟩,by rintro _ ⟨⟩⟩,fun _ => hsorted,fun _ => by cbv⟩
    · exact ⟨⟨by cbv,by rintro _ ⟨⟩,by rintro _ ⟨⟩⟩,by rintro ⟨⟩,fun _ => by cbv⟩
    · exact ⟨⟨by cbv,by rintro _ ⟨⟩; cbv,by rintro _ ⟨⟩⟩,by rintro ⟨⟩,fun h => absurd rfl h⟩
    · exact ⟨⟨by cbv,by rintro _ ⟨⟩; cbv,by rintro _ ⟨⟩⟩,by rintro ⟨⟩,fun h => absurd rfl h⟩
    · exact ⟨⟨by cbv,by rintro _ ⟨⟩,by rintro _ ⟨⟩⟩,by rintro ⟨⟩,fun _ => by cbv⟩
    · exact ⟨⟨by cbv,by rintro _ ⟨⟩; cbv,by rintro _ ⟨⟩⟩,by rintro ⟨⟩,fun h => absurd rfl h⟩
    · exact ⟨⟨by cbv,by rintro _ ⟨⟩; cbv,by rintro _ ⟨⟩⟩,by rintro ⟨⟩,fun h => absurd rfl h⟩
  have hforms : score.nodes.map form = [⟨2⟩,⟨1⟩,⟨0⟩,⟨0⟩,⟨1⟩,⟨0⟩,⟨0⟩] := by cbv
  have hapart : ∀ x ∈ score.nodes.map form, ∀ y ∈ score.nodes.map form,
      FormGraph.scores.name? x = FormGraph.scores.name? y → x = y := by
    rw [hforms]
    decide
  exact ⟨by cbv,fun n hn => (hnodes n hn).1,fun n hn => (hnodes n hn).2.1,
    fun n hn => (hnodes n hn).2.2,fun a ha b hb =>
      hapart _ (List.mem_map_of_mem ha) _ (List.mem_map_of_mem hb)⟩

/-- A pitch in both chords is read back under its name, and the set of the chords without one. -/
theorem Reader.readNode_score : ∃ m,
    (Manuscript.empty .scores).writeAll [.module "Clock" .z,.denotator .score] = .ok m ∧
    let o := (default.readNode m.node ⟨.scores,.empty⟩).1
    let ext := (default.readNode m.node ⟨.scores,.empty⟩).2.2.forms
    o.isSuccess ∧ ("Clock",.z) ∈ o.symbols.modules ∧
    (∃ v, ("Root",v) ∈ o.symbols.denotators ∧
      v.equals ext (.simple ⟨⟨0⟩,some "Root",.null⟩ (.constant .null (.z 60)))) ∧
    ∃ v, v ∈ o.denotators ∧ v.equals ext .score := by
  have hok : ((Manuscript.empty .scores).writeAll
      [.module "Clock" .z,.denotator .score]).toOption.isSome := by cbv
  generalize hw : (Manuscript.empty .scores).writeAll
    [.module "Clock" .z,.denotator .score] = w at hok
  cases w with
  | error e => cases hok
  | ok m =>
    obtain ⟨hclean,-,hnamed,hanonymous,-,hmodules,-,-⟩ := @readNode_writtenValues default
      ⟨.scores,.empty⟩ [.module "Clock" .z,.denotator .score] m FormGraph.reachable_scores
      FormGraph.modulesProper_scores rfl rfl hw (by simp [Entry.leafIsProper,Module.isProper])
      (by simp [Denotator.canonical_score])
    refine ⟨m,rfl,hclean,hmodules _ _ (by simp),?_,?_⟩
    · have hroot := hnamed .score (by simp)
        (.simple ⟨⟨0⟩,some "Root",.null⟩ (.constant .null (.z 60)))
      exact hroot (by simp [Denotator.score,Denotator.nodes,Denotator.allNodes]) "Root" rfl
    · have hmem : Denotator.score ∈
          [Entry.module "Clock" .z,.denotator .score].filterMap Entry.anonymous? := by
        simp [Entry.anonymous?,Denotator.score,Denotator.name,Denotator.head]
      obtain ⟨v,hv,he⟩ := exists_of_forall₂_right hanonymous hmem
      exact ⟨v,(List.mem_filter.mp hv).1,he⟩
end AddressedForms
