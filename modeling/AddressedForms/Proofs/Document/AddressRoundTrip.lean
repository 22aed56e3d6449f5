import AddressedForms.Denotator.Edit
import AddressedForms.Proofs.Denotator.Recovery
import AddressedForms.Proofs.Document.DenotatorRoundTrip
set_option autoImplicit false

/-!
What becomes of addresses. Everything without sets is read back with its addresses and coordinates
but for composites that have an address over factors without any: their factors are moved to it.
-/

namespace AddressedForms

namespace Denotator
variable {g : FormGraph} {d n : Denotator}

theorem Valid.sharedAddress_eq (h : Valid g n) (hs : n.SharesAddress) (hf : n.factors ≠ []) :
    sharedAddress n.factors = .ok n.address := by
  refine sharedAddress_eq_ok_iff.mpr ⟨h.address,?_⟩
  by_cases ha : n.address = .null
  · exact .inl ha
  · exact .inr (hs hf ha)

theorem Valid.null_of_not_sharesAddress (h : Valid g n) (hs : ¬ n.SharesAddress) :
    n.factors ≠ [] ∧ n.address ≠ .null ∧ ∀ f ∈ n.factors, f.address = .null := by
  simp only [SharesAddress,not_forall] at hs
  obtain ⟨hf,ha,hs⟩ := hs
  exact ⟨hf,ha,fun f hmem => (h.address f hmem).resolve_right fun he => hs ⟨f,hmem,he⟩⟩

structure IsOrdered (g : FormGraph) (d : Denotator) : Prop where
  valid : d.validate g = .ok ()
  proper : ∀ n ∈ d.nodes, n.ProperNode
  kind : ∀ n ∈ d.nodes, n.kind ≠ .power

theorem IsOrdered.restorable (h : d.IsOrdered g) (hg : g.NamesUnique) (env : Surroundings)
    (supposed : Prop) (hu : env.graph.NamesUnique) (ha : supposed ∨ d.IsAnchored) :
    ∀ n ∈ d.nodes, n.Restorable g env supposed (Recovers env.graph) := by
  intro n hn
  have hvalid := valid_of_validate hg h.valid n hn
  have hk := h.kind n hn
  refine ⟨h.proper n hn,hvalid.node,fun node y es hdescribes hy hes hc => ?_⟩
  have hnodes := hes.imp fun _ _ he => he.sameNode
  by_cases hs : n.SharesAddress
  · obtain ⟨e,he,hnode,hfactors⟩ :=
      hdescribes.assemble_kept hy hu hnodes (hvalid.sharedAddress_eq hs)
    rw [if_neg hk] at hfactors
    exact ⟨e,he,.kept hnode hk hs (hfactors ▸ hes)⟩
  · obtain ⟨hf,hnull,hfactors⟩ := hvalid.null_of_not_sharesAddress hs
    have hreports := hc (ha.resolve_right fun ha => hs (ha n hn))
    obtain ⟨e,he,hnode,hmoved⟩ :=
      hdescribes.assemble_moved hy hu hnodes hf hfactors hnull hk hreports
    exact ⟨e,he,.moved hnode hk hs hfactors hmoved⟩

end Denotator

/-- Whether every denotator that is asked for is told as one that agrees with it: under its name, or
in its turn among those at the top level that have none. -/
structure Outcome.Keeps (o : Outcome) (asked : List Entry) : Prop where
  named : ∀ d, .denotator d ∈ asked → ∀ name, d.name = some name →
    ∃ e, (name,e) ∈ o.symbols.denotators ∧ e.AgreesWith d
  anonymous : List.Forall₂ Denotator.AgreesWith (o.denotators.filter (·.name.isNone))
    (asked.filterMap Entry.anonymous?)

/-- Written denotators without sets are read back with all their addresses and coordinates just if
every address of a composite is shared by one of its factors; where they are read without errors,
this decides about each of them and each of their named nodes. -/
theorem Reader.readNode_keeps_iff {a : Reader} {r : Repository} {asked : List Entry}
    {m : Manuscript} (hr : r.forms.Reachable) (hmp : r.forms.ModulesProper)
    (ha : a.vocabulary = .builtins) (hs : a.settings.registerDecoded = false)
    (hw : (Manuscript.empty r.forms).writeAll asked = .ok m) (hp : ∀ e ∈ asked, e.leafIsProper)
    (hd : ∀ d, .denotator d ∈ asked → d.IsOrdered r.forms) :
    let o := (a.readNode m.node r).1
    (o.isSuccess ∧ o.Keeps asked ↔ ∀ d, .denotator d ∈ asked → d.IsAnchored) ∧
    (o.isSuccess →
      (∀ d, .denotator d ∈ asked → ∀ n ∈ d.nodes, ∀ name, n.name = some name →
        ∃ e, (name,e) ∈ o.symbols.denotators ∧ (e.AgreesWith n ↔ n.IsAnchored)) ∧
      List.Forall₂ (fun e d => e.AgreesWith d ↔ d.IsAnchored)
        (o.denotators.filter (·.name.isNone)) (asked.filterMap Entry.anonymous?)) := by
  intro o
  have hg := hr.sound
  obtain ⟨es,h⟩ := Manuscript.written_of_writeAll hw
  obtain ⟨ho,-⟩ := h.readNode_eq hg hp hmp rfl ha hs
  set c := Catalogue.ofRepository r a.settings.catalogFallback
  have hout : o = Outcome.ofReading (m.reading c r) a.settings.maxErrors := ho
  clear_value o
  subst hout
  rw [Manuscript.isSuccess_ofReading_iff]
  have hu := ((h.rebuilt hg hp hmp c).restored.reachable hr).sound.namesUnique
  have counterparts (supposed : Prop) (hc : supposed → (m.reading c r).reports = [])
      (ha : supposed ∨ ∀ d, .denotator d ∈ asked → d.IsAnchored) :=
    h.reading_counterparts hg hp hmp c (fun _ _ _ hv hab => hv.trans_alike hab)
      (h.forall_nodes fun d hmem => (hd d hmem).restorable hg.namesUnique (m.surroundings c)
        supposed hu (ha.imp_right fun ha => ha d hmem))
      (fun _ _ hv => hv.sameNode.name) r hc
  have decided (hclean : (m.reading c r).reports = []) :
      (∀ d, .denotator d ∈ asked → ∀ n ∈ d.nodes, ∀ name, n.name = some name →
        ∃ e, (name,e) ∈ (m.reading c r).symbols.denotators ∧ (e.AgreesWith n ↔ n.IsAnchored)) ∧
      List.Forall₂ (fun e d => e.AgreesWith d ↔ d.IsAnchored)
        ((m.reading c r).denotators.filter (·.name.isNone)) (asked.filterMap Entry.anonymous?) := by
    obtain ⟨-,hnamed,hanonymous⟩ := counterparts _ (fun _ => hclean) (.inl hclean)
    refine ⟨fun d hmem n hn name hname => ?_,hanonymous.imp fun _ _ he => he.agreesWith_iff⟩
    obtain ⟨e,he,hrecovers⟩ := hnamed d hmem n hn name hname
    exact ⟨e,he,hrecovers.agreesWith_iff⟩
  refine ⟨⟨fun ⟨hclean,hkeeps⟩ d hmem => ?_,fun hall => ?_⟩,decided⟩
  · obtain ⟨hnamed,hanonymous⟩ := decided hclean
    cases hname : d.name with
    | some name =>
      obtain ⟨e,he,hagree⟩ := hkeeps.named d hmem name hname
      obtain ⟨e',he',hiff⟩ := hnamed d hmem d (Denotator.self_mem_nodes d) name hname
      have hnodup := Resolution.nodup_values (m.resolved c).table
      cases List.inj_on_of_nodup_map hnodup he he' rfl
      exact hiff.mp hagree
    | none =>
      obtain ⟨j,hj⟩ := List.mem_iff_getElem?.mp (Entry.mem_filterMap_anonymous?.mpr ⟨hmem,hname⟩)
      obtain ⟨e,he,hagree⟩ := getElem?_of_forall₂ hkeeps.anonymous hj
      obtain ⟨e',he',hiff⟩ := getElem?_of_forall₂ hanonymous hj
      cases he.symm.trans he'
      exact hiff.mp hagree
  · obtain ⟨hclean,-,-⟩ := counterparts False False.elim (.inr hall)
    obtain ⟨hnamed,hanonymous⟩ := decided hclean
    refine ⟨hclean,fun d hmem name hname => ?_,?_⟩
    · obtain ⟨e,he,hiff⟩ := hnamed d hmem d (Denotator.self_mem_nodes d) name hname
      exact ⟨e,he,hiff.mpr (hall d hmem)⟩
    · exact forall₂_of_mem hanonymous fun e _ d hd hiff =>
        hiff.mpr (hall d (Entry.mem_filterMap_anonymous?.mp hd).1)

def Denotator.sustained : Denotator :=
  .list ⟨⟨1⟩,none,.z⟩ [.simple ⟨⟨0⟩,none,.null⟩ (.constant .null (.z 60))]

/-- The chord is left when a pitch that varies is replaced by a constant one. -/
example : (Denotator.list ⟨⟨1⟩,none,.z⟩ [.simple ⟨⟨0⟩,none,.z⟩ (.identity .z)]).setFactor .scores 0
    (.simple ⟨⟨0⟩,none,.null⟩ (.constant .null (.z 60))) = .ok .sustained := by cbv

theorem Denotator.isOrdered_sustained : sustained.IsOrdered .scores := by
  have hnodes : ∀ n ∈ sustained.nodes, n.ProperNode ∧ n.kind ≠ .power := by
    intro n hn
    simp only [sustained,nodes,allNodes,List.append_nil,List.mem_cons,List.not_mem_nil,
      or_false] at hn
    rcases hn with rfl | rfl
    · exact ⟨⟨by cbv,by rintro _ ⟨⟩,by rintro _ ⟨⟩⟩,by rintro ⟨⟩⟩
    · exact ⟨⟨by cbv,by rintro _ ⟨⟩; cbv,by rintro _ ⟨⟩⟩,by rintro ⟨⟩⟩
  exact ⟨by cbv,fun n hn => (hnodes n hn).1,fun n hn => (hnodes n hn).2⟩

/-- The chord is read back without errors and with its pitch moved to the integers. -/
theorem Reader.readNode_sustained : ∃ m,
    (Manuscript.empty .scores).writeAll [.denotator .sustained] = .ok m ∧
    let o := (default.readNode m.node ⟨.scores,.empty⟩).1
    o.isSuccess ∧ ¬ o.Keeps [.denotator .sustained] ∧
    ∃ e, o.denotators.filter (·.name.isNone) = [e] ∧ ¬ e.AgreesWith .sustained := by
  have hclean : ((Manuscript.empty .scores).writeAll [.denotator .sustained]).toOption.map
      (fun m => (default.readNode m.node ⟨.scores,.empty⟩).1.isSuccess) = some true := by cbv
  generalize hw : (Manuscript.empty .scores).writeAll [.denotator .sustained] = w at hclean
  cases w with
  | error e => cases hclean
  | ok m =>
    have hclean : (default.readNode m.node ⟨.scores,.empty⟩).1.isSuccess := Option.some.inj hclean
    have hloose : ¬ Denotator.sustained.IsAnchored := by
      intro h
      obtain ⟨f,hf,ha⟩ := h .sustained (Denotator.self_mem_nodes _) (by rintro ⟨⟩) (by rintro ⟨⟩)
      obtain rfl := List.mem_singleton.mp hf
      cases ha
    obtain ⟨hiff,hdecided⟩ := @readNode_keeps_iff default ⟨.scores,.empty⟩
      [.denotator .sustained] m FormGraph.reachable_scores FormGraph.modulesProper_scores rfl rfl hw
      (by simp [Entry.leafIsProper]) (by simp [Denotator.isOrdered_sustained])
    refine ⟨m,rfl,hclean,fun hkeeps => ?_,?_⟩
    · exact hloose (hiff.mp ⟨hclean,hkeeps⟩ .sustained (by simp))
    · have hone : [Entry.denotator .sustained].filterMap Entry.anonymous? = [.sustained] := by cbv
      have hanonymous := (hdecided hclean).2
      rw [hone] at hanonymous
      obtain ⟨e,es,he,hes,hfilter⟩ := List.forall₂_cons_right_iff.mp hanonymous
      rw [List.forall₂_nil_right_iff.mp hes] at hfilter
      exact ⟨e,hfilter,mt he.mp hloose⟩

end AddressedForms
