import AddressedForms.Proofs.Document.CoincidingForms
set_option autoImplicit false

/-!
A document in two repositories with graphs of one size. What it comes to is the same, with the same
numbers, where the graphs coincide in all that the catalogue gives.
-/

namespace AddressedForms

/-- A catalogue over some old numbers, in which two graphs of one size coincide. -/
structure Catalogue.Shared (c : Catalogue) (old : FormId → Prop) (g h : FormGraph) : Prop where
  size : h.size = g.size
  coincide : FormGraph.Coincide old g h
  contained : ∀ x, old x → g.contains x
  forms : ∀ name id, c.forms.get? name = some id → old id
  denotators : ∀ name d, c.denotators.get? name = some d →
    d.IsSorted ∧ ∀ n ∈ d.nodes, old n.form

theorem Catalogue.Shared.rel_denotators {c : Catalogue} {old : FormId → Prop} {g h : FormGraph}
    (hc : c.Shared old g h) (name : String) :
    Option.Rel (Denotator.Matches fun x y => x = y ∧ (old x ∨ ¬ g.contains x))
      (c.denotators.get? name) (c.denotators.get? name) :=
  Denotator.rel_get? (fun name x hx => ⟨(hc.denotators name x hx).1,
    fun n hn => ⟨rfl,.inl ((hc.denotators name x hx).2 n hn)⟩⟩) name

namespace Definitions
variable {root : Node} {d : Definitions} {v : Vocabulary} {c : Catalogue} {g h : FormGraph}
  {old : FormId → Prop}

section
variable (hc : c.Shared old g h) (hd : d.Drawn root) (hn : d.forms.names.Nodup)
include hc hd hn

theorem closed_left : FormPlan.Closed g (d.plans v c) :=
  closed_plans hd hn fun name id hid => hc.contained id (hc.forms name id hid)

theorem closed_right : FormPlan.Closed h (d.plans v c) := by
  refine closed_plans hd hn fun name id hid => ?_
  rw [FormGraph.contains,hc.size]
  exact hc.contained id (hc.forms name id hid)

theorem table_built_eq : (d.built v c h).table = (d.built v c g).table := by
  have hids : (d.extension v c h).ids = (d.extension v c g).ids :=
    FormExtension.ids_ofPlans_eq hc.size _
  have hidOf : (d.extension v c h).idOf? (d.plans v c) =
      (d.extension v c g).idOf? (d.plans v c) := by
    have hg : (d.extension v c g).sound (d.plans v c) = _ := (closed_left hc hd hn).sound_eq
    have hh : (d.extension v c h).sound (d.plans v c) = _ := (closed_right hc hd hn).sound_eq
    funext name
    rw [FormExtension.idOf?,FormExtension.idOf?,hg,hh,hids]
  rw [built,built,BuiltForms.table_eq,BuiltForms.table_eq]
  exact congrArg (fun idOf : String → Option FormId => Table.ofList (d.forms.names.map fun name =>
    (name,Resolution.ofOption (idOf name)))) hidOf

theorem top_built_eq : (d.built v c h).top = (d.built v c g).top := by
  rw [top_built,top_built]
  refine List.filterMap_congr fun f _ => ?_
  rw [BuiltForms.topOf?,BuiltForms.topOf?,table_built_eq hc hd hn]

theorem reports_built_eq : (d.built v c h).reports = (d.built v c g).reports := by
  have hg : (FormExtension.ofPlans g (d.plans v c)).reports = [] :=
    (closed_left hc hd hn).extended.reports
  have hh : (FormExtension.ofPlans h (d.plans v c)).reports = [] :=
    (closed_right hc hd hn).extended.reports
  rw [built,built,BuiltForms.reports_eq,BuiltForms.reports_eq]
  exact congrArg (_ ++ ·) (hh.trans hg.symm)

theorem slot?_built_eq {x : FormId} (hx : ¬ g.contains x) :
    (d.built v c h).graph.slot? x = (d.built v c g).graph.slot? x :=
  FormExtension.slot?_ofPlans_eq hc.size (closed_left hc hd hn) (closed_right hc hd hn) hx

theorem coincide_built : FormGraph.Coincide (fun x => old x ∨ ¬ g.contains x)
    (d.built v c g).graph (d.built v c h).graph := by
  refine FormExtension.coincide_ofPlans hc.size (closed_left hc hd hn) (closed_right hc hd hn)
    hc.coincide hc.contained fun p hp id hid => ?_
  obtain ⟨name,hname⟩ := FormPlan.catalogued_of_mem_parts hp hid
  exact hc.forms name id hname

end

section
variable (hc : c.Shared old g h) (hd : d.Drawn root) (hn : d.forms.names.Nodup)
  (hg : g.Reachable) (hh : h.Reachable)
include hc hd hn hg hh

theorem rel_surroundings : (d.surroundings v c g).Rel
    (fun x y => x = y ∧ (old x ∨ ¬ g.contains x)) (d.surroundings v c h) where
  twins := (coincide_built hc hd hn).twins
    ((closed_left hc hd hn).extended.reachable hg).sound.namesUnique
    ((closed_right hc hd hn).extended.reachable hh).sound.namesUnique
  form? name := by
    show Option.Rel _ (Resolution.lookup .form c.forms.get? (d.built v c g).table name).value?
      (Resolution.lookup .form c.forms.get? (d.built v c h).table name).value?
    rw [table_built_eq hc hd hn]
    refine (Attempt.rel_self fun id hid => ⟨rfl,?_⟩).value
    rcases Resolution.of_value?_lookup hid with hbuilt | ⟨-,hcat⟩
    · obtain ⟨p,-,-,hnew,-⟩ := exists_form hd hn
        (fun name id hid => hc.contained id (hc.forms name id hid)) hbuilt
      exact .inr hnew
    · exact .inl (hc.forms name id hcat)
  leaves := rfl

theorem rel_resolved : (d.resolved v c g).Rel
    (Denotator.Matches fun x y => x = y ∧ (old x ∨ ¬ g.contains x)) (d.resolved v c h) :=
  DenotatorDefinition.rel_resolve (rel_surroundings hc hd hn hg hh) hc.rel_denotators _

theorem resolved_eq : d.resolved v c h = d.resolved v c g :=
  ((rel_resolved hc hd hn hg hh).eq fun _ _ hxy => hxy.eq fun _ _ => And.left).symm

theorem rel_attempt (s : DenotatorSketch) :
    Attempt.Rel (Denotator.Matches fun x y => x = y ∧ (old x ∨ ¬ g.contains x))
      (d.attempt v c g s) (d.attempt v c h s) :=
  DenotatorSketch.rel_build (rel_surroundings hc hd hn hg hh)
    (Resolution.rel_lookup (rel_resolved hc hd hn hg hh).table .denotator hc.rel_denotators) s

theorem attempt_eq (s : DenotatorSketch) : d.attempt v c h s = d.attempt v c g s :=
  ((rel_attempt hc hd hn hg hh s).eq fun _ _ hxy => hxy.eq fun _ _ => And.left).symm

end
end Definitions

structure Reading.Same (p q : Reading) : Prop where
  forms : q.forms = p.forms
  denotators : q.denotators = p.denotators
  symbols : q.symbols = p.symbols
  reports : q.reports = p.reports

theorem Outcome.ofReading_eq_of_same {p q : Reading} (h : p.Same q) (limit : Option Nat) :
    ofReading q limit = ofReading p limit := by
  rw [ofReading,ofReading,h.forms,h.denotators,h.symbols,h.reports]

/-- A document comes to the same in both repositories, with new forms that are the same too. -/
theorem Reading.same_ofNode {r s : Repository} {c : Catalogue} {old : FormId → Prop}
    (hc : c.Shared old r.forms s.forms) (hr : r.forms.Reachable) (hs : s.forms.Reachable)
    (v : Vocabulary) (root : Node) :
    Same (ofNode v c root r) (ofNode v c root s) ∧
    (∀ x, ¬ r.forms.contains x → (ofNode v c root s).repository.forms.slot? x =
      (ofNode v c root r).repository.forms.slot? x) ∧
    FormGraph.Coincide (fun x => old x ∨ ¬ r.forms.contains x)
      (ofNode v c root r).repository.forms (ofNode v c root s).repository.forms := by
  have hd := Definitions.drawn_ofRoot root
  have hn := (Definitions.collects_ofRoot root).forms
  rw [ofNode_eq,ofNode_eq]
  generalize Definitions.ofRoot root = d at hd hn
  refine ⟨?_,fun x => Definitions.slot?_built_eq hc hd hn,Definitions.coincide_built hc hd hn⟩
  have hattempts : d.sketches.map (d.attempt v c s.forms) =
      d.sketches.map (d.attempt v c r.forms) :=
    List.map_congr_left fun k _ => Definitions.attempt_eq hc hd hn hr hs k
  constructor <;> simp only [hattempts,Definitions.top_built_eq hc hd hn,
    Definitions.table_built_eq hc hd hn,Definitions.reports_built_eq hc hd hn,
    Definitions.resolved_eq hc hd hn hr hs]

end AddressedForms
