import AddressedForms.Document.Reader
import AddressedForms.Proofs.Document.BuiltForms
set_option autoImplicit false

/-!
Reading a written document, up to its denotators: nothing is missing, all leaves have their values
and all forms are built.
-/

namespace AddressedForms

def Entry.leafIsProper : Entry → Bool
  | .module _ x => x.isProper
  | .element _ x => x.isProper
  | .morphism _ f => f.isProper
  | .form _ | .denotator _ => true

theorem Entry.leafIsProper_of_mem_expand {g : FormGraph} {a e : Entry} (h : a.leafIsProper)
    (he : e ∈ a.expand g) : e.leafIsProper := by
  cases a with
  | form id =>
    obtain ⟨x,-,rfl⟩ := List.mem_map.mp he
    rfl
  | denotator d =>
    cases e with
    | form | denotator => rfl
    | module | element | morphism => simp [expand] at he
  | module | element | morphism =>
    cases List.mem_singleton.mp he
    exact h

namespace Manuscript

theorem Compiled.proper {g : FormGraph} {es : List Entry} {m : Manuscript} (h : Compiled g es m)
    (hp : ∀ e ∈ es, e.leafIsProper) : m.names.Proper := by
  induction h with
  | empty => constructor <;> simp [Manuscript.empty,NamedLeaves.empty]
  | @snoc es m k e hm hs ih =>
    have ih := ih fun a ha => hp a (List.mem_append_left _ ha)
    have he := hp e (by simp)
    cases hs with
    | form | named | anonymous => exact ih
    | module hnew | element hnew | morphism hnew =>
      refine ⟨fun x name hx => ?_,fun x name hx => ?_,fun x name hx => ?_⟩
      all_goals
        first
        | exact ih.modules x name hx
        | exact ih.elements x name hx
        | exact ih.morphisms x name hx
        | rcases List.mem_cons.mp hx with hx | hx
          · cases hx
            exact he
          · first
            | exact ih.modules x name hx
            | exact ih.elements x name hx
            | exact ih.morphisms x name hx

theorem Written.proper {g : FormGraph} {asked es : List Entry} {m : Manuscript}
    (h : Written g asked es m) (hp : ∀ e ∈ asked, e.leafIsProper) : m.names.Proper := by
  refine h.compiled.proper fun e he => ?_
  obtain ⟨a,ha,hae⟩ := h.due e he
  exact Entry.leafIsProper_of_mem_expand (hp a ha) hae

section Reading
variable (m : Manuscript) (c : Catalogue)

def leaves : Leaves := (Leaves.resolve .builtins m.definitions).1

def built : BuiltForms :=
  BuiltForms.ofSketches (.builtin m.leaves.meanings) c m.forms m.definitions.forms

def surroundings : Surroundings where
  graph := (m.built c).graph
  form? name := (Resolution.lookup .form c.forms.get? (m.built c).table name).value?
  leaves := .builtin m.leaves.meanings

def resolved : Resolution.Progress Denotator :=
  DenotatorDefinition.resolve (m.surroundings c) c.denotators.get? m.definitions.denotators

def attempts : List (Attempt Denotator) :=
  DenotatorSketch.buildAll (m.surroundings c)
    (Resolution.lookup .denotator c.denotators.get? (m.resolved c).table) m.definitions.sketches

def reading (r : Repository) : Reading where
  forms := (m.built c).top
  denotators := (m.attempts c).filterMap Attempt.value?
  symbols := ⟨Resolution.values (m.built c).table,Resolution.values (m.resolved c).table,
    Resolution.values m.leaves.modules,Resolution.values m.leaves.elements,
    Resolution.values m.leaves.morphisms⟩
  repository := {r with forms := (m.built c).graph}
  reports := (m.resolved c).reports ++ (m.attempts c).flatMap Attempt.reports

end Reading

section Written
variable {g : FormGraph} {asked es : List Entry} {m : Manuscript} (hg : g.Sound)
  (h : Written g asked es m) (hp : ∀ e ∈ asked, e.leafIsProper)
include hg h hp

theorem Written.knows : m.leaves.meanings.Knows m.names :=
  ((h.compiled.gathered hg).resolve (h.proper hp)).2

theorem Written.rebuilt (hmp : g.ModulesProper) (c : Catalogue) :
    Rebuilt g m c (m.definitions.forms.sketches.map FormSketch.name) (m.built c) := by
  rw [built,h.compiled.forms_eq]
  exact (h.compiled.gathered hg).ofSketches hg h.compiled h.complete.forms (h.knows hg hp) hmp c

/-- The name of a written form stands for a new form that is similar to it, and has the labels of
the form that was entered under the name. -/
theorem Written.exists_similar (hmp : g.ModulesProper) (c : Catalogue) {x : FormId}
    (hx : m.HasForm x) :
    ∃ name held f new f', g.name? x = some name ∧ m.writtenForms.get? name = some held ∧
      g.get? held = some f ∧ (m.built c).table.get? name = some (.value new) ∧
      (name,new) ∈ (m.built c).top ∧ ¬ g.contains new ∧ (m.built c).graph.Similar x new ∧
      (m.built c).graph.get? new = some f' ∧ f'.labels = f.labels :=
  (h.rebuilt hg hp hmp c).exists_similar h.compiled hg.namesUnique h.complete.forms
    (fun name => ((h.compiled.gathered hg).mem_sketchNames_iff h.compiled name).mpr) hx

/-- Only denotators can be at fault in a written document. -/
theorem Written.reading_eq (hmp : g.ModulesProper) (c : Catalogue) {r : Repository}
    (hr : r.forms = g) : Reading.ofNode .builtins c m.node r = m.reading c r := by
  have hd := h.compiled.gathered hg
  have hmissing := h.unresolved_eq_nil hd c
  have hleaves := (hd.resolve (h.proper hp)).1
  have hforms := (h.rebuilt hg hp hmp c).reports
  have hf : r.forms = m.forms := hr.trans h.compiled.forms_eq.symm
  rw [Reading.ofNode,ofRoot_node]
  simp only [hmissing,hd.reports,hleaves,hf,List.nil_append,List.append_nil]
  change Reading.mk _ _ _ _ ((m.built c).reports ++ (m.resolved c).reports ++ _) = _
  rw [hforms,List.nil_append]
  rfl

theorem Written.readNode_eq (hmp : g.ModulesProper) {r : Repository} (hr : r.forms = g)
    {a : Reader} (ha : a.vocabulary = .builtins) (hs : a.settings.registerDecoded = false) :
    let rd := m.reading (.ofRepository r a.settings.catalogFallback) r
    (a.readNode m.node r).1 = .ofReading rd a.settings.maxErrors ∧
      (a.readNode m.node r).2.2 = rd.repository := by
  have hread := h.reading_eq hg hp hmp (.ofRepository r a.settings.catalogFallback) hr
  simp [Reader.readNode,Outcome.ofNode,ha,hs,hread]

end Written

theorem isSuccess_ofReading_iff (rd : Reading) (limit : Option Nat) :
    (Outcome.ofReading rd limit).isSuccess ↔ rd.reports = [] := by
  simp only [Outcome.ofReading,Outcome.isSuccess,ErrorLog.empty]
  cases limit with
  | none => simp [ErrorLog.reportAll_of_unlimited,ErrorLog.isClean]
  | some n =>
    rw [ErrorLog.reportAll_of_limited (Nat.zero_le n)]
    cases hr : rd.reports with
    | nil => simp [ErrorLog.isClean]
    | cons e es => cases n <;> simp [ErrorLog.isClean]

end Manuscript
end AddressedForms
