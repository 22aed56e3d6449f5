import AddressedForms.Document.FormSketch
import AddressedForms.Document.LeafReading
import AddressedForms.Repository
set_option autoImplicit false

/-!
Plans of forms: sketches whose module and sub-forms are known. A plan that needs a form which cannot
be planned is dropped. Names that a document leaves open may mean the registered forms and
denotators of a repository, or nothing.
-/

namespace AddressedForms

structure Catalogue where
  forms : Table FormId
  denotators : Table Denotator

namespace Catalogue

def empty : Catalogue := ⟨.empty,.empty⟩

def ofRepository (r : Repository) (consulted : Bool) : Catalogue :=
  if consulted then ⟨r.forms.registry,r.denotators⟩ else empty

end Catalogue

/-- What the name of a sub-form stands for. -/
inductive PlannedPart where
  | sketched (name : String)
  | catalogued (id : FormId)

structure FormPlan where
  name : String
  kind : Kind
  tag : String
  module : Option Module
  parts : List PlannedPart
  labels : Option (List String)

namespace PlannedPart

/-- A name of the document comes before one of the catalogue. -/
def ofName? (s : FormSketches) (c : Catalogue) (name : String) : Option PlannedPart :=
  match s.named? name with
  | some _ => some (.sketched name)
  | none => (c.forms.get? name).map .catalogued

def isAmong (names : List String) : PlannedPart → Bool
  | .sketched name => name ∈ names
  | .catalogued _ => true

def id? (ids : Table FormId) : PlannedPart → Option FormId
  | .sketched name => ids.get? name
  | .catalogued id => some id

end PlannedPart

namespace FormPlan

def moduleOf (l : LeafScope) : Option Node → Attempt (Option Module)
  | none => .success none
  | some n => do
    let m ← Module.ofNested l n
    .success (some m)

/-- The errors in a module are reported whatever else is wrong with the sketch. -/
def ofSketch (l : LeafScope) (c : Catalogue) (s : FormSketches) (f : FormSketch) :
    Attempt FormPlan := do
  let m ← moduleOf l f.module
  match f.sound, f.parts.mapM (PlannedPart.ofName? s c) with
  | true, some ps => .success ⟨f.name,f.kind,f.tag,m,ps,f.labels⟩
  | _, _ => .silent

def isComplete (names : List String) (p : FormPlan) : Bool := p.parts.all (fun t => t.isAmong names)

/-- Drops the plans that need a sketch without a plan. -/
def sift (ps : List FormPlan) : List FormPlan := ps.filter (isComplete (ps.map FormPlan.name))

/-- The largest part of a list of plans that needs no sketches but those planned in it. -/
def prune (ps : List FormPlan) : List FormPlan :=
  if (sift ps).length < ps.length then prune (sift ps) else ps
termination_by ps.length

theorem sift_sublist (ps : List FormPlan) : (sift ps).Sublist ps := List.filter_sublist

theorem prune_sublist (ps : List FormPlan) : (prune ps).Sublist ps := by
  fun_induction prune ps with
  | case1 ps _ ih => exact ih.trans (sift_sublist ps)
  | case2 ps _ => exact List.Sublist.refl ps

theorem isComplete_of_mem_prune {ps : List FormPlan} {p : FormPlan} (h : p ∈ prune ps) :
    p.isComplete ((prune ps).map FormPlan.name) := by
  fun_induction prune ps with
  | case1 ps _ ih => exact ih h
  | case2 ps hn =>
    have he : sift ps = ps := (sift_sublist ps).eq_of_length_le (Nat.le_of_not_lt hn)
    rw [← he] at h
    exact (List.mem_filter.mp h).2

theorem isComplete_of_subset {ns ms : List String} {p : FormPlan} (h : p.isComplete ns)
    (hs : ns ⊆ ms) : p.isComplete ms := by
  simp only [isComplete,List.all_eq_true] at h ⊢
  intro t ht
  have := h t ht
  cases t with
  | sketched name =>
    simpa [PlannedPart.isAmong] using hs (by simpa [PlannedPart.isAmong] using this)
  | catalogued id => rfl

/-- No set of plans that needs nothing beyond itself loses a member. -/
theorem subset_prune {ps qs : List FormPlan} (hq : qs ⊆ ps)
    (hc : ∀ q ∈ qs, q.isComplete (qs.map FormPlan.name)) : qs ⊆ prune ps := by
  fun_induction prune ps with
  | case1 ps _ ih =>
    refine ih fun q hm => List.mem_filter.mpr ⟨hq hm,?_⟩
    exact isComplete_of_subset (hc q hm) (List.map_subset _ hq)
  | case2 ps _ => exact hq

def body? (ids : Table FormId) (p : FormPlan) : Option Body := do
  let subs ← p.parts.mapM (PlannedPart.id? ids)
  match p.kind, p.module, subs with
  | .simple, some m, _ => some (.simple m)
  | .limit, _, fs => some (.limit fs)
  | .colimit, _, fs => some (.colimit fs)
  | .power, _, f :: _ => some (.power f)
  | .list, _, f :: _ => some (.list f)
  | _, _, _ => none

end FormPlan
end AddressedForms
