import AddressedForms.Document.FormPlan
import AddressedForms.Document.Resolution
set_option autoImplicit false

/-!
The forms of a document in a form graph. All planned forms are declared before any is defined, so
their diagrams may be cyclic.
-/

namespace AddressedForms

structure FormExtension where
  graph : FormGraph
  ids : Table FormId
  failed : List String
  reports : List ReadError

namespace FormExtension

def declare (b : FormExtension) (p : FormPlan) : FormExtension :=
  let (id,g) := b.graph.declare p.name p.kind
  {b with graph := g, ids := b.ids.insert p.name id}

def define (b : FormExtension) (p : FormPlan) : FormExtension :=
  match b.ids.get? p.name, p.body? b.ids with
  | some id, some body =>
    match b.graph.define id body p.labels with
    | .ok g => {b with graph := g}
    | .error e =>
      {b with failed := p.name :: b.failed, reports := b.reports ++ [.malformed p.tag e.message]}
  | _, _ => b

def ofPlans (g : FormGraph) (ps : List FormPlan) : FormExtension :=
  ps.foldl define (ps.foldl declare ⟨g,.empty,[],[]⟩)

/-- The names of the forms that do not depend on a failed one. -/
def sound (b : FormExtension) (ps : List FormPlan) : List String :=
  (FormPlan.prune (ps.filter (fun p => p.name ∉ b.failed))).map FormPlan.name

end FormExtension

structure BuiltForms where
  graph : FormGraph
  table : Table (Resolution FormId)
  /-- The forms at the top level of the document. -/
  top : List (String × FormId)
  reports : List ReadError

namespace BuiltForms

def ofSketches (l : LeafScope) (c : Catalogue) (g : FormGraph) (s : FormSketches) : BuiltForms :=
  let planned := s.sketches.map (FormPlan.ofSketch l c s)
  let plans := FormPlan.prune (planned.filterMap Attempt.value?)
  let b := FormExtension.ofPlans g plans
  let kept := b.sound plans
  let idOf (f : FormSketch) : Option FormId := if f.name ∈ kept then b.ids.get? f.name else none
  { graph := b.graph
    table := .ofList (s.sketches.map fun f => (f.name,.ofOption (idOf f)))
    top := s.sketches.filterMap fun f => if f.top then (idOf f).map fun id => (f.name,id) else none
    reports := planned.flatMap Attempt.reports ++ b.reports }

end BuiltForms
end AddressedForms
