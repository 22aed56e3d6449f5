import AddressedForms.Proofs.DepthFirst
import AddressedForms.Proofs.Form.Reachable
set_option autoImplicit false

/-!
The dependencies of a form are all that it leads to, around whatever cycles there are.
-/

namespace AddressedForms
namespace FormGraph

def ClosedUnder (g : FormGraph) (ids : List FormId) : Prop := ∀ id ∈ ids, g.subForms id ⊆ ids

theorem mem_ids (g : FormGraph) (id : FormId) : id ∈ g.ids ↔ g.contains id := by
  obtain ⟨i⟩ := id
  simp [ids,contains]

theorem length_le_size {g : FormGraph} {ids : List FormId} (hn : ids.Nodup)
    (hc : ∀ id ∈ ids, g.contains id) : ids.length ≤ g.size := by
  have h := List.subperm_of_subset hn fun id hid => (g.mem_ids id).mpr (hc id hid)
  simpa [FormGraph.ids] using h.length_le

structure Extends (g : FormGraph) (id : FormId) (known ids : List FormId) : Prop where
  grows : known <+: ids
  mem : id ∈ ids
  closed : g.ClosedUnder ids
  sound : ∀ x ∈ ids, x ∈ known ∨ Walk.Leads g.subForms id x

/-- Only forms that are defined have sub-forms, so there is room for all paths in any graph. -/
theorem visits_dependencies (g : FormGraph) (id : FormId) (known : List FormId) :
    ∃ w : Walk FormId, Walk.Visits g.subForms [] [id] ⟨known,[]⟩ w ∧
      w.finished = g.dependencies id known := by
  refine ⟨_,Walk.visits_visit g.ids (fun v _ y hy => ?_) (List.nil_subset _) .nil
    (by simp [ids]),rfl⟩
  obtain ⟨f,hf,-⟩ := get?_of_mem_subForms hy
  exact (g.mem_ids v).mpr (contains_of_get? hf)

theorem dependencies_extends (g : FormGraph) (id : FormId) {known : List FormId}
    (hk : g.ClosedUnder known) : g.Extends id known (g.dependencies id known) := by
  obtain ⟨w,hvisits,hw⟩ := g.visits_dependencies id known
  have hs := hvisits.searched
    (show Walk.Closed g.subForms [] ⟨known,[]⟩ from fun v hx y hy => .inl (hk v hx hy))
  rw [← hw]
  refine ⟨hs.grows,(hs.reached id (by simp)).resolve_right (by simp),fun x hx y hy => ?_,?_⟩
  · exact (hs.closed x hx y hy).resolve_right (by simp)
  · intro x hx
    exact (hs.sound x hx).imp_right fun ⟨y,hy,hl⟩ => List.mem_singleton.mp hy ▸ hl

theorem ClosedUnder.leads {g : FormGraph} {ids : List FormId} (h : g.ClosedUnder ids)
    {x y : FormId} (hx : x ∈ ids) (hl : Walk.Leads g.subForms x y) : y ∈ ids :=
  Walk.mem_of_leads h hx hl

end FormGraph
end AddressedForms
