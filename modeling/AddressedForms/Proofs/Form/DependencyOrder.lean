import AddressedForms.Proofs.Form.Dependencies
import AddressedForms.Proofs.PostOrder
import AddressedForms.Proofs.SearchStack
set_option autoImplicit false

/-!
The order of dependencies in any graph, whatever forms have been listed before. The forms that are
added are those that can be come by around the listed ones; each is added once, and after its
sub-forms but for those that it shares a cycle with.
-/

namespace AddressedForms
namespace FormGraph

/-- The dependencies of a form are only added to what is listed, and nothing is listed twice. Those
are added that can be come by from the form around what was listed before, and the form itself comes
last. Each comes after its sub-forms, but for sub-forms that lead back to it through what is added.
The search with a stack finds just the same list. -/
theorem dependencies_postOrder (g : FormGraph) (id : FormId) {known : List FormId}
    (hk : known.Nodup) : ∃ added, g.dependencies id known = known ++ added ∧
      (known ++ added).Nodup ∧
      (∀ x, x ∈ added ↔ id ∉ known ∧
        Relation.ReflTransGen (fun a b => b ∈ g.subForms a ∧ b ∉ known) id x) ∧
      (id ∉ known → added.getLast? = some id) ∧
      (∀ l u r, added = l ++ u :: r → ∀ v ∈ g.subForms u, v ∈ known ++ l ∨
        Relation.ReflTransGen (fun a b => b ∈ g.subForms a ∧ a ∈ added ∧ b ∈ added) v u) ∧
      ∃ entered, Stacked.Runs g.subForms ⟨[.enter id],[],known⟩ ⟨[],entered,known ++ added⟩ := by
  obtain ⟨w,hvisits,hw⟩ := g.visits_dependencies id known
  obtain ⟨added,hadded⟩ := hvisits.grows
  have hnodup := (hvisits.nodup hk (List.disjoint_nil_left _)).1
  rw [← hadded] at hnodup
  have hmem (x : FormId) : x ∈ added ↔
      id ∉ known ∧ Walk.Leads (Walk.outside known g.subForms) id x := by
    have hx := hvisits.mem_iff (y := x)
    rw [← hadded,List.mem_append] at hx
    refine ⟨fun h => (hx.mp (.inr h)).resolve_left fun hm => ?_,fun h => ?_⟩
    · exact List.disjoint_of_nodup_append hnodup hm h
    · exact (hx.mpr (.inr h)).resolve_left (Walk.notMem_of_leads_outside h.1 h.2)
  refine ⟨added,by rw [← hw,← hadded],hnodup,fun x => ?_,fun hid => ?_,fun l u r he v hv => ?_,?_⟩
  · rw [hmem]
    exact and_congr_right fun hid => Walk.leads_outside_iff hid
  · obtain ⟨vs,hvs⟩ := hvisits.exists_last hid List.not_mem_nil
    have hne : added ≠ [] := List.ne_nil_of_mem ((hmem id).mpr ⟨hid,.refl⟩)
    have hlast : (known ++ added).getLast? = some id := by rw [hadded,hvs,List.getLast?_concat]
    rwa [List.getLast?_append_of_ne_nil _ hne] at hlast
  · have hu : u ∈ added := by simp [he]
    obtain ⟨hid,hl⟩ := (hmem u).mp hu
    by_cases hvk : v ∈ known
    · exact .inl (List.mem_append_left _ hvk)
    · have hedge : v ∈ Walk.outside known g.subForms u :=
        Walk.mem_outside.mpr ⟨Walk.notMem_of_leads_outside hid hl,hv,hvk⟩
      have hprefix : (known ++ l) ++ [u] <+: w.finished := by
        refine ⟨r,?_⟩
        rw [← hadded,he]
        simp
      refine (hvisits.trailing_outside _ u hprefix v hedge).imp_right fun hback => ?_
      -- whatever is passed on the way back can be come by from the form too
      exact Walk.leads_within hback fun x hx => (hmem x).mpr ⟨hid,(hl.tail hedge).trans hx⟩
  · have hsplit : Stacked.Split [] [] known := ⟨by simp,by simp,List.disjoint_nil_left _⟩
    obtain ⟨entered,-,hruns⟩ := Stacked.runs_of_visits hvisits hsplit (fun _ => true)
      (by simp) []
    rw [hadded]
    exact ⟨entered,by simpa using hruns⟩

def phrases : FormGraph :=
  ⟨[.defined ⟨"Phrase",.limit [⟨1⟩,⟨3⟩],none,false⟩,.defined ⟨"Note",.limit [⟨2⟩],none,false⟩,
    .defined ⟨"Pitch",.simple .z,none,false⟩,.defined ⟨"Ornament",.list ⟨0⟩,none,false⟩],.empty⟩

/-- With the notes listed already the pitches are out of reach; the ornament comes before the phrase
that it leads back to. -/
theorem dependencies_phrases : [(⟨1⟩ : FormId)].Nodup ∧
    phrases.dependencies ⟨0⟩ [⟨1⟩] = [⟨1⟩,⟨3⟩,⟨0⟩] ∧
    ¬ Relation.ReflTransGen (fun a b => b ∈ phrases.subForms a ∧ b ∉ [(⟨1⟩ : FormId)]) ⟨0⟩ ⟨2⟩ ∧
    Relation.ReflTransGen (fun a b => b ∈ phrases.subForms a ∧ a ∈ [(⟨3⟩ : FormId),⟨0⟩] ∧
      b ∈ [(⟨3⟩ : FormId),⟨0⟩]) ⟨0⟩ ⟨3⟩ := by
  have hk : [(⟨1⟩ : FormId)].Nodup := by decide
  have hlist : phrases.dependencies ⟨0⟩ [⟨1⟩] = [⟨1⟩,⟨3⟩,⟨0⟩] := by cbv
  obtain ⟨added,hadded,-,hmem,-,hfollows,-⟩ := dependencies_postOrder phrases ⟨0⟩ hk
  obtain rfl : added = [⟨3⟩,⟨0⟩] := List.append_cancel_left (hadded.symm.trans hlist)
  refine ⟨hk,hlist,fun h => ?_,?_⟩
  · exact absurd ((hmem ⟨2⟩).mpr ⟨by decide,h⟩) (by decide)
  · exact (hfollows [] ⟨3⟩ [⟨0⟩] rfl ⟨0⟩ (by decide)).resolve_left (by decide)

end FormGraph
end AddressedForms
