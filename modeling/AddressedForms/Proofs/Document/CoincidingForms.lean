import AddressedForms.Proofs.Document.BuiltDefinitions
import AddressedForms.Proofs.Document.Soundness
import AddressedForms.Proofs.Form.Coincide
set_option autoImplicit false

/-!
The forms of a document in two graphs of one size. They get the same numbers, and are the same forms
there, whatever the graphs held before: nothing is looked at but the forms that the catalogue gives.
-/

namespace AddressedForms

namespace FormExtension
variable {g h : FormGraph} {ps : List FormPlan} {x : FormId}

theorem ids_define (b : FormExtension) (p : FormPlan) : (b.define p).ids = b.ids := by
  unfold define
  split
  · split <;> rfl
  · rfl

theorem ids_ofPlans_eq (hs : h.size = g.size) (ps : List FormPlan) :
    (ofPlans h ps).ids = (ofPlans g ps).ids := by
  have hdefine (qs : List FormPlan) (b : FormExtension) : (qs.foldl define b).ids = b.ids := by
    induction qs generalizing b with
    | nil => rfl
    | cons q qs ih => rw [List.foldl_cons,ih,ids_define]
  have hdeclare : (ps.foldl declare ⟨h,.empty,[],[]⟩).graph.size =
        (ps.foldl declare ⟨g,.empty,[],[]⟩).graph.size ∧
      (ps.foldl declare ⟨h,.empty,[],[]⟩).ids = (ps.foldl declare ⟨g,.empty,[],[]⟩).ids := by
    refine List.foldl_rel (r := fun b' b : FormExtension =>
      b'.graph.size = b.graph.size ∧ b'.ids = b.ids) ⟨hs,rfl⟩ ?_
    rintro p - b b' ⟨hsize,hids⟩
    simp [declare,hids,FormGraph.declare,FormGraph.size] at hsize ⊢
    simp [hsize]
  rw [ofPlans,ofPlans,hdefine,hdefine,hdeclare.2]

theorem Becomes.unique {ids : Table FormId} {p : FormPlan} {e f : Form} (he : Becomes g ids ps p e)
    (hf : Becomes h ids ps p f) : f = e := by
  have hbody : f.body = e.body := Option.some.inj (hf.body.symm.trans he.body)
  have hlabels := hf.labels
  rw [hbody,he.labels] at hlabels
  obtain ⟨name,body,labels,registered⟩ := e
  obtain ⟨name',body',labels',registered'⟩ := f
  have hname : name' = name := hf.name.trans he.name.symm
  have hfresh : registered' = registered := hf.fresh.trans he.fresh.symm
  cases hname
  cases hbody
  cases hfresh
  cases hlabels
  rfl

section
variable (hs : h.size = g.size) (hg : FormPlan.Closed g ps) (hh : FormPlan.Closed h ps)
include hs hg hh

theorem slot?_ofPlans_eq (hx : ¬ g.contains x) :
    (ofPlans h ps).graph.slot? x = (ofPlans g ps).graph.slot? x := by
  have hids := ids_ofPlans_eq hs ps
  have hcontains : h.contains x = g.contains x := by simp [FormGraph.contains,hs]
  by_cases hplanned : ∃ p ∈ ps, (ofPlans g ps).ids.get? p.name = some x
  · obtain ⟨p,hp,hid⟩ := hplanned
    obtain ⟨-,e,he,hbe⟩ := hg.extended.of_get? hp hid
    obtain ⟨-,f,hf,hbf⟩ := hh.extended.of_get? hp (hids ▸ hid)
    rw [hids] at hbf
    rw [FormGraph.get?_eq_some_iff.mp he,FormGraph.get?_eq_some_iff.mp hf,hbe.unique hbf]
  · rw [not_exists] at hplanned
    have hnone : ¬ (ofPlans g ps).graph.contains x := by
      intro hc
      rcases covers_ofPlans g hg.names x hc with hold | ⟨p,hp⟩
      · exact hx hold
      · exact hplanned p hp
    have hnone' : ¬ (ofPlans h ps).graph.contains x := by
      intro hc
      rcases covers_ofPlans h hh.names x hc with hold | ⟨p,hp⟩
      · exact hx (hcontains ▸ hold)
      · exact hplanned p (hids ▸ hp)
    rw [(FormGraph.slot?_eq_none_iff _ _).mpr (Bool.eq_false_iff.mpr hnone),
      (FormGraph.slot?_eq_none_iff _ _).mpr (Bool.eq_false_iff.mpr hnone')]

/-- Graphs that coincide in some old numbers, those that the plans need among them, coincide in the new
numbers too. -/
theorem coincide_ofPlans {old : FormId → Prop} (ho : FormGraph.Coincide old g h)
    (hold : ∀ x, old x → g.contains x)
    (hparts : ∀ p ∈ ps, ∀ id, .catalogued id ∈ p.parts → old id) :
    FormGraph.Coincide (fun x => old x ∨ ¬ g.contains x) (ofPlans g ps).graph
      (ofPlans h ps).graph where
  slots := by
    rintro x (hx | hx)
    · have hcontains : h.contains x := by
        simpa [FormGraph.contains,hs] using hold x hx
      rw [hg.extended.old x (hold x hx),hh.extended.old x hcontains]
      exact ho.slots x hx
    · rw [slot?_ofPlans_eq hs hg hh hx]
  closed := by
    have hretains : g.Retains (ofPlans g ps).graph := hg.extended.old
    rintro x f (hx | hx) hf sub hsub
    · rw [hretains.get? (hold x hx)] at hf
      exact .inl (ho.closed x f hx hf sub hsub)
    · obtain hc | ⟨p,hp,hid⟩ := (covers_ofPlans g hg.names) x (FormGraph.contains_of_get? hf)
      · exact absurd hc hx
      obtain ⟨-,e,he,hb⟩ := hg.extended.of_get? hp hid
      cases hf.symm.trans he
      obtain ⟨t,ht,hsub⟩ := exists_of_forall₂_right ((hg.fit p hp).bodyOf hb.body).subForms hsub
      have ht : t ∈ p.parts := by
        split at ht
        · cases ht
        · exact ht
      rcases hg.parts p hp t ht with ⟨q,hq,rfl⟩ | ⟨id,rfl,-⟩
      · exact .inr (hg.extended.of_get? hq hsub).1
      · cases hsub
        exact .inl (hparts p hp _ ht)

end
end FormExtension
end AddressedForms
