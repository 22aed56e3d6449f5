import AddressedForms.Document.BuiltForms
import AddressedForms.Proofs.Form.Reachable
import AddressedForms.Proofs.Table
set_option autoImplicit false

/-!
Planned forms in a form graph. After the declarations every plan has a number of its own; every
definition fills the slot of its plan and leaves all others as they are.
-/

namespace AddressedForms
namespace FormExtension
variable {g : FormGraph} {ps : List FormPlan} {p : FormPlan} {b : FormExtension}

structure Declared (g : FormGraph) (ps : List FormPlan) (b : FormExtension) : Prop where
  reachable : g.Reachable → b.graph.Reachable
  size : g.size ≤ b.graph.size
  old : ∀ x, g.contains x → b.graph.slot? x = g.slot? x
  new : ∀ p ∈ ps, ∃ id, b.ids.get? p.name = some id ∧ ¬ g.contains id ∧
    b.graph.slot? id = some (.declared p.name p.kind)
  failed : b.failed = []
  reports : b.reports = []

theorem declared_nil (g : FormGraph) : Declared g [] ⟨g,.empty,[],[]⟩ where
  reachable := id
  size := Nat.le_refl _
  old := fun _ _ => rfl
  new := by simp
  failed := rfl
  reports := rfl

theorem Declared.snoc (h : Declared g ps b) (hp : p.name ∉ ps.map FormPlan.name) :
    Declared g (ps ++ [p]) (b.declare p) := by
  have hslot := FormGraph.slot?_declare b.graph p.name p.kind
  refine ⟨fun hg => (h.reachable hg).declare _ _,?_,fun x hx => ?_,fun q hq => ?_,
    h.failed,h.reports⟩
  · have := h.size
    simp only [declare,FormGraph.size_declare]
    omega
  · have hlt : x.index < g.size := of_decide_eq_true hx
    have := h.size
    rw [declare,hslot,if_neg (by omega),h.old x hx]
  · rcases List.mem_append.mp hq with hq | hq
    · obtain ⟨id,hid,hnew,hs⟩ := h.new q hq
      have hne : q.name ≠ p.name := fun he => hp (he ▸ List.mem_map_of_mem hq)
      have hlt : id.index < b.graph.size := of_decide_eq_true (FormGraph.contains_of_slot? hs)
      refine ⟨id,?_,hnew,?_⟩
      · rw [declare,Table.get?_insert_of_ne _ _ hne,hid]
      · rw [declare,hslot,if_neg (by omega),hs]
    · cases List.mem_singleton.mp hq
      refine ⟨⟨b.graph.size⟩,Table.get?_insert_self _ _ _,?_,?_⟩
      · have := h.size
        simpa [FormGraph.contains] using this
      · rw [declare,hslot,if_pos rfl]

theorem declared_foldl (hn : (ps.map FormPlan.name).Nodup) :
    Declared g ps (ps.foldl declare ⟨g,.empty,[],[]⟩) := by
  induction ps using List.reverseRecOn with
  | nil => exact declared_nil g
  | append_singleton ps p ih =>
    rw [List.map_append,List.nodup_append] at hn
    rw [List.foldl_append]
    exact (ih hn.1).snoc fun hp => hn.2.2 _ hp p.name (by simp) rfl

theorem Declared.name_unique (h : Declared g ps b) {p q : FormPlan} (hp : p ∈ ps) (hq : q ∈ ps)
    {id : FormId} (hpid : b.ids.get? p.name = some id) (hqid : b.ids.get? q.name = some id) :
    q.name = p.name := by
  obtain ⟨i,hi,-,hps⟩ := h.new p hp
  obtain ⟨j,hj,-,hqs⟩ := h.new q hq
  rw [hpid] at hi
  rw [hqid] at hj
  cases hi
  cases hj
  rw [hps,Option.some.injEq,Slot.declared.injEq] at hqs
  exact hqs.1.symm

/-- The form that a plan becomes when the names of the plans stand for some ids. -/
structure Becomes (g : FormGraph) (ids : Table FormId) (ps : List FormPlan) (p : FormPlan)
    (f : Form) : Prop where
  name : f.name = p.name
  kind : f.kind = p.kind
  body : p.body? ids = some f.body
  labels : FormGraph.labelsFor? p.name f.body p.labels = .ok f.labels
  fresh : f.registered = false
  nonempty : f.subForms = [] → f.kind = .simple
  issued : ∀ sub ∈ f.subForms, (∃ q ∈ ps, ids.get? q.name = some sub) ∨ g.contains sub

structure Filled (g : FormGraph) (b₀ : FormExtension) (ps done : List FormPlan)
    (b : FormExtension) : Prop where
  reachable : b₀.graph.Reachable → b.graph.Reachable
  ids : b.ids = b₀.ids
  issued : ∀ x, b.graph.contains x = b₀.graph.contains x
  old : ∀ x, (∀ p ∈ ps, b₀.ids.get? p.name ≠ some x) → b.graph.slot? x = b₀.graph.slot? x
  filled : ∀ p ∈ done, ∃ id f, b₀.ids.get? p.name = some id ∧ b.graph.get? id = some f ∧
    Becomes g b₀.ids ps p f
  pending : ∀ p ∈ ps, p.name ∉ done.map FormPlan.name → ∀ id, b₀.ids.get? p.name = some id →
    b.graph.slot? id = b₀.graph.slot? id
  failed : b.failed = b₀.failed
  reports : b.reports = b₀.reports

theorem filled_nil (g : FormGraph) (b : FormExtension) (ps : List FormPlan) :
    Filled g b ps [] b where
  reachable := id
  ids := rfl
  issued := fun _ => rfl
  old := fun _ _ => rfl
  filled := by simp
  pending := fun _ _ _ _ _ => rfl
  failed := rfl
  reports := rfl

section Declared
variable {b₀ : FormExtension} (hd : Declared g ps b₀)
include hd

/-- Step lemma: a definition succeeds where the plan is still pending, and fills its slot. -/
theorem Filled.define {done : List FormPlan} (h : Filled g b₀ ps done b) (hdone : done ⊆ ps)
    (hp : p ∈ ps) (hnew : p.name ∉ done.map FormPlan.name) {f : Form}
    (hf : Becomes g b₀.ids ps p f) : Filled g b₀ ps (done ++ [p]) (b.define p) := by
  obtain ⟨id,hid,-,hs⟩ := hd.new p hp
  have hslot : b.graph.slot? id = some (.declared p.name f.body.kind) := by
    rw [h.pending p hp hnew id hid,hs,← hf.kind]
    rfl
  have hdefine : b.graph.define id f.body p.labels = .ok (b.graph.store id f) := by
    refine FormGraph.define_eq_ok_iff.mpr ⟨p.name,f.labels,hslot,hf.nonempty,?_,hf.labels,?_⟩
    · intro sub hsub
      rw [h.issued]
      rcases hf.issued sub hsub with ⟨q,hq,hname⟩ | hold
      · obtain ⟨j,hj,-,hqs⟩ := hd.new q hq
        rw [hname] at hj
        cases hj
        exact FormGraph.contains_of_slot? hqs
      · have := hd.size
        simp only [FormGraph.contains,decide_eq_true_eq] at hold ⊢
        omega
    · obtain ⟨name,body,labels,registered⟩ := f
      obtain rfl : name = p.name := hf.name
      obtain rfl : registered = false := hf.fresh
      rfl
  have he : b.define p = {b with graph := b.graph.store id f} := by
    simp only [FormExtension.define,h.ids,hid,hf.body,hdefine]
  have hc : b.graph.contains id := FormGraph.contains_of_slot? hslot
  rw [he]
  refine ⟨fun hg => (h.reachable hg).define hdefine,h.ids,fun x => ?_,fun x hx => ?_,
    fun q hq => ?_,fun q hq hqn j hj => ?_,h.failed,h.reports⟩
  · rw [FormGraph.contains_store,h.issued]
  · have hne : x ≠ id := fun heq => hx p hp (heq ▸ hid)
    rw [FormGraph.slot?_store hc,if_neg hne,h.old x hx]
  · rcases List.mem_append.mp hq with hq | hq
    · obtain ⟨j,e,hj,he,hb⟩ := h.filled q hq
      have hne : j ≠ id := fun heq =>
        hnew (hd.name_unique hp (hdone hq) hid (heq ▸ hj) ▸ List.mem_map_of_mem hq)
      exact ⟨j,e,hj,by rw [FormGraph.get?_store hc,if_neg hne,he],hb⟩
    · cases List.mem_singleton.mp hq
      exact ⟨id,f,hid,by rw [FormGraph.get?_store hc,if_pos rfl],hf⟩
  · rw [List.map_append,List.mem_append,not_or] at hqn
    have hne : j ≠ id := fun heq => hqn.2 (by simp [hd.name_unique hp hq hid (heq ▸ hj)])
    rw [FormGraph.slot?_store hc,if_neg hne,h.pending q hq hqn.1 j hj]

theorem Filled.foldl (hb : ∀ p ∈ ps, ∃ f, Becomes g b₀.ids ps p f)
    (hn : (ps.map FormPlan.name).Nodup) {done rest : List FormPlan} (hps : ps = done ++ rest)
    (h : Filled g b₀ ps done b) : Filled g b₀ ps ps (rest.foldl FormExtension.define b) := by
  induction rest generalizing done b with
  | nil => simpa [hps] using h
  | cons p rest ih =>
    have hp : p ∈ ps := by simp [hps]
    have hnew : p.name ∉ done.map FormPlan.name := by
      rw [hps,List.map_append,List.nodup_append] at hn
      exact fun hm => hn.2.2 _ hm p.name (by simp) rfl
    obtain ⟨f,hf⟩ := hb p hp
    exact ih (by simp [hps]) (h.define hd (by simp [hps]) hp hnew hf)

end Declared

/-- What plans come to that may all become forms: each has a new id, and the old forms stay. -/
structure Extended (g : FormGraph) (ps : List FormPlan) (b : FormExtension) : Prop where
  reachable : g.Reachable → b.graph.Reachable
  old : ∀ x, g.contains x → b.graph.slot? x = g.slot? x
  new : ∀ p ∈ ps, ∃ id f, b.ids.get? p.name = some id ∧ ¬ g.contains id ∧
    b.graph.get? id = some f ∧ Becomes g b.ids ps p f
  failed : b.failed = []
  reports : b.reports = []

theorem extended_ofPlans (hn : (ps.map FormPlan.name).Nodup)
    (hb : ∀ ids : Table FormId, (∀ p ∈ ps, ids.contains p.name) →
      ∀ p ∈ ps, ∃ f, Becomes g ids ps p f) :
    Extended g ps (ofPlans g ps) := by
  have hd := declared_foldl (g := g) hn
  have hids : ∀ p ∈ ps, (ps.foldl declare ⟨g,.empty,[],[]⟩).ids.contains p.name := by
    intro p hp
    obtain ⟨id,hid,-⟩ := hd.new p hp
    exact Table.contains_of_get? hid
  have h := Filled.foldl hd (hb _ hids) hn rfl (filled_nil g _ ps)
  refine ⟨fun hg => h.reachable (hd.reachable hg),fun x hx => ?_,fun p hp => ?_,
    h.failed.trans hd.failed,h.reports.trans hd.reports⟩
  · refine (h.old x fun p hp he => ?_).trans (hd.old x hx)
    obtain ⟨id,hid,hnew,-⟩ := hd.new p hp
    rw [he] at hid
    cases hid
    exact hnew hx
  · obtain ⟨id,f,hid,hf,hbecomes⟩ := h.filled p hp
    obtain ⟨j,hj,hnew,-⟩ := hd.new p hp
    rw [hid] at hj
    cases hj
    have he : (ofPlans g ps).ids = (ps.foldl declare ⟨g,.empty,[],[]⟩).ids := h.ids
    exact ⟨id,f,he ▸ hid,hnew,hf,he ▸ hbecomes⟩

end FormExtension
end AddressedForms
