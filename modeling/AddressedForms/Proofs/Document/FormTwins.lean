import AddressedForms.Proofs.Document.PlannedForms
set_option autoImplicit false

/-!
Plans that become forms, and become forms again in a later graph and another order. Under its two
ids a plan has become the same form, so the two graphs are twins, and in the later one the two ids
are similar.
-/

namespace AddressedForms
namespace FormExtension
variable {g : FormGraph} {ps qs : List FormPlan} {b b' : FormExtension} {x y : FormId}

/-- What stands for the same in two extensions: an id from before, or the two ids of a plan. -/
inductive Counterpart (g : FormGraph) (ps : List FormPlan) (b b' : FormExtension) :
    FormId → FormId → Prop
  | old {x : FormId} (hx : g.contains x) : Counterpart g ps b b' x x
  | planned {p : FormPlan} {x y : FormId} (hp : p ∈ ps) (hx : b.ids.get? p.name = some x)
    (hy : b'.ids.get? p.name = some y) : Counterpart g ps b b' x y

theorem Extended.of_get? (h : Extended g ps b) {p : FormPlan} (hp : p ∈ ps)
    (hx : b.ids.get? p.name = some x) :
    ¬ g.contains x ∧ ∃ f, b.graph.get? x = some f ∧ Becomes g b.ids ps p f := by
  obtain ⟨id,f,hid,hnew,hf,hb⟩ := h.new p hp
  rw [hx] at hid
  cases hid
  exact ⟨hnew,f,hf,hb⟩

theorem Extended.name_unique (h : Extended g ps b) {p q : FormPlan} (hp : p ∈ ps) (hq : q ∈ ps)
    (hpx : b.ids.get? p.name = some x) (hqx : b.ids.get? q.name = some x) : p.name = q.name := by
  obtain ⟨-,f,hf,hbp⟩ := h.of_get? hp hpx
  obtain ⟨-,e,he,hbq⟩ := h.of_get? hq hqx
  rw [hf,Option.some.injEq] at he
  exact hbp.name.symm.trans (he ▸ hbq.name)

/-- Plans become forms, and so they do again in what comes of that. -/
structure Repeated (g : FormGraph) (ps : List FormPlan) (b b' : FormExtension) : Prop where
  reachable : g.Reachable
  closed : FormPlan.Closed g ps
  first : Extended g ps b
  again : Extended b.graph ps b'

theorem repeated_ofPlans (hg : g.Reachable) (hc : FormPlan.Closed g ps) (hp : ps.Perm qs) :
    Repeated g ps (ofPlans g ps) (ofPlans (ofPlans g ps).graph qs) := by
  obtain ⟨hr,hold,hnew,hfailed,hreports⟩ := ((hc.perm hp).mono hc.extended.old).extended
  refine ⟨hg,hc,hc.extended,hr,hold,fun p hmem => ?_,hfailed,hreports⟩
  obtain ⟨id,f,hid,hfresh,hf,hb⟩ := hnew p (hp.mem_iff.mp hmem)
  exact ⟨id,f,hid,hfresh,hf,hb.name,hb.kind,hb.body,hb.labels,hb.fresh,hb.nonempty,
    fun sub hs => (hb.issued sub hs).imp_left fun ⟨q,hq,he⟩ => ⟨q,hp.mem_iff.mpr hq,he⟩⟩

namespace Repeated
variable (h : Repeated g ps b b')
include h

theorem reachable_first : b.graph.Reachable := h.first.reachable h.reachable

theorem reachable_again : b'.graph.Reachable := h.again.reachable h.reachable_first

theorem retains : g.Retains b.graph := h.first.old

theorem retains_again : b.graph.Retains b'.graph := h.again.old

theorem exists_forms {p : FormPlan} (hp : p ∈ ps) (hx : b.ids.get? p.name = some x)
    (hy : b'.ids.get? p.name = some y) : ∃ f f', b.graph.get? x = some f ∧
      b'.graph.get? y = some f' ∧ f.name = p.name ∧ f'.name = p.name ∧
      f.body.Related (Counterpart g ps b b') f'.body := by
  obtain ⟨-,f,hf,hb⟩ := h.first.of_get? hp hx
  obtain ⟨-,f',hf',hb'⟩ := h.again.of_get? hp hy
  have hfit := h.closed.fit p hp
  obtain ⟨hk,hm,hs⟩ := hfit.bodyOf hb.body
  obtain ⟨hk',hm',hs'⟩ := hfit.bodyOf hb'.body
  refine ⟨f,f',hf,hf',hb.name,hb'.name,hk.trans hk'.symm,hm.trans hm'.symm,?_⟩
  have hparts : ∀ t ∈ (if p.kind = .simple then [] else p.parts), t ∈ p.parts := by
    split
    · nofun
    · exact fun _ => id
  have hmem := forall₂_of_mem (S := fun t sub => t ∈ p.parts ∧ t.id? b.ids = some sub) hs
    fun t ht _ _ he => ⟨hparts t ht,he⟩
  refine (forall₂_comp hmem.flip hs').imp fun sub sub' ⟨t,⟨ht,he⟩,he'⟩ => ?_
  rcases h.closed.parts p hp t ht with ⟨q,hq,rfl⟩ | ⟨id,rfl,hid⟩
  · exact .planned hq he he'
  · cases he
    cases he'
    exact .old hid

theorem contains (hxy : Counterpart g ps b b' x y) :
    b.graph.contains x ∧ b'.graph.contains y := by
  cases hxy with
  | old hx =>
    have hx' := h.retains.contains hx
    exact ⟨hx',h.retains_again.contains hx'⟩
  | planned hp hx hy =>
    obtain ⟨-,f,hf,-⟩ := h.first.of_get? hp hx
    obtain ⟨-,f',hf',-⟩ := h.again.of_get? hp hy
    exact ⟨FormGraph.contains_of_get? hf,FormGraph.contains_of_get? hf'⟩

theorem old_iff (hxy : Counterpart g ps b b' x y) : g.contains x ↔ b.graph.contains y := by
  cases hxy with
  | old hx => exact iff_of_true hx (h.retains.contains hx)
  | planned hp hx hy => exact iff_of_false (h.first.of_get? hp hx).1 (h.again.of_get? hp hy).1

theorem biUnique : Relator.BiUnique (Counterpart g ps b b') := by
  constructor
  · intro x x' y hxy hxy'
    have hold := (h.old_iff hxy).trans (h.old_iff hxy').symm
    cases hxy with
    | old hx =>
      cases hxy' with
      | old => rfl
      | planned hp hx' hy => exact absurd (hold.mp hx) (h.first.of_get? hp hx').1
    | planned hp hx hy =>
      cases hxy' with
      | old hx' => exact absurd (hold.mpr hx') (h.first.of_get? hp hx).1
      | planned hp' hx' hy' =>
        have hname := h.again.name_unique hp hp' hy hy'
        exact Option.some.inj (hx.symm.trans (hname ▸ hx'))
  · intro x y y' hxy hxy'
    cases hxy with
    | old hx =>
      cases hxy' with
      | old => rfl
      | planned hp hx' hy => exact absurd hx (h.first.of_get? hp hx').1
    | planned hp hx hy =>
      cases hxy' with
      | old hx' => exact absurd hx' (h.first.of_get? hp hx).1
      | planned hp' hx' hy' =>
        have hname := h.first.name_unique hp hp' hx hx'
        exact Option.some.inj (hy.symm.trans (hname ▸ hy'))

theorem similar (hxy : Counterpart g ps b b' x y) : b'.graph.Similar x y := by
  refine FormGraph.similar_of_agree (R := Counterpart g ps b b') (fun x y hxy => ?_) hxy
  cases hxy with
  | old => exact .inl (.refl _ _)
  | planned hp hx hy =>
    obtain ⟨f,f',hf,hf',hn,hn',hr⟩ := h.exists_forms hp hx hy
    have hf := (h.retains_again.get? (FormGraph.contains_of_get? hf)).trans hf
    exact .inr ⟨f,f',hf,hf',hn.trans hn'.symm,hr.mono fun _ _ => .inl⟩

theorem twins : b.graph.Twins (Counterpart g ps b b') b'.graph := by
  have hslot {x : FormId} (hx : g.contains x) : b'.graph.slot? x = b.graph.slot? x :=
    h.retains_again x (h.retains.contains hx)
  have hform {x y : FormId} (hxy : Counterpart g ps b b' x y) : Option.Rel
      (fun e f => e.name = f.name ∧ e.body.Related (Counterpart g ps b b') f.body)
      (b.graph.get? x) (b'.graph.get? y) := by
    cases hxy with
    | planned hp hx hy =>
      obtain ⟨f,f',hf,hf',hn,hn',hr⟩ := h.exists_forms hp hx hy
      rw [hf,hf']
      exact .some ⟨hn.trans hn'.symm,hr⟩
    | old hx =>
      rw [h.retains_again.get? (h.retains.contains hx),h.retains.get? hx]
      cases hf : g.get? x with
      | none => exact .none
      | some f =>
        exact .some ⟨rfl,Body.related_self fun id hid =>
          .old (h.reachable.sound.issued x f hf id hid)⟩
  refine ⟨h.biUnique,fun x y hxy => ?_,fun x y hxy => ?_,fun x y => hform,fun x y hxy hnone => ?_,
    fun x y z w hxy hzw => ?_⟩
  · cases hxy with
    | old hx => simp only [FormGraph.nameOrId,FormGraph.name?,hslot hx]
    | planned hp hx hy =>
      obtain ⟨f,f',hf,hf',hn,hn',-⟩ := h.exists_forms hp hx hy
      simp [FormGraph.nameOrId,FormGraph.name?_of_get? hf,FormGraph.name?_of_get? hf',hn,hn']
  · cases hxy with
    | old hx => simp only [FormGraph.kind?,hslot hx]
    | planned hp hx hy =>
      obtain ⟨f,f',hf,hf',-,-,hr⟩ := h.exists_forms hp hx hy
      rw [FormGraph.kind?_of_get? hf,FormGraph.kind?_of_get? hf']
      exact congrArg some hr.kind_eq
  · cases hxy with
    | old => rfl
    | planned hp hx hy =>
      obtain ⟨f,-,hf,-⟩ := h.exists_forms hp hx hy
      rw [hf] at hnone
      cases hnone
  · have hs := h.reachable_first.sound
    rw [Bool.eq_iff_iff,FormGraph.equalForms_iff_similar hs.namesUnique,
      FormGraph.equalForms_iff_similar h.reachable_again.sound.namesUnique,
      ← h.retains_again.similar_iff hs (h.contains hxy).1 (h.contains hzw).1]
    exact ⟨fun hxz => (h.similar hxy).symm.trans (hxz.trans (h.similar hzw)),
      fun hyw => (h.similar hxy).trans (hyw.trans (h.similar hzw).symm)⟩

end Repeated

def idOf? (b : FormExtension) (ps : List FormPlan) (name : String) : Option FormId :=
  if name ∈ b.sound ps then b.ids.get? name else none

theorem Repeated.idOf? (h : Repeated g ps b b') (hb : b.sound ps = ps.map FormPlan.name)
    (hb' : b'.sound qs = qs.map FormPlan.name) (hp : ps.Perm qs) (name : String) :
    Option.Rel (Counterpart g ps b b') (b.idOf? ps name) (b'.idOf? qs name) := by
  have hmem : name ∈ b.sound ps ↔ name ∈ b'.sound qs := by
    rw [hb,hb']
    exact (hp.map _).mem_iff
  by_cases hname : name ∈ b.sound ps
  · rw [FormExtension.idOf?,FormExtension.idOf?,if_pos hname,if_pos (hmem.mp hname)]
    obtain ⟨p,hp,rfl⟩ := List.mem_map.mp (hb ▸ hname)
    obtain ⟨x,-,hx,-⟩ := h.first.new p hp
    obtain ⟨y,-,hy,-⟩ := h.again.new p hp
    rw [hx,hy]
    exact .some (.planned hp hx hy)
  · rw [FormExtension.idOf?,FormExtension.idOf?,if_neg hname,if_neg (mt hmem.mpr hname)]
    exact .none

theorem registry_ofPlans (g : FormGraph) (ps : List FormPlan) :
    (ofPlans g ps).graph.registry = g.registry := by
  have hfold (step : FormExtension → FormPlan → FormExtension)
      (h : ∀ (b : FormExtension) p, (step b p).graph.registry = b.graph.registry)
      (b : FormExtension) : (ps.foldl step b).graph.registry = b.graph.registry := by
    induction ps generalizing b with
    | nil => rfl
    | cons p ps ih => exact (ih (step b p)).trans (h b p)
  refine (hfold define (fun b p => ?_) _).trans (hfold declare (fun _ _ => rfl) _)
  unfold define
  split
  · split <;> rename_i hd
    · obtain ⟨-,-,-,-,-,-,rfl⟩ := FormGraph.define_eq_ok_iff.mp hd
      rfl
    · rfl
  · rfl

end FormExtension

namespace BuiltForms
variable {l : LeafScope} {c : Catalogue} {g : FormGraph} {s s' : FormSketches}

def topOf? (b : BuiltForms) (f : FormSketch) : Option (String × FormId) :=
  if f.top then ((b.table.get? f.name).bind Resolution.value?).map fun id => (f.name,id) else none

theorem topOf?_eq_some {b : BuiltForms} {f : FormSketch} {e : String × FormId} :
    b.topOf? f = some e ↔ f.top ∧ e.1 = f.name ∧ b.table.get? f.name = some (.value e.2) := by
  obtain ⟨name,id⟩ := e
  have hvalue (x : Resolution FormId) : x.value? = some id ↔ x = .value id := by
    cases x <;> simp [Resolution.value?]
  unfold topOf?
  split <;> rename_i ht <;> simp [ht,Option.bind_eq_some_iff,hvalue]
  rw [and_comm,eq_comm]

theorem graph_eq (l : LeafScope) (c : Catalogue) (g : FormGraph) (s : FormSketches) :
    (ofSketches l c g s).graph = (FormExtension.ofPlans g (FormPlan.ofSketches l c s)).graph := rfl

theorem reports_eq (l : LeafScope) (c : Catalogue) (g : FormGraph) (s : FormSketches) :
    (ofSketches l c g s).reports = (s.sketches.map (FormPlan.ofSketch l c s)).flatMap
      Attempt.reports ++ (FormExtension.ofPlans g (FormPlan.ofSketches l c s)).reports := rfl

theorem table_eq (l : LeafScope) (c : Catalogue) (g : FormGraph) (s : FormSketches) :
    (ofSketches l c g s).table = .ofList (s.names.map fun name =>
      (name,.ofOption ((FormExtension.ofPlans g (FormPlan.ofSketches l c s)).idOf?
        (FormPlan.ofSketches l c s) name))) := by
  rw [FormSketches.names,List.map_map]
  rfl

theorem top_eq (l : LeafScope) (c : Catalogue) (g : FormGraph) (s : FormSketches) :
    (ofSketches l c g s).top = s.sketches.filterMap (ofSketches l c g s).topOf? := by
  let ps := FormPlan.ofSketches l c s
  let idOf := (FormExtension.ofPlans g ps).idOf? ps
  refine List.filterMap_congr fun f hf => ?_
  have hmem : f.name ∈ s.names := List.mem_map_of_mem hf
  rw [topOf?,table_eq,Table.get?_ofList_map _ fun name => Resolution.ofOption (idOf name),
    if_pos hmem]
  show (if f.top then (idOf f.name).map _ else none) = _
  cases idOf f.name <;> rfl

/-- The forms of a document, built, and built again. -/
structure Twice (g : FormGraph) (R : FormId → FormId → Prop) (b b' : BuiltForms) : Prop where
  reachable : b.graph.Reachable
  reachable_again : b'.graph.Reachable
  retains : g.Retains b.graph
  retains_again : b.graph.Retains b'.graph
  old : ∀ x, g.contains x → R x x
  similar : ∀ x y, R x y → b'.graph.Similar x y
  twins : b.graph.Twins R b'.graph
  table : b.table.Alike (Resolution.Rel R) b'.table
  reports : b.reports.Perm b'.reports

theorem Twice.rel_topOf? {R : FormId → FormId → Prop} {b b' : BuiltForms} (h : Twice g R b b')
    (f : FormSketch) : Option.Rel R ((b.topOf? f).map Prod.snd) ((b'.topOf? f).map Prod.snd) := by
  have hget := h.table.get? f.name
  unfold BuiltForms.topOf?
  split
  · generalize b.table.get? f.name = v, b'.table.get? f.name = w at hget
    cases hget with
    | none => exact .none
    | some hvw =>
      cases hvw with
      | pending | failed => exact .none
      | value hxy => exact .some hxy
  · exact .none

theorem twice_ofSketches (hg : g.Reachable)
    (hc : ∀ name id, c.forms.get? name = some id → g.contains id) (hn : s.names.Nodup)
    (hf : ∀ f ∈ s.sketches, f.sound → f.Fit) (hp : s.sketches.Perm s'.sketches) :
    ∃ R, Twice g R (ofSketches l c g s)
      (ofSketches l c (ofSketches l c g s).graph s') := by
  have hclosed : FormPlan.Closed g (FormPlan.ofSketches l c s) :=
    FormPlan.closed_ofSketches hn hf hc
  have hperm := FormPlan.ofSketches_perm (l := l) (c := c) hp
  have hrep := FormExtension.repeated_ofPlans hg hclosed hperm
  have hagain := (hclosed.perm hperm).mono hclosed.extended.old
  refine ⟨_,hrep.reachable_first,hrep.reachable_again,hrep.retains,hrep.retains_again,
    fun _ => .old,fun _ _ => hrep.similar,hrep.twins,?_,?_⟩
  · have hnames : s.names.Perm s'.names := hp.map _
    rw [table_eq,table_eq,graph_eq,← Table.ofList_eq_of_perm _ (hnames.map _)]
    · refine Table.alike_ofList ?_
      rw [List.forall₂_map_left_iff,List.forall₂_map_right_iff,List.forall₂_same]
      exact fun name _ => ⟨rfl,Resolution.rel_ofOption
        (hrep.idOf? hclosed.sound_eq hagain.sound_eq hperm name)⟩
    · rw [List.map_map]
      exact (List.map_id' s.names).symm ▸ hn
  · rw [reports_eq,reports_eq,graph_eq,hclosed.extended.reports,hagain.extended.reports,
      FormPlan.ofSketch_perm hp]
    exact ((hp.map _).flatMap_right _).append_right _

end BuiltForms
end AddressedForms
