import AddressedForms.Proofs.Repository.Registration
import Mathlib.Order.Bounds.Basic
set_option autoImplicit false

/-!
Which forms of a document are built. Plans with a missing part may be dropped one after another in
any order, also round a cycle: this comes to an end, and always to the same plans. They are those of
the largest set of sketches that stand by themselves, and all of them become forms.
-/

namespace AddressedForms

namespace FormPlan
variable {ps qs rs : List FormPlan} {p : FormPlan}

inductive Drops : List FormPlan → List FormPlan → Prop
  | drop {as bs : List FormPlan} {p : FormPlan}
    (h : ¬ p.isComplete ((as ++ p :: bs).map FormPlan.name)) : Drops (as ++ p :: bs) (as ++ bs)

theorem Drops.length_eq (h : Drops ps qs) : ps.length = qs.length+1 := by
  cases h
  simp only [List.length_append,List.length_cons]
  omega

theorem wellFounded_drops : WellFounded fun qs ps => Drops ps qs := by
  refine Subrelation.wf (r := (measure List.length).rel) (fun {qs ps} h => ?_)
    (measure List.length).wf
  show qs.length < ps.length
  rw [h.length_eq]
  exact Nat.lt_succ_self _

theorem sublist_of_notMem {as bs : List FormPlan} (h : ps.Sublist (as ++ p :: bs)) (hp : p ∉ ps) :
    ps.Sublist (as ++ bs) := by
  obtain ⟨qs,rs,rfl,hq,hr⟩ := List.sublist_append_iff.mp h
  rw [List.mem_append,not_or] at hp
  refine hq.append ?_
  rcases List.sublist_cons_iff.mp hr with hr | ⟨_,rfl,-⟩
  · exact hr
  · exact absurd (List.mem_cons_self) hp.2

theorem Drops.prune_sublist (h : Drops ps qs) (hr : (prune rs).Sublist ps) :
    (prune rs).Sublist qs := by
  cases h with
  | drop h =>
    refine sublist_of_notMem hr fun hp => h ?_
    exact isComplete_of_subset (isComplete_of_mem_prune hp) (hr.map _).subset

theorem sublist_prune (hq : qs.Sublist ps) (hc : ∀ q ∈ qs, q.isComplete (qs.map FormPlan.name)) :
    qs.Sublist (prune ps) := by
  fun_induction prune ps with
  | case1 ps _ ih =>
    refine ih ?_
    have hkept : qs.filter (isComplete (ps.map FormPlan.name)) = qs :=
      List.filter_eq_self.mpr fun q hm => isComplete_of_subset (hc q hm) (hq.map _).subset
    exact hkept ▸ hq.filter _
  | case2 ps _ => exact hq

/-- In whatever order plans are dropped, the same ones are left. -/
theorem eq_prune_of_drops (h : Relation.ReflTransGen Drops ps qs) (hend : ∀ rs, ¬ Drops qs rs) :
    qs = prune ps := by
  have hbetween : (prune ps).Sublist qs ∧ qs.Sublist ps := by
    clear hend
    induction h with
    | refl => exact ⟨FormPlan.prune_sublist ps,.refl ps⟩
    | tail _ hd ih =>
      refine ⟨hd.prune_sublist ih.1,.trans ?_ ih.2⟩
      cases hd
      exact (List.Sublist.refl _).append (List.sublist_cons_self _ _)
  have hcomplete (q : FormPlan) (hq : q ∈ qs) : q.isComplete (qs.map FormPlan.name) := by
    by_contra hc
    obtain ⟨as,bs,rfl⟩ := List.append_of_mem hq
    exact hend _ (.drop hc)
  exact (sublist_prune hbetween.2 hcomplete).antisymm hbetween.1

end FormPlan

theorem FormPlan.reports_ofSketch {l : LeafScope} {c : Catalogue} {s : FormSketches}
    (f : FormSketch) :
    (FormPlan.ofSketch l c s f).reports = (FormPlan.moduleOf l f.module).reports := by
  unfold FormPlan.ofSketch
  generalize FormPlan.moduleOf l f.module = a
  obtain ⟨m,es⟩ := a
  cases m with
  | none => rfl
  | some m =>
    simp only [Bind.bind,Attempt.bind]
    split <;> exact List.append_nil es

namespace FormSketches
variable {s : FormSketches} {l : LeafScope} {c : Catalogue} {S : Set FormSketch}

/-- Sketches that stand by themselves: without faults, with a module where one is needed, and with
names for parts that are names of them, or that no sketch has and that are known otherwise. -/
structure Sustained (s : FormSketches) (l : LeafScope) (known : String → Prop)
    (S : Set FormSketch) : Prop where
  sketched : ∀ f ∈ S, f ∈ s.sketches
  sound : ∀ f ∈ S, f.sound
  module : ∀ f ∈ S, f.kind = .simple →
    ∃ n m, f.module = some n ∧ (Module.ofNested l n).value? = some m
  parts : ∀ f ∈ S, ∀ name ∈ f.parts, (∃ e ∈ S, e.name = name) ∨ name ∉ s.names ∧ known name

def planned (l : LeafScope) (c : Catalogue) (s : FormSketches) : Set FormSketch :=
  {f | f ∈ s.sketches ∧ ∃ p ∈ FormPlan.ofSketches l c s, p.name = f.name}

theorem eq_of_name_eq (hn : s.names.Nodup) {f e : FormSketch} (hf : f ∈ s.sketches)
    (he : e ∈ s.sketches) (h : f.name = e.name) : f = e :=
  List.inj_on_of_nodup_map hn hf he h

theorem moduleOf_eq_some {n? : Option Node} {m : Option Module}
    (h : (FormPlan.moduleOf l n?).value? = some m) :
    (n? = none ∧ m = none) ∨ ∃ n x, n? = some n ∧ m = some x ∧
      (Module.ofNested l n).value? = some x := by
  cases n? with
  | none =>
    cases h
    exact .inl ⟨rfl,rfl⟩
  | some n =>
    rw [FormPlan.moduleOf,Attempt.value?_bind] at h
    obtain ⟨x,hx,h⟩ := Option.bind_eq_some_iff.mp h
    cases h
    exact .inr ⟨n,x,rfl,rfl,hx⟩

theorem sustained_planned (hn : s.names.Nodup) (hf : ∀ f ∈ s.sketches, f.sound → f.Fit) :
    s.Sustained l (fun name => (c.forms.get? name).isSome) (s.planned l c) := by
  have hplan {f : FormSketch} (h : f ∈ s.planned l c) :
      ∃ p ∈ FormPlan.ofSketches l c s, (FormPlan.ofSketch l c s f).value? = some p := by
    obtain ⟨hmem,p,hp,hname⟩ := h
    obtain ⟨e,he,hep⟩ := FormPlan.mem_ofSketches hp
    obtain ⟨-,m,parts,-,-,rfl⟩ := FormPlan.ofSketch_eq_some hep
    exact ⟨_,hp,eq_of_name_eq hn hmem he hname.symm ▸ hep⟩
  refine ⟨fun f h => h.1,fun f h => ?_,fun f h hk => ?_,fun f h name hname => ?_⟩
  all_goals
    obtain ⟨p,hp,hfp⟩ := hplan h
    obtain ⟨hsound,m,parts,hm,hparts,rfl⟩ := FormPlan.ofSketch_eq_some hfp
  · exact hsound
  · rcases moduleOf_eq_some hm with ⟨hnone,-⟩ | ⟨n,x,hn,-,hx⟩
    · have hsome := (hf f h.1 hsound).module hk
      rw [hnone] at hsome
      cases hsome
    · exact ⟨n,x,hn,hx⟩
  · obtain ⟨t,ht,hnt⟩ := exists_of_forall₂_left hparts hname
    unfold PlannedPart.ofName? at hnt
    split at hnt
    · rename_i e he
      cases hnt
      obtain ⟨q,hq,hqn⟩ := List.mem_map.mp (of_decide_eq_true
        (List.all_eq_true.mp (FormPlan.isComplete_of_mem_prune hp) _ ht))
      have hen : e.name = name := by simpa using List.find?_some he
      exact .inl ⟨e,⟨List.mem_of_find?_eq_some he,q,hq,hqn.trans hen.symm⟩,hen⟩
    · rename_i hnone
      obtain ⟨id,hid,-⟩ := Option.map_eq_some_iff.mp hnt
      exact .inr ⟨(named?_eq_none_iff s name).mp hnone,by rw [hid]; rfl⟩

theorem Sustained.exists_part (h : s.Sustained l (fun name => (c.forms.get? name).isSome) S)
    {f : FormSketch} (hf : f ∈ S) {name : String} (hname : name ∈ f.parts) :
    ∃ t, PlannedPart.ofName? s c name = some t := by
  unfold PlannedPart.ofName?
  split
  · exact ⟨_,rfl⟩
  · rename_i hnone
    rcases h.parts f hf name hname with ⟨e,he,hen⟩ | ⟨-,hknown⟩
    · refine absurd ?_ ((named?_eq_none_iff s name).mp hnone)
      exact hen ▸ List.mem_map_of_mem (h.sketched e he)
    · obtain ⟨id,hid⟩ := Option.isSome_iff_exists.mp hknown
      exact ⟨.catalogued id,by rw [hid]; rfl⟩

theorem Sustained.exists_plan (hm : ∀ f ∈ s.sketches, f.kind ≠ .simple → f.module = none)
    (h : s.Sustained l (fun name => (c.forms.get? name).isSome) S) {f : FormSketch} (hf : f ∈ S) :
    ∃ p, (FormPlan.ofSketch l c s f).value? = some p ∧ p.name = f.name := by
  obtain ⟨m,hmodule⟩ : ∃ m, (FormPlan.moduleOf l f.module).value? = some m := by
    by_cases hk : f.kind = .simple
    · obtain ⟨n,x,hn,hx⟩ := h.module f hf hk
      exact ⟨some x,by rw [hn,FormPlan.moduleOf,Attempt.value?_bind,hx]; rfl⟩
    · exact ⟨none,by rw [hm f (h.sketched f hf) hk]; rfl⟩
  obtain ⟨parts,hparts⟩ := exists_forall₂ fun name hname => h.exists_part (c := c) hf hname
  refine ⟨⟨f.name,f.kind,f.tag,m,parts,f.labels⟩,?_,rfl⟩
  rw [FormPlan.ofSketch,Attempt.value?_bind,hmodule,h.sound f hf,mapM_eq_some_iff.mpr hparts]
  rfl

theorem Sustained.subset_planned (hm : ∀ f ∈ s.sketches, f.kind ≠ .simple → f.module = none)
    (h : s.Sustained l (fun name => (c.forms.get? name).isSome) S) : S ⊆ s.planned l c := by
  classical
  let all := (s.sketches.map (FormPlan.ofSketch l c s)).filterMap Attempt.value?
  -- the plans of the set need nothing but each other
  let qs := all.filter fun p => ∃ f ∈ S, (FormPlan.ofSketch l c s f).value? = some p
  have hmem {f : FormSketch} (hf : f ∈ S) {p : FormPlan}
      (hp : (FormPlan.ofSketch l c s f).value? = some p) : p ∈ qs := by
    refine List.mem_filter.mpr ⟨?_,decide_eq_true ⟨f,hf,hp⟩⟩
    exact List.mem_filterMap.mpr ⟨_,List.mem_map_of_mem (h.sketched f hf),hp⟩
  have hkept : qs ⊆ FormPlan.ofSketches l c s := by
    refine FormPlan.subset_prune (fun q hq => (List.mem_filter.mp hq).1) fun q hq => ?_
    obtain ⟨f,hf,hfq⟩ := of_decide_eq_true (List.mem_filter.mp hq).2
    obtain ⟨-,m,parts,-,hparts,rfl⟩ := FormPlan.ofSketch_eq_some hfq
    refine List.all_eq_true.mpr fun t ht => ?_
    obtain ⟨name,hname,hnt⟩ := exists_of_forall₂_right hparts ht
    unfold PlannedPart.ofName? at hnt
    split at hnt <;> rename_i hnamed
    · cases hnt
      rcases h.parts f hf name hname with ⟨e,he,hen⟩ | ⟨hno,-⟩
      · obtain ⟨p,hp,hpn⟩ := h.exists_plan hm he
        exact decide_eq_true (List.mem_map.mpr ⟨p,hmem he hp,hpn.trans hen⟩)
      · cases hnamed.symm.trans ((named?_eq_none_iff s name).mpr hno)
    · obtain ⟨id,-,rfl⟩ := Option.map_eq_some_iff.mp hnt
      rfl
  intro f hf
  obtain ⟨p,hp,hpn⟩ := h.exists_plan hm hf
  exact ⟨h.sketched f hf,p,hkept (hmem hf hp),hpn⟩

/-- What is not dropped is the largest set that stands by itself. -/
theorem isGreatest_planned (hn : s.names.Nodup) (hf : ∀ f ∈ s.sketches, f.sound → f.Fit)
    (hm : ∀ f ∈ s.sketches, f.kind ≠ .simple → f.module = none) :
    IsGreatest {S | s.Sustained l (fun name => (c.forms.get? name).isSome) S} (s.planned l c) :=
  ⟨sustained_planned hn hf,fun _ h => h.subset_planned hm⟩

end FormSketches

theorem Catalogue.isSome_form?_iff {r : Repository} {consulted : Bool} {name : String} :
    ((ofRepository r consulted).forms.get? name).isSome ↔ consulted ∧ (r.form? name).isSome := by
  cases consulted with
  | false => simp [ofRepository,empty]
  | true => exact (and_iff_right rfl).symm

namespace Definitions
variable {root : Node} {d : Definitions} {g : FormGraph} {v : Vocabulary} {c : Catalogue}

theorem Drawn.module_eq_none (hd : d.Drawn root) {f : FormSketch} (hf : f ∈ d.forms.sketches)
    (hk : f.kind ≠ .simple) : f.module = none := by
  obtain ⟨top,n,name,kind,-,rfl⟩ := hd.forms f hf
  exact if_neg hk

theorem Drawn.isGreatest_planned (hd : d.Drawn root) (hn : d.forms.names.Nodup) {l : LeafScope} :
    IsGreatest {S | d.forms.Sustained l (fun name => (c.forms.get? name).isSome) S}
      (d.forms.planned l c) := by
  refine FormSketches.isGreatest_planned hn (fun f hf hsound => ?_) fun f => hd.module_eq_none
  obtain ⟨top,n,name,kind,-,rfl⟩ := hd.forms f hf
  exact FormSketch.fit_ofNode hsound

variable (hd : d.Drawn root) (hn : d.forms.names.Nodup)
  (hc : ∀ name id, c.forms.get? name = some id → g.contains id)
include hd hn hc

theorem exists_built_iff {name : String} :
    (∃ id, (d.built v c g).table.get? name = some (.value id)) ↔
      ∃ p ∈ d.plans v c, p.name = name := by
  constructor
  · rintro ⟨id,hid⟩
    obtain ⟨p,hp,hpn,-⟩ := (get?_built hd hn hc).mp hid
    exact ⟨p,hp,hpn⟩
  · rintro ⟨p,hp,rfl⟩
    obtain ⟨id,-,hid,-⟩ := (extended hd hn hc (v := v)).new p hp
    exact ⟨id,(get?_built hd hn hc).mpr ⟨p,hp,rfl,hid⟩⟩

theorem reports_built : (d.built v c g).reports =
    d.forms.sketches.flatMap fun f => (FormPlan.moduleOf (d.scope v) f.module).reports := by
  have hplans :
      (FormExtension.ofPlans g (FormPlan.ofSketches (d.scope v) c d.forms)).reports = [] :=
    (extended hd hn hc).reports
  rw [built,BuiltForms.reports_eq,hplans,List.append_nil,List.flatMap_map]
  exact List.flatMap_congr fun f _ => FormPlan.reports_ofSketch f

end Definitions

namespace Reader
variable (a : Reader) (root : Node) (r : Repository) {name : String} {id : FormId}

theorem mem_symbols : (name,id) ∈ (a.readNode root r).1.symbols.forms ↔
    ((Definitions.ofRoot root).built a.vocabulary (.ofRepository r a.settings.catalogFallback)
      r.forms).table.get? name = some (.value id) := by
  rw [(a.readNode_fields root r).2.2,Reading.ofNode_eq]
  exact ⟨Resolution.get?_of_mem_values,Resolution.mem_values⟩

variable {r} (hr : r.Reachable)
include hr

theorem exists_symbol_iff : (∃ id, (name,id) ∈ (a.readNode root r).1.symbols.forms) ↔
    ∃ p ∈ (Definitions.ofRoot root).plans a.vocabulary (.ofRepository r a.settings.catalogFallback),
      p.name = name :=
  (exists_congr fun _ => a.mem_symbols root r).trans (Definitions.exists_built_iff
    (Definitions.drawn_ofRoot root) (Definitions.collects_ofRoot root).forms
    (hr.catalogue a.settings.catalogFallback).forms)

theorem get?_of_symbol (h : (name,id) ∈ (a.readNode root r).1.symbols.forms) :
    ∃ f, (a.readNode root r).2.2.forms.get? id = some f ∧ f.name = name := by
  obtain ⟨p,-,hp,-,f,hf,hb⟩ := Definitions.exists_form (Definitions.drawn_ofRoot root)
    (Definitions.collects_ofRoot root).forms (hr.catalogue a.settings.catalogFallback).forms
    ((a.mem_symbols root r).mp h)
  obtain ⟨e,he,hname,-⟩ := (a.follows_ofNode root r).forms.grows.keeps id f hf
  exact ⟨e,he,hname.trans (hb.name.trans hp)⟩

end Reader

/-- The forms of a document that are built are those of the largest set of definitions that have no
faults, have their modules, and refer to each other or, where the document has no definition of a
name, to the catalogue. However the plans with a missing part are dropped, these are left in the
end; none of them fails to be defined, and nothing is reported but what is wrong with modules. -/
theorem Reader.readNode_survivors {r : Repository} (hr : r.Reachable) (a : Reader) (root : Node) :
    let d := Definitions.ofRoot root
    let l := d.scope a.vocabulary
    let c := Catalogue.ofRepository r a.settings.catalogFallback
    let plans := (d.forms.sketches.map (FormPlan.ofSketch l c d.forms)).filterMap Attempt.value?
    let kept := FormPlan.prune plans
    let o := (a.readNode root r).1
    let s := (a.readNode root r).2.2
    IsGreatest {S | d.forms.Sustained l
        (fun name => a.settings.catalogFallback ∧ (r.form? name).isSome) S}
      {f | f ∈ d.forms.sketches ∧ ∃ id, (f.name,id) ∈ o.symbols.forms} ∧
    (WellFounded fun qs ps => FormPlan.Drops ps qs) ∧
    (∀ qs, Relation.ReflTransGen FormPlan.Drops plans qs → (∀ rs, ¬ FormPlan.Drops qs rs) →
      qs = kept) ∧
    (∀ name, (∃ id, (name,id) ∈ o.symbols.forms) ↔ ∃ p ∈ kept, p.name = name) ∧
    (∀ name id, (name,id) ∈ o.symbols.forms → ∃ f, s.forms.get? id = some f ∧ f.name = name) ∧
    (FormExtension.ofPlans r.forms kept).failed = [] ∧
    (BuiltForms.ofSketches l c r.forms d.forms).reports =
      d.forms.sketches.flatMap fun f => (FormPlan.moduleOf l f.module).reports := by
  intro d l c plans kept o s
  have hd : d.Drawn root := Definitions.drawn_ofRoot root
  have hn : d.forms.names.Nodup := (Definitions.collects_ofRoot root).forms
  have hc := (hr.catalogue a.settings.catalogFallback).forms
  have hbuilt (name : String) : (∃ id, (name,id) ∈ o.symbols.forms) ↔ ∃ p ∈ kept, p.name = name :=
    a.exists_symbol_iff root hr
  have hgreatest := hd.isGreatest_planned hn (l := l) (c := c)
  refine ⟨?_,FormPlan.wellFounded_drops,fun qs => FormPlan.eq_prune_of_drops,hbuilt,
    fun name id => a.get?_of_symbol root hr,(Definitions.extended hd hn hc).failed,
    Definitions.reports_built hd hn hc⟩
  simp only [c,Catalogue.isSome_form?_iff] at hgreatest
  convert hgreatest using 1
  ext f
  exact and_congr_right fun _ => hbuilt f.name

/-- Verse and refrain are lists of each other. A coda is a list of what nothing defines, and a song
has a coda. -/
def Node.verses : Node :=
  let form (name part : String) := (((leaf "Form").withAttr "name" name).withAttr "type"
    "List").withChildren [reference "Form" part]
  (leaf "Document").withChildren
    [form "Song" "Coda",form "Verse" "Refrain",form "Coda" "Fade",form "Refrain" "Verse"]

/-- Songs are dropped with their coda; verse and refrain keep each other. -/
theorem Reader.readNode_verses :
    let o := (default.readNode .verses .empty).1
    o.symbols.forms = [("Refrain",⟨1⟩),("Verse",⟨0⟩)] ∧
    ∀ S, (Definitions.ofRoot .verses).forms.Sustained
        ((Definitions.ofRoot .verses).scope .builtins)
        (fun name => true ∧ (Repository.empty.form? name).isSome) S →
      ∀ f ∈ S, f.name ≠ "Song" := by
  intro o
  have hforms : o.symbols.forms = [("Refrain",⟨1⟩),("Verse",⟨0⟩)] := by cbv
  refine ⟨hforms,fun S hS f hf hname => ?_⟩
  obtain ⟨hgreatest,-⟩ := readNode_survivors (r := .empty) ⟨[],rfl⟩ default .verses
  obtain ⟨-,id,hmem⟩ := hgreatest.2 hS hf
  rw [hforms,hname] at hmem
  simp at hmem

end AddressedForms
