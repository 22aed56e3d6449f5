import AddressedForms.Proofs.Document.Assembly
set_option autoImplicit false

/-!
What is read off the nodes of a written document's denotators: forms that are similar to theirs, and
all else as it was.
-/

namespace AddressedForms
open DenotatorSketch

/-- A node whose address, coordinate and index read back. -/
structure Denotator.ProperNode (d : Denotator) : Prop where
  address : d.address.isProper
  morphism : ∀ f, d.morphism? = some f → f.isProper
  index : ∀ i, d.index? = some i → i ≤ Integer.maxUnsigned

/-- A node that is read back: it fits its form, and what is assembled of counterparts of its factors
is a counterpart of the node, at least if nothing is reported where that is supposed. -/
structure Denotator.Restorable (g : FormGraph) (env : Surroundings) (supposed : Prop)
    (P : Denotator → Denotator → Prop) (d : Denotator) : Prop where
  proper : d.ProperNode
  placed : ∃ f, g.get? d.form = some f ∧ Fits g f.body d
  assemble : ∀ n y es, Describes env n y d → Placed env y d → List.Forall₂ P es d.factors →
    (assemble env n (es.map .success)).Yields supposed (P · d)

namespace Manuscript

theorem find?_append_of_tags {tag : String} {cs : List Node} (h : ∀ c ∈ cs, c.tag ≠ tag)
    (ds : List Node) : (cs ++ ds).find? (fun c => c.tag = tag) =
      ds.find? (fun c => c.tag = tag) := by
  rw [List.find?_append]
  have : cs.find? (fun c => c.tag = tag) = none := by
    rw [List.find?_eq_none]
    intro c hc
    simpa using h c hc
  rw [this,Option.none_or]

section Children
variable {g : FormGraph} {names : NamedLeaves} {d : Denotator} {form : String} {cs : List Node}

@[simp] theorem tag_coordinateNode (address : Module) (f : Morphism) :
    (f.coordinateNode names address).tag = "Map" := by
  unfold Morphism.coordinateNode
  split
  · split <;> rfl
  · rfl

theorem child?_address (hcs : List.Forall₂ (IsFactorNode g names) d.factors cs) :
    ((headed d form).withChildren (leafNodes names d ++ cs)).child? "Address" =
      if d.address.isNull then none
      else some ((Node.leaf "Address").withChildren [d.address.node names]) := by
  have hnone : cs.find? (fun c => c.tag = "Address") = none := by
    rw [List.find?_eq_none]
    intro c hc
    obtain ⟨f,-,hf⟩ := exists_of_forall₂_right hcs hc
    simp [hf.tag]
  rw [Node.child?,Node.children_withChildren,leafNodes,addressNodes]
  cases hm : d.morphism? <;> cases ha : d.address.isNull <;> simp [hnone]

theorem child?_map {f : Morphism} (hm : d.morphism? = some f) :
    ((headed d form).withChildren (leafNodes names d ++ cs)).child? "Map" =
      some (f.coordinateNode names d.address) := by
  have htags : ∀ c ∈ addressNodes names d.address, c.tag ≠ "Map" := by
    intro c hc
    unfold addressNodes at hc
    split at hc
    · simp at hc
    · simp [List.mem_singleton.mp hc]
  rw [Node.child?,Node.children_withChildren,leafNodes,hm,List.append_assoc,
    find?_append_of_tags htags]
  simp

end Children

section Written
variable {g : FormGraph} {asked es : List Entry} {m : Manuscript} (hg : g.Sound)
  (h : Written g asked es m) (hp : ∀ e ∈ asked, e.leafIsProper) (hmp : g.ModulesProper)
  (c : Catalogue)
include hg h hp hmp

theorem Written.describes {d : Denotator} {n : Node} (hn : m.NodeOf d n) (hd : d.ProperNode)
    (hform : m.HasForm d.form) (hfit : ∃ f, g.get? d.form = some f ∧ Denotator.Fits g f.body d) :
    ∃ y, Describes (m.surroundings c) n y d ∧ Placed (m.surroundings c) y d := by
  obtain ⟨names,hw,hn⟩ := hn
  have hforms := h.compiled.forms_eq
  have hknows := (h.knows hg hp).mono hw
  obtain ⟨form,cs,hname,hcs,rfl⟩ := nodeOf_eq_ok hn
  obtain ⟨f,hf,hfit⟩ := hfit
  obtain ⟨k,-,-,y,-,hk,-,-,hy,-,hfresh,hsim,-⟩ := h.exists_similar hg hp hmp c hform
  have hrestored := (h.rebuilt hg hp hmp c).restored
  rw [hforms,hk,Option.some.injEq] at hname
  subst hname
  obtain ⟨f',hf',hr⟩ : ∃ f', (m.built c).graph.get? y = some f' ∧
      f.body.Related (m.built c).graph.Similar f'.body := by
    rcases hsim.agree with rfl | ⟨e,f',he,hf',-,hr⟩
    · exact absurd (FormGraph.contains_of_get? hf) hfresh
    · rw [hrestored.get? hf] at he
      cases he
      exact ⟨f',hf',hr⟩
  have hkind : (m.built c).graph.kind? y = some d.kind := by
    rw [FormGraph.kind?_of_get? hf']
    exact congrArg some (hr.kind_eq.symm.trans hfit.kind_eq)
  refine ⟨y,⟨?_,?_,?_,?_,fun i hi => ?_,fun f hf => ?_⟩,hsim.symm,
    f.body,f',hfit.extend hrestored.keeps,hf',hr⟩
  · rw [kindOf,Node.require_of_attr? ((Node.attr?_withChildren _ _ _).trans (type_headed d k)),
      Attempt.success_bind,Kind.ofText?_text]
  · have hlookup : (m.surroundings c).form? k = some y :=
      congrArg Attempt.value? (Resolution.lookup_of_value hy)
    rw [formOf,Node.require_of_attr? ((Node.attr?_withChildren _ _ _).trans (form_headed d k)),
      Attempt.success_bind,hlookup,Attempt.ofOption,Attempt.success_bind]
    exact if_pos hkind
  · rw [addressOf,child?_address hcs]
    cases ha : d.address.isNull with
    | true => rw [if_pos rfl,Module.isNull_iff.mp ha]
    | false =>
      have hread := Module.ofNested_node hd.address hknows.modules
      simpa [Node.child?,surroundings] using hread
  · exact name?_headed d k
  · exact Node.parsed_of_attr? ((Node.attr?_withChildren _ _ _).trans (index_headed d k hi))
      (Integer.readIndex_toString (hd.index i hi)) _
  · exact ⟨_,child?_map hf,Morphism.ofCoordinate_coordinateNode hknows (hd.morphism f hf) _⟩

theorem Written.alike_of_held {held x : Denotator} (hx : held = x ∨ held.equals m.forms x) :
    Denotator.Alike (m.built c).graph held x := by
  have hrestored := (h.rebuilt hg hp hmp c).restored
  rcases hx with rfl | hx
  · exact .refl _ _
  · rw [h.compiled.forms_eq,Denotator.equals_iff_alike hg.namesUnique] at hx
    exact hx.extend hrestored.keeps

omit hg hp hmp in
theorem Written.hasDenotator {d x : Denotator} (hd : .denotator d ∈ es) (hx : x ∈ d.nodes) :
    m.HasDenotator x := by
  intro k hk
  obtain ⟨a,ha,hda⟩ := h.due _ hd
  obtain ⟨root,rfl,hroot⟩ := Entry.mem_nodes_of_mem_expand hda
  have hmem := Entry.named_mem_expand (g := g) (Denotator.nodes_trans hx hroot)
    (Option.isSome_iff_exists.mpr ⟨k,hk⟩)
  exact h.has _ ha _ hmem k hk

omit hg hp hmp in
theorem Written.forall_nodes {Q : Denotator → Prop}
    (hq : ∀ d, .denotator d ∈ asked → ∀ x ∈ d.nodes, Q x) :
    ∀ d, .denotator d ∈ es → ∀ x ∈ d.nodes, Q x := by
  intro d hmem x hx
  obtain ⟨e,he,hde⟩ := h.due _ hmem
  obtain ⟨root,rfl,hroot⟩ := Entry.mem_nodes_of_mem_expand hde
  exact hq root he x (Denotator.nodes_trans hx hroot)

section Restorable
variable {supposed : Prop} {P : Denotator → Denotator → Prop}
  (hP : ∀ v a b, P v a → Denotator.Alike (m.built c).graph a b → P v b)
  (hd : ∀ d, .denotator d ∈ es → ∀ x ∈ d.nodes, x.Restorable g (m.surroundings c) supposed P)
include hP hd

/-- Names that are written stand for counterparts of what they were written for. -/
def Meant (m : Manuscript) (P : Denotator → Denotator → Prop) (k : String) (v : Denotator) : Prop :=
  ∀ held, m.writtenDenotators.get? k = some held → P v held

omit hP in
theorem Written.assemble_yields {d x : Denotator} (hmem : .denotator d ∈ es) (hx : x ∈ d.nodes)
    {n : Node} (hn : m.NodeOf x n) {look : String → Attempt Denotator}
    (hlook : ∀ k ∈ allUses (partsOf n), ∀ f ∈ Denotator.allNodes x.factors, f.name = some k →
      ∃ v, look k = .success v ∧ P v f) :
    (assemble (m.surroundings c) n (buildAll (m.surroundings c) look (partsOf n))).Yields supposed
      (P · x) := by
  induction x using Denotator.factor_induction generalizing n with
  | h x ih =>
    intro hc
    have hrestorable := hd d hmem x hx
    obtain ⟨y,hdescribes,hplaced⟩ := h.describes hg hp hmp c hn hrestorable.proper
      (h.complete.denotators d hmem x hx) hrestorable.placed
    obtain ⟨names,hw,hnode⟩ := hn
    have hparts := (plain_nodeOf hnode).parts
    have hclean : supposed → (buildAll (m.surroundings c) look (partsOf n)).flatMap
        Attempt.reports = [] := by
      intro hs
      have hc := hc hs
      rw [hdescribes.assemble_eq] at hc
      refine hdescribes.reports_parts ?_ (Attempt.reports_bind_eq_nil hc).1
      rw [buildAll_eq,List.length_map,hparts.length_eq]
    obtain ⟨es',hes,hcounter⟩ := Attempt.successes_of_forall₂
      (f := DenotatorSketch.build (m.surroundings c) look) (P := P) hparts fun f hf s hs hpart => by
      unfold IsPart at hpart
      split at hpart <;> rename_i hname
      · subst hpart
        rw [DenotatorSketch.build]
        refine hlook _ ?_ f (Denotator.mem_allNodes_of_mem hf) hname
        rw [allUses_eq]
        exact List.mem_flatMap.mpr ⟨_,hs,by simp [uses]⟩
      · obtain ⟨n',hn',rfl⟩ := hpart
        have hfx := Denotator.mem_nodes_of_mem_factors hf
        rw [DenotatorSketch.build]
        refine ih f hf (Denotator.nodes_trans hfx hx) ⟨names,hw,hn'⟩ (fun k hk e he => ?_)
          fun hs' => ?_
        · refine hlook k ?_ e (Denotator.below_trans he hfx)
          rw [allUses_eq]
          exact List.mem_flatMap.mpr ⟨_,hs,by rwa [uses]⟩
        · have hreports := List.flatMap_eq_nil_iff.mp (hclean hs')
          rw [buildAll_eq] at hreports
          exact hreports _ (List.mem_map_of_mem hs)
    rw [buildAll_eq,hes] at hc ⊢
    exact hrestorable.assemble n y es' hdescribes hplaced hcounter hc

theorem Written.build_yields (look : String → Attempt Denotator) {x : Denotator} {n : Node}
    (hx : .denotator x ∈ es) (hn : m.NodeOf x n)
    (hlook : ∀ k ∈ allUses (partsOf n), m.writtenDenotators.contains k →
      ∃ v, look k = .success v ∧ m.Meant P k v) :
    (assemble (m.surroundings c) n (buildAll (m.surroundings c) look (partsOf n))).Yields supposed
      (P · x) := by
  refine h.assemble_yields hg hp hmp c hd hx (Denotator.self_mem_nodes x) hn ?_
  intro k hk f hf hname
  obtain ⟨held,hheld,hsame⟩ :=
    h.hasDenotator hx (by rw [Denotator.nodes_eq]; exact List.mem_cons_of_mem _ hf) k hname
  obtain ⟨v,hv,hmeant⟩ := hlook k hk (Table.contains_of_get? hheld)
  exact ⟨v,hv,hP v held f (hmeant held hheld) (h.alike_of_held hg hp hmp c hsame)⟩

theorem Written.resolved_values (hc : supposed → (m.resolved c).reports = []) :
    (m.resolved c).reports = [] ∧ ∀ k, m.writtenDenotators.contains k →
      ∃ v, (m.resolved c).table.get? k = some (.value v) ∧ m.Meant P k v := by
  have hgathered := h.compiled.gathered hg
  have hkeys (k : String) : k ∈ m.definitions.denotators.keys ↔ m.writtenDenotators.contains k := by
    rw [← Table.contains_iff_mem_keys,hgathered.contains_denotators_iff h.compiled]
  obtain ⟨rank,hrank⟩ := hgathered.layered_denotators h.compiled
  obtain ⟨hclean,hvalues,-⟩ := @Resolution.settleAll_yields _ _ _ (m.Meant P)
    (fun t => DenotatorDefinition.build (m.surroundings c)
      (Resolution.lookup .denotator c.denotators.get? t) m.definitions.denotators) _
    (fun n _ k hk _ => hrank n k hk) .denotator supposed (fun k hk t hready hc => by
    obtain ⟨entry,hdef⟩ := Table.exists_of_contains ((Table.contains_iff_mem_keys _ k).mpr hk)
    obtain ⟨x,n,hx,hn,rfl⟩ := hgathered.get?_denotators h.compiled hdef
    have hmem := ((h.compiled.writtenDenotators_iff k x).mp hx).1
    have hbuild := h.build_yields hg hp hmp c hP hd
      (Resolution.lookup .denotator c.denotators.get? t) hmem hn fun j hj hwritten => by
      obtain ⟨v,hv,hmeant⟩ := hready.uses j (by simpa [DenotatorDefinition.uses,hdef] using hj)
        ((hkeys j).mpr hwritten)
      exact ⟨v,Resolution.lookup_of_value hv,hmeant⟩
    simp only [DenotatorDefinition.build,hdef] at hc ⊢
    obtain ⟨e,he,hcounter⟩ := hbuild hc
    refine ⟨e,he,fun held hheld => ?_⟩
    rw [hx] at hheld
    cases hheld
    exact hcounter) hc
  exact ⟨hclean,fun k hk => hvalues k ((hkeys k).mpr hk)⟩

theorem Written.attempts_eq (hc : supposed → (m.resolved c).reports = [])
    (ha : supposed → (m.attempts c).flatMap Attempt.reports = []) :
    ∃ vs, m.attempts c = vs.map .success ∧
      List.Forall₂ P vs (es.filterMap Entry.denotator?) := by
  have hgathered := h.compiled.gathered hg
  obtain ⟨-,hvalues⟩ := h.resolved_values hg hp hmp c hP hd hc
  rw [attempts,buildAll_eq] at ha ⊢
  refine Attempt.successes_of_forall₂ hgathered.sketches fun x hx s hs hsk => ?_
  have hmem := Entry.mem_filterMap_denotator?.mp hx
  obtain ⟨n,hn,rfl⟩ := hsk
  cases hname : x.name with
  | some k =>
    have hwritten := (h.compiled.writtenDenotators_iff k x).mpr ⟨hmem,hname⟩
    obtain ⟨v,hv,hmeant⟩ := hvalues k (Table.contains_of_get? hwritten)
    exact ⟨v,Resolution.lookup_of_value hv,hmeant x hwritten⟩
  | none =>
    rw [hname] at hs
    refine h.build_yields hg hp hmp c hP hd _ hmem hn (fun k _ hk => ?_) fun hs' => ?_
    · obtain ⟨v,hv,hmeant⟩ := hvalues k hk
      exact ⟨v,Resolution.lookup_of_value hv,hmeant⟩
    · exact List.flatMap_eq_nil_iff.mp (ha hs') _ (List.mem_map_of_mem hs)

theorem Written.reading_counterparts (hname : ∀ v d, P v d → v.name = d.name) (r : Repository)
    (hc : supposed → (m.reading c r).reports = []) :
    (m.reading c r).reports = [] ∧
    (∀ d, .denotator d ∈ asked → ∀ n ∈ d.nodes, ∀ name, n.name = some name →
      ∃ v, (name,v) ∈ (m.reading c r).symbols.denotators ∧ P v n) ∧
    List.Forall₂ P ((m.reading c r).denotators.filter (·.name.isNone))
      (asked.filterMap Entry.anonymous?) := by
  have hnamed (hs : supposed) := (List.append_eq_nil_iff.mp (hc hs)).1
  have htop (hs : supposed) := (List.append_eq_nil_iff.mp (hc hs)).2
  obtain ⟨hclean,hvalues⟩ := h.resolved_values hg hp hmp c hP hd hnamed
  obtain ⟨vs,hattempts,hcounter⟩ := h.attempts_eq hg hp hmp c hP hd hnamed htop
  refine ⟨?_,fun d hmem n hn name hnn => ?_,?_⟩
  · rw [reading,hclean,hattempts,Attempt.reports_map_success]
    rfl
  · have hdue := Entry.named_mem_expand (g := g) hn (Option.isSome_iff_exists.mpr ⟨name,hnn⟩)
    obtain ⟨held,hheld,hsame⟩ := h.has _ hmem _ hdue name hnn
    obtain ⟨v,hv,hmeant⟩ := hvalues name (Table.contains_of_get? hheld)
    exact ⟨v,Resolution.mem_values hv,
      hP v held n (hmeant held hheld) (h.alike_of_held hg hp hmp c hsame)⟩
  · have hvs : (m.reading c r).denotators = vs :=
      (congrArg (List.filterMap Attempt.value?) hattempts).trans (Attempt.values_map_success vs)
    rw [hvs,← h.anonymous,← Entry.filter_denotator?]
    refine List.rel_filter (fun v d hv => ?_) hcounter
    simp only [hname v d hv]

end Restorable

end Written

end Manuscript
end AddressedForms
