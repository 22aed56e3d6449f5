import AddressedForms.Proofs.Document.DocumentOrder
import AddressedForms.Proofs.Document.Settling
import AddressedForms.Proofs.Document.Sources
set_option autoImplicit false

/-!
Failures are told of. Where all names are defined nothing fails without a report but what depends on
something that has failed before; and circles are reported where they close and nowhere else.
-/

namespace AddressedForms

namespace Attempt
variable {α : Type} {supposed : Prop}

/-- A failure is reported, at least where something is supposed; a circle is not. -/
structure Honest (supposed : Prop) (a : Attempt α) : Prop where
  told : supposed → a.value? = none → a.reports ≠ []
  acyclic : ∀ s name, .cyclic s name ∉ a.reports

theorem honest_success (x : α) : (success x).Honest supposed := ⟨nofun,nofun⟩

theorem honest_failure {e : ReadError} (h : ∀ s name, e ≠ .cyclic s name) :
    (failure e : Attempt α).Honest supposed :=
  ⟨fun _ _ => List.cons_ne_nil _ _,fun s name hm => h s name (List.mem_singleton.mp hm).symm⟩

theorem honest_ofOption {x : Option α} (h : supposed → x.isSome) :
    (ofOption x).Honest supposed := by
  cases x with
  | none => exact ⟨fun hs => absurd (h hs) nofun,nofun⟩
  | some x => exact honest_success x

theorem congruence_honest (supposed : Prop) :
    Congruence fun _ a _ => a.Honest supposed where
  success := honest_success
  malformed _ _ := honest_failure nofun
  unknown _ _ := honest_failure nofun
  bind := by
    rintro α β ⟨v,es⟩ - f - h hf
    cases v with
    | none => exact ⟨fun hs _ => h.told hs rfl,h.acyclic⟩
    | some x =>
      have hx := hf x rfl
      refine ⟨fun hs hv hr => hx.told hs hv (List.append_eq_nil_iff.mp hr).2,fun s name hm => ?_⟩
      exact (List.mem_append.mp hm).elim (h.acyclic s name) (hx.acyclic s name)
  cons := by
    rintro α ⟨v,es⟩ - ⟨vs,fs⟩ - h hs
    refine ⟨fun hsup hv hr => ?_,fun s name hm => ?_⟩
    · obtain ⟨he,hf⟩ := List.append_eq_nil_iff.mp hr
      cases v with
      | none => exact h.told hsup rfl he
      | some x =>
        cases vs with
        | none => exact hs.told hsup rfl hf
        | some xs => cases hv
    · exact (List.mem_append.mp hm).elim (h.acyclic s name) (hs.acyclic s name)

theorem Honest.bind {β : Type} {a : Attempt α} {f : α → Attempt β} (h : a.Honest supposed)
    (hf : ∀ x, a.value? = some x → (f x).Honest supposed) : (a >>= f).Honest supposed :=
  (congruence_honest supposed).bind (b := a) (g := f) h hf

theorem honest_require (n : Node) (key : String) : (n.require key).Honest supposed :=
  (congruence_honest supposed).require n key

end Attempt

theorem FormSketch.honest_header (n : Node) : (header n).Honest True := by
  refine (Attempt.honest_require n "name").bind fun name _ =>
    (Attempt.honest_require n "type").bind fun tag _ => ?_
  split
  · exact Attempt.honest_success (name,_)
  · exact Attempt.honest_failure nofun

theorem FormSketch.honest_labelNames (n : Node) : (labelNames n).Honest True := by
  unfold labelNames
  split
  · exact Attempt.honest_success _
  · split
    · exact Attempt.honest_success _
    · exact Attempt.honest_failure nofun

theorem Definitions.honest_leafOf (tag : String) (n : Node) : (leafOf tag n).Honest True := by
  refine (Attempt.honest_require n "name").bind fun name _ => ?_
  split
  · exact Attempt.honest_success (name,_)
  · exact Attempt.honest_failure nofun

namespace Resolution
variable {α : Type} {names : List String} {next : String → List String}
  {build : Table (Resolution α) → String → Attempt α} {supposed : Prop}

theorem honest_lookup {s : Symbol} {outside : String → Option α} {t : Table (Resolution α)}
    {k : String} (hp : t.get? k ≠ some .pending) (hf : supposed → t.get? k ≠ some .failed)
    (ho : supposed → t.get? k = none → (outside k).isSome) :
    (lookup s outside t k).Honest supposed := by
  unfold lookup
  generalize t.get? k = x at hp hf ho
  cases x with
  | none => exact Attempt.honest_ofOption fun hs => ho hs rfl
  | some x =>
    cases x with
    | pending => exact absurd rfl hp
    | failed => exact ⟨fun hs => absurd rfl (hf hs),nofun⟩
    | value x => exact Attempt.honest_success x

/-- A resolution that reports its circles, and has values for all names if it reports nothing. -/
structure Honest (s : Symbol) (names : List String) (next : String → List String) (supposed : Prop)
    (p : Progress α) : Prop where
  settled : ∀ k, p.table.get? k ≠ some .pending
  reports : ∃ es, p.reports = (circular names next).map (.cyclic s) ++ es ∧
    ∀ s k, .cyclic s k ∉ es
  told : supposed → p.reports = [] → ∀ n ∈ names, ∃ v, p.table.get? n = some (.value v)
  keys : ∀ n, p.table.get? n = none ↔ n ∉ names

theorem honest_settleAll (s : Symbol) (hb : ∀ t n, Prepared names next t n →
      (build t n).Honest (supposed ∧ ∀ k, t.get? k ≠ some .failed)) :
    Honest s names next supposed (settleAll s names next build) where
  settled := get?_settleAll_ne_pending s
  reports := reports_settleAll s fun t n hp => (hb t n hp).acyclic
  told hs hc _ hn :=
    exists_value_settleAll s (fun t n hp hf => (hb t n hp).told ⟨hs,hf⟩) hc hn
  keys := (through_settleAll s).keys

theorem Honest.lookup {s : Symbol} {p : Progress α} (h : Honest s names next supposed p)
    {supposed' : Prop} {outside : String → Option α} {k : String}
    (hs : supposed' → supposed ∧ p.reports = [] ∧ (k ∈ names ∨ (outside k).isSome)) :
    (lookup s outside p.table k).Honest supposed' := by
  refine honest_lookup (h.settled k) (fun hsup hf => ?_) fun hsup hnone => ?_
  · have hmem : k ∈ names := by
      by_contra hk
      rw [(h.keys k).mpr hk] at hf
      cases hf
    obtain ⟨v,hv⟩ := h.told (hs hsup).1 (hs hsup).2.1 k hmem
    rw [hv] at hf
    cases hf
  · exact (hs hsup).2.2.resolve_left ((h.keys k).mp hnone)

end Resolution

def NameSpace.Answers (n : NameSpace) (root : Node) : Prop := ∀ r ∈ root.references, n.has r.1 r.2

namespace Leaves
variable {α : Type} {s : Symbol} {tag : String} {defs : Table Node} {root : Node}
  {supposed : Prop} {read : Table (Resolution α) → Node → Attempt α}

theorem honest_resolve (hd : ∀ name n, defs.get? name = some n → root.Inside n ∧ n.tag = tag)
    (hs : Symbol.ofTag? tag = some s)
    (hn : supposed → ∀ k, (s,k) ∈ root.references → defs.contains k)
    (hr : ∀ t n, root.Inside n → ∀ supposed' : Prop, (supposed' → supposed) →
      (∀ k ∈ Node.allReferencesTagged tag n.children,
        (Resolution.lookup s nowhere t k).Honest supposed') → (read t n).Honest supposed') :
    Resolution.Honest s defs.keys (uses tag defs) supposed
      (Resolution.settleAll s defs.keys (uses tag defs) fun t =>
        build defs (Resolution.lookup s nowhere t) (read t)) := by
  refine Resolution.honest_settleAll s fun t name hp => ?_
  obtain ⟨n,hname⟩ := Table.exists_of_contains ((Table.contains_iff_mem_keys _ _).mpr hp.mem)
  obtain ⟨hin,ht⟩ := hd name n hname
  have hlook (k : String) (hk : k ∈ uses tag defs name) : (Resolution.lookup s nowhere t k).Honest
      (supposed ∧ ∀ k, t.get? k ≠ some .failed) := by
    refine Resolution.honest_lookup (hp.settled k hk) (fun h => h.2 k) fun h hnone => ?_
    simp only [uses,hname] at hk
    have href := hin.references (Node.mem_references_of_tagged hs n hk)
    have hmem := (Table.contains_iff_mem_keys _ _).mp (hn h.1 k href)
    exact absurd hmem ((hp.keys k).mp hnone)
  exact Attempt.Congruence.leaf (R := fun _ a _ => a.Honest _) (Resolution.lookup s nowhere t)
    (read t) hname ht hlook fun _ hbelow => hr t n hin _ And.left hbelow

end Leaves

namespace Definitions
variable {root : Node} {d : Definitions} (hd : d.Drawn root) (v : Vocabulary) (c : Catalogue)

structure HonestLeaves (d : Definitions) (v : Vocabulary) (supposed : Prop) : Prop where
  modules : Resolution.Honest .module d.modules.keys (Leaves.uses "Module" d.modules) supposed
    (Leaves.resolveModules v d.modules)
  elements : Resolution.Honest .element d.elements.keys (Leaves.uses "ModuleElement" d.elements)
    supposed (Leaves.resolveElements v d.elements (Leaves.resolveModules v d.modules).table)
  morphisms : Resolution.Honest .morphism d.morphisms.keys
    (Leaves.uses "ModuleMorphism" d.morphisms)
    (supposed ∧ (Leaves.resolveModules v d.modules).reports = [] ∧
      (Leaves.resolveElements v d.elements (Leaves.resolveModules v d.modules).table).reports = [])
    (Leaves.resolveMorphisms v d.morphisms (Leaves.resolveModules v d.modules).table
      (Leaves.resolveElements v d.elements (Leaves.resolveModules v d.modules).table).table)

theorem agree_of_inside {R : (α : Type) → Attempt α → Attempt α → Prop} {l l' : LeafMeanings}
    {n : Node} (hn : root.Inside n)
    (hm : ∀ k, (.module,k) ∈ root.references → R Module (l.module k) (l'.module k))
    (he : ∀ k, (.element,k) ∈ root.references → R Element (l.element k) (l'.element k))
    (hf : ∀ k, (.morphism,k) ∈ root.references → R Morphism (l.morphism k) (l'.morphism k)) :
    LeafMeanings.Agree R n.children l l' :=
  ⟨fun k hk => hm k (hn.referencesTagged rfl hk),fun k hk => he k (hn.referencesTagged rfl hk),
    fun k hk => hf k (hn.referencesTagged rfl hk)⟩

include hd in
theorem honestLeaves {supposed : Prop}
    (hs : supposed → NameSpace.Answers ⟨d,d.denotators,c⟩ root) : d.HonestLeaves v supposed := by
  have hmodules : Resolution.Honest .module d.modules.keys (Leaves.uses "Module" d.modules)
      supposed (Leaves.resolveModules v d.modules) :=
    Leaves.honest_resolve (hd.leaves .module) rfl (fun h k hk => hs h _ hk)
      fun t n _ sup _ hl => (Attempt.congruence_honest sup).module_ofNode
        (u := Leaves.meanings ⟨t,.empty,.empty⟩) n hl
  have helements : Resolution.Honest .element d.elements.keys
      (Leaves.uses "ModuleElement" d.elements) supposed
      (Leaves.resolveElements v d.elements (Leaves.resolveModules v d.modules).table) :=
    Leaves.honest_resolve (hd.leaves .element) rfl (fun h k hk => hs h _ hk)
      fun t n _ sup _ hl => (Attempt.congruence_honest sup).element_ofNode
        (u := Leaves.meanings ⟨.empty,t,.empty⟩) n hl
  refine ⟨hmodules,helements,Leaves.honest_resolve (hd.leaves .morphism) rfl
    (fun h k hk => hs h.1 _ hk) fun t n hin sup hsup hl => ?_⟩
  refine (Attempt.congruence_honest sup).morphism_ofNode
    (u := Leaves.meanings ⟨.empty,.empty,t⟩) n ⟨fun k hk => ?_,fun k hk => ?_,hl⟩
  · have href : (.module,k) ∈ root.references := hin.referencesTagged rfl hk
    exact hmodules.lookup fun h => ⟨(hsup h).1,(hsup h).2.1,
      .inl ((Table.contains_iff_mem_keys _ _).mp (hs (hsup h).1 _ href))⟩
  · have href : (.element,k) ∈ root.references := hin.referencesTagged rfl hk
    exact helements.lookup fun h => ⟨(hsup h).1,(hsup h).2.2,
      .inl ((Table.contains_iff_mem_keys _ _).mp (hs (hsup h).1 _ href))⟩

theorem HonestLeaves.agree {supposed supposed' : Prop} (h : d.HonestLeaves v supposed) {n : Node}
    (hn : root.Inside n) (hs : supposed' → supposed ∧ (Leaves.resolve v d).2 = [] ∧
      NameSpace.Answers ⟨d,d.denotators,c⟩ root) :
    LeafMeanings.Agree (fun _ a _ => a.Honest supposed') n.children
      (Leaves.resolve v d).1.meanings (Leaves.resolve v d).1.meanings := by
  have clean (k : supposed') := by
    have hc := (hs k).2.1
    simp only [Leaves.resolve,List.append_eq_nil_iff] at hc
    exact hc
  have answer (k : supposed') (j : LeafKind) (name : String)
      (hr : (j.symbol,name) ∈ root.references) : name ∈ (d.leaves j).keys := by
    rw [← Table.contains_iff_mem_keys]
    have hhas := (hs k).2.2 _ hr
    cases j <;> exact hhas
  refine agree_of_inside hn (fun k hk => ?_) (fun k hk => ?_) fun k hk => ?_
  · exact h.modules.lookup fun hsup =>
      ⟨(hs hsup).1,(clean hsup).1.1,.inl (answer hsup .module k hk)⟩
  · exact h.elements.lookup fun hsup =>
      ⟨(hs hsup).1,(clean hsup).1.2,.inl (answer hsup .element k hk)⟩
  · exact h.morphisms.lookup fun hsup => ⟨⟨(hs hsup).1,(clean hsup).1.1,(clean hsup).1.2⟩,
      (clean hsup).2,.inl (answer hsup .morphism k hk)⟩

include hd in
theorem honest_planned {supposed : Prop} {f : FormSketch} (hf : f ∈ d.forms.sketches)
    (hs : supposed → NameSpace.Answers ⟨d,d.denotators,c⟩ root ∧ (Leaves.resolve v d).2 = [] ∧
      f.sound ∧ ∀ k ∈ f.parts, (PlannedPart.ofName? d.forms c k).isSome) :
    (FormPlan.ofSketch (d.scope v) c d.forms f).Honest supposed := by
  have hmodule : (FormPlan.moduleOf (d.scope v) f.module).Honest supposed := by
    obtain ⟨top,n,name,kind,hn,rfl⟩ := hd.forms f hf
    rw [FormSketch.ofNode]
    split
    · cases hm : n.child? "Module" with
      | none => exact Attempt.honest_success _
      | some m =>
        obtain ⟨hmem,ht⟩ := Node.child?_eq_some hm
        have hagree := (honestLeaves hd v c fun k => (hs k).1).agree v c hn
          fun k => ⟨k,(hs k).2.1,(hs k).1⟩
        refine Attempt.Honest.bind ?_ fun x _ => Attempt.honest_success _
        exact (Attempt.congruence_honest supposed).module_ofNested
          (u := (Leaves.resolve v d).1.meanings) ht fun k hk =>
          hagree.module k (Node.mem_allReferencesTagged.mpr ⟨m,hmem,hk⟩)
    · exact Attempt.honest_success _
  refine hmodule.bind fun m _ => ?_
  split <;> rename_i hparts
  · exact Attempt.honest_success _
  · refine ⟨fun k => ?_,fun _ _ h => absurd h List.not_mem_nil⟩
    obtain ⟨-,-,hsound,hsome⟩ := hs k
    obtain ⟨ps,hps⟩ := exists_forall₂ fun k hk => Option.isSome_iff_exists.mp (hsome k hk)
    exact absurd (mapM_eq_some_iff.mpr hps) (hparts ps hsound)

/-- Whether the names that a document refers to are there when its denotators are built. -/
structure Supplied (d : Definitions) (v : Vocabulary) (c : Catalogue) (g : FormGraph)
    (root : Node) : Prop where
  answers : NameSpace.Answers ⟨d,d.denotators,c⟩ root
  leaves : (Leaves.resolve v d).2 = []
  forms : ∀ k, (.form,k) ∈ root.references → ((d.surroundings v c g).form? k).isSome

variable (g : FormGraph)

include hd in
theorem mentions {supposed : Prop} (hs : supposed → d.Supplied v c g root) {n : Node}
    (hn : root.Inside n) (ht : n.tag = "Denotator") :
    Attempt.Congruence.Mentions (fun _ a _ => a.Honest supposed) (d.surroundings v c g).form?
      (d.surroundings v c g).form? (Leaves.resolve v d).1.meanings
      (Leaves.resolve v d).1.meanings n where
  leaves := (honestLeaves hd v c fun k => (hs k).answers).agree v c hn
    fun k => ⟨k,(hs k).leaves,(hs k).answers⟩
  form name hname := by
    refine Attempt.honest_ofOption fun k => (hs k).forms name (hn.references ?_)
    rw [Node.references_eq]
    exact List.mem_append_left _ (by simp [Node.ownReferences,hname,ht])

include hd in
theorem Supplied.uses (hs : d.Supplied v c g root) {ss : List DenotatorSketch}
    (hw : DenotatorSketch.Within ss d.sketches) {k : String}
    (hk : k ∈ DenotatorSketch.allUses ss) :
    k ∈ d.denotators.keys ∨ (c.denotators.get? k).isSome := by
  rw [← Table.contains_iff_mem_keys]
  rcases DenotatorSketch.uses_subset hk with hr | hr
  · have hhas := hs.answers (.denotator,k) ((hd.sketches.within hw).references k hr)
    exact (Bool.or_eq_true _ _).mp hhas
  · exact .inl ((Table.contains_ofList _ _).mpr (hw.names hr))

variable {supposed : Prop} (hs : supposed → d.Supplied v c g root)
include hd hs

theorem honest_resolved : Resolution.Honest .denotator d.denotators.keys
    (DenotatorDefinition.uses d.denotators) supposed (d.resolved v c g) := by
  refine Resolution.honest_settleAll .denotator fun t name hp => ?_
  obtain ⟨x,hx⟩ := Table.exists_of_contains ((Table.contains_iff_mem_keys _ _).mpr hp.mem)
  have hw := within_of_get? hx
  let look := Resolution.lookup .denotator c.denotators.get? t
  refine Attempt.Congruence.definition (R := fun _ a _ => a.Honest _)
    (o := (d.surroundings v c g).form?) (u := (Leaves.resolve v d).1.meanings)
    (Attempt.congruence_honest _) look hx
    (fun n hn => ?_) fun k hk => ?_
  · obtain ⟨hin,ht⟩ := (hd.sketches.within hw).nodes n
      (by simpa [DenotatorSketch.allNodes,DenotatorSketch.nodes] using hn)
    exact mentions hd v c g (fun h => hs h.1) hin ht
  · refine Resolution.honest_lookup (hp.settled k hk) (fun h => h.2 k) fun h hnone => ?_
    simp only [DenotatorDefinition.uses,hx] at hk
    have hk : k ∈ DenotatorSketch.allUses [.inline x.node x.parts] :=
      List.mem_append_left _ hk
    exact ((hs h.1).uses hd v c g hw hk).resolve_left ((hp.keys k).mp hnone)

theorem honest_attempt {s : DenotatorSketch} (hm : s ∈ d.sketches) :
    (d.attempt v c g s).Honest (supposed ∧ (d.resolved v c g).reports = []) := by
  have hw := DenotatorSketch.within_of_mem hm
  let look := Resolution.lookup .denotator c.denotators.get? (d.resolved v c g).table
  refine Attempt.Congruence.build (R := fun _ a _ => a.Honest _)
    (o := (d.surroundings v c g).form?) (u := (Leaves.resolve v d).1.meanings)
    (Attempt.congruence_honest _) look s
    (fun n hn => ?_) fun k hk => ?_
  · obtain ⟨hin,ht⟩ := (hd.sketches.within hw).nodes n (List.mem_append_left _ hn)
    exact mentions hd v c g (fun h => hs h.1) hin ht
  · exact (honest_resolved hd v c g hs).lookup fun h =>
      ⟨h.1,h.2,(hs h.1).uses hd v c g hw (List.mem_append_left _ hk)⟩

end Definitions
end AddressedForms
