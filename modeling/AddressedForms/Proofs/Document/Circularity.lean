import AddressedForms.Proofs.Document.Honest
import AddressedForms.Proofs.Document.Meetings
import AddressedForms.Proofs.Document.Reading
import AddressedForms.Proofs.Repository.Registration
set_option autoImplicit false

/-!
The circles that a reading reports: those of the dependencies in each family of definitions, found
before anything is built.
-/

namespace AddressedForms

namespace ReadError

def cyclic? : ReadError → Option (Symbol × String)
  | .cyclic s name => some (s,name)
  | _ => none

theorem cyclic?_eq_some {e : ReadError} {s : Symbol} {name : String} :
    e.cyclic? = some (s,name) ↔ e = .cyclic s name := by
  cases e <;> simp [cyclic?]

end ReadError

def Acyclic (es : List ReadError) : Prop := ∀ s name, .cyclic s name ∉ es

section Acyclic
variable {es fs : List ReadError}

theorem acyclic_nil : Acyclic [] := nofun

theorem acyclic_malformed (tag message : String) : Acyclic [.malformed tag message] := nofun

theorem acyclic_duplicate (s : Symbol) (name : String) : Acyclic [.duplicateName s name] := nofun

theorem Acyclic.append (h : Acyclic es) (k : Acyclic fs) : Acyclic (es ++ fs) := fun s name hm =>
  (List.mem_append.mp hm).elim (h s name) (k s name)

theorem acyclic_flatMap {α : Type} {xs : List α} {f : α → List ReadError}
    (h : ∀ x ∈ xs, Acyclic (f x)) : Acyclic (xs.flatMap f) := by
  intro s name hm
  obtain ⟨x,hx,hm⟩ := List.mem_flatMap.mp hm
  exact h x hx s name hm

theorem acyclic_map {α : Type} {xs : List α} {f : α → ReadError}
    (h : ∀ x s name, f x ≠ .cyclic s name) : Acyclic (xs.map f) := by
  intro s name hm
  obtain ⟨x,-,hx⟩ := List.mem_map.mp hm
  exact h x s name hx

theorem Acyclic.filterMap_eq (h : Acyclic es) : es.filterMap ReadError.cyclic? = [] := by
  rw [List.filterMap_eq_nil_iff]
  rintro e he
  cases e with
  | cyclic s name => exact absurd he (h s name)
  | _ => rfl

end Acyclic

theorem FormSketch.acyclic_faults (n : Node) (name : String) (kind : Kind) :
    Acyclic (faults n name kind) := by
  refine .append ?_ ?_
  · unfold contentFaults
    split
    · exact acyclic_malformed _ _
    · split
      · exact acyclic_malformed _ _
      · exact acyclic_nil
  · have hlabels := (honest_labelNames n).acyclic
    unfold labelFaults
    generalize labelNames n = a at hlabels
    obtain ⟨names,es⟩ := a
    rcases names with - | - | names
    · exact hlabels
    · exact acyclic_nil
    · dsimp only
      split
      · exact acyclic_nil
      · exact acyclic_malformed _ _

theorem FormSketches.acyclic_add {s : FormSketches} (top : Bool) (n : Node)
    (h : Acyclic s.reports) : Acyclic (add top n s).reports := by
  have hpush {s : FormSketches} (h : Acyclic s.reports) (f : FormSketch) :
      Acyclic (s.push f).reports := by
    unfold push
    split
    · exact h.append (acyclic_duplicate _ _)
    · exact h
  induction n using Node.rec (motive_2 := fun ns => ∀ s : FormSketches, Acyclic s.reports →
    Acyclic (addParts ns s).reports) generalizing top s with
  | mk tag attrs children ih =>
    rw [add_eq]
    split
    · exact h
    · have hheader := (FormSketch.honest_header ⟨tag,attrs,children⟩).acyclic
      generalize FormSketch.header ⟨tag,attrs,children⟩ = header at hheader
      obtain ⟨header,es⟩ := header
      cases header with
      | none => exact h.append hheader
      | some header =>
        refine hpush (Acyclic.append ?_ (FormSketch.acyclic_faults _ _ _)) _
        dsimp only
        split
        · exact h
        · exact ih s h
  | nil =>
    rename_i h
    exact h
  | cons n ns ihn ihns =>
    rename_i s h
    rw [addParts]
    split
    · exact ihns _ (ihn false h)
    · exact ihns s h

namespace Definitions

theorem acyclic_addLeaf (s : Symbol) (tag : String) (n : Node) (t : Table Node) :
    Acyclic (addLeaf s tag n t).2 := by
  have hleaf := (honest_leafOf tag n).acyclic
  unfold addLeaf
  generalize leafOf tag n = leaf at hleaf
  obtain ⟨leaf,es⟩ := leaf
  cases leaf with
  | none => exact hleaf
  | some e =>
    dsimp only
    split
    · exact acyclic_duplicate _ _
    · exact acyclic_nil

theorem acyclic_add {d : Definitions} (h : Acyclic d.reports) (n : Node) :
    Acyclic (d.add n).reports := by
  unfold add
  split_ifs
  · exact FormSketches.acyclic_add true n h
  · exact h.append (acyclic_map nofun)
  · exact h.append (acyclic_addLeaf _ _ _ _)
  · exact h.append (acyclic_addLeaf _ _ _ _)
  · exact h.append (acyclic_addLeaf _ _ _ _)
  · exact h.append (acyclic_malformed _ _)

theorem acyclic_ofRoot (root : Node) : Acyclic (ofRoot root).reports := by
  have hfaults : Acyclic (rootFaults root) := by
    unfold rootFaults versionFaults
    split_ifs
    · split
      · split
        · exact acyclic_nil
        · exact acyclic_malformed _ _
      · exact acyclic_nil
    · exact acyclic_malformed _ _
  rw [ofRoot_eq]
  generalize hd : empty.reportAll (rootFaults root) = d
  replace hfaults : Acyclic d.reports := hd ▸ hfaults
  clear hd
  induction sources root generalizing d with
  | nil => exact hfaults
  | cons n ns ih => exact ih _ (acyclic_add hfaults n)

end Definitions

theorem FormExtension.acyclic_ofPlans (g : FormGraph) (ps : List FormPlan) :
    Acyclic (ofPlans g ps).reports := by
  have hfold {step : FormExtension → FormPlan → FormExtension}
      (hs : ∀ (b : FormExtension) p, Acyclic b.reports → Acyclic (step b p).reports)
      (ps : List FormPlan) (b : FormExtension) (hb : Acyclic b.reports) :
      Acyclic (ps.foldl step b).reports := by
    induction ps generalizing b with
    | nil => exact hb
    | cons p ps ih => exact ih _ (hs b p hb)
  have hdeclare : Acyclic (ps.foldl declare ⟨g,.empty,[],[]⟩).reports :=
    hfold (fun (b : FormExtension) p (hb : Acyclic b.reports) =>
      show Acyclic (b.declare p).reports from hb) ps _ acyclic_nil
  refine hfold (fun b p hb => ?_) ps _ hdeclare
  unfold define
  split
  · split
    · exact hb
    · exact hb.append (acyclic_malformed _ _)
  · exact hb

namespace Reading

theorem acyclic_register {g : Reading} (h : Acyclic g.reports) : Acyclic g.register.reports := by
  have hfold {α : Type} {step : Reading → α → Reading}
      (hs : ∀ (g : Reading) x, Acyclic g.reports → Acyclic (step g x).reports) (xs : List α)
      (g : Reading) (hg : Acyclic g.reports) : Acyclic (xs.foldl step g).reports := by
    induction xs generalizing g with
    | nil => exact hg
    | cons x xs ih => exact ih _ (hs g x hg)
  refine hfold (fun g e hg => ?_) _ _ (hfold (fun g e hg => ?_) _ _ h)
  · unfold registerDenotator
    split
    · exact hg
    · exact hg.append (acyclic_duplicate _ _)
    · exact hg.append (acyclic_malformed _ _)
  · unfold registerForm
    split
    · exact hg
    · exact hg.append (acyclic_duplicate _ _)

end Reading

namespace Definitions

/-- The names of a family whose definitions may refer to each other. -/
def resolvable (d : Definitions) : Symbol → List String
  | .form => []
  | .denotator => d.denotators.keys
  | .module => d.modules.keys
  | .element => d.elements.keys
  | .morphism => d.morphisms.keys

/-- What the definition of a name in a family refers to in this family, and the definitions that are
nested in it. -/
def dependencies (d : Definitions) : Symbol → String → List String
  | .form => fun _ => []
  | .denotator => DenotatorDefinition.uses d.denotators
  | .module => Leaves.uses "Module" d.modules
  | .element => Leaves.uses "ModuleElement" d.elements
  | .morphism => Leaves.uses "ModuleMorphism" d.morphisms

/-- The names of a family at which circles close. -/
def circular (d : Definitions) (s : Symbol) : List String :=
  Resolution.circular (d.resolvable s) (d.dependencies s)

theorem nodup_resolvable (d : Definitions) (s : Symbol) : (d.resolvable s).Nodup := by
  cases s with
  | form => exact .nil
  | denotator | module | element | morphism => exact Table.nodup_keys _

theorem mem_resolvable {d : Definitions} {s : Symbol} {name k : String}
    (h : k ∈ d.dependencies s name) : name ∈ d.resolvable s := by
  have leaf {tag : String} {t : Table Node} (h : k ∈ Leaves.uses tag t name) : name ∈ t.keys := by
    unfold Leaves.uses at h
    split at h
    · exact (Table.contains_iff_mem_keys _ _).mp (Table.contains_of_get? ‹_›)
    · cases h
  cases s with
  | form => cases h
  | module | element | morphism => exact leaf h
  | denotator =>
    simp only [dependencies,DenotatorDefinition.uses] at h
    split at h
    · exact (Table.contains_iff_mem_keys _ _).mp (Table.contains_of_get? ‹_›)
    · cases h

end Definitions

def Symbol.resolved : List Symbol := [.module,.element,.morphism,.denotator]

theorem Symbol.flatMap_resolved {α : Type} (f : Symbol → List α) :
    resolved.flatMap f = [.module,.element,.morphism].flatMap f ++ f .denotator := by
  simp [resolved]

theorem Resolution.Honest.cyclic {α : Type} {s : Symbol} {names : List String}
    {next : String → List String} {supposed : Prop} {p : Progress α}
    (h : Honest s names next supposed p) : p.reports.filterMap ReadError.cyclic? =
      (Resolution.circular names next).map fun name => (s,name) := by
  obtain ⟨es,hes,hacyclic⟩ := h.reports
  have hcircles : ((Resolution.circular names next).map (ReadError.cyclic s)).filterMap
      ReadError.cyclic? = (Resolution.circular names next).map fun name => (s,name) := by
    rw [List.filterMap_map]
    exact congrFun List.filterMap_eq_map _
  have hrest : es.filterMap ReadError.cyclic? = [] := Acyclic.filterMap_eq hacyclic
  rw [hes,List.filterMap_append,hcircles,hrest,List.append_nil]

theorem Resolution.notMem_values_of_circular {α : Type} {s : Symbol} {names : List String}
    {next : String → List String} {build : Table (Resolution α) → String → Attempt α}
    {name : String} (h : name ∈ Resolution.circular names next) :
    name ∉ (values (settleAll s names next build).table).map Prod.fst := by
  intro hm
  obtain ⟨⟨k,x⟩,hx,rfl⟩ := List.mem_map.mp hm
  replace hx := get?_of_mem_values hx
  have hthrough : Through names next names (settleAll s names next build).table :=
    through_settleAll s
  have hfailed := hthrough.circular k h
  rw [hx] at hfailed
  cases hfailed

namespace Definitions
variable {root : Node} {d : Definitions} (hd : d.Drawn root) (v : Vocabulary) (c : Catalogue)
  (g : FormGraph)
include hd

theorem cyclic_leaves : (Leaves.resolve v d).2.filterMap ReadError.cyclic? =
    [.module,.element,.morphism].flatMap fun s =>
      (d.circular s).map fun name => (s,name) := by
  have h : d.HonestLeaves v False := honestLeaves hd v .empty False.elim
  rw [Leaves.resolve]
  dsimp only
  rw [List.filterMap_append,List.filterMap_append,h.modules.cyclic,h.elements.cyclic,
    h.morphisms.cyclic]
  simp [circular,resolvable,dependencies]

theorem acyclic_built : Acyclic (d.built v c g).reports := by
  rw [built,BuiltForms.reports_eq,List.flatMap_map]
  refine .append (acyclic_flatMap fun f hf => ?_) (FormExtension.acyclic_ofPlans _ _)
  exact (honest_planned hd v c hf False.elim).acyclic

theorem cyclic_resolved : (d.resolved v c g).reports.filterMap ReadError.cyclic? =
    (d.circular .denotator).map fun name => (.denotator,name) :=
  (honest_resolved hd v c g False.elim).cyclic

theorem acyclic_attempts :
    Acyclic ((d.sketches.map (d.attempt v c g)).flatMap Attempt.reports) := by
  rw [List.flatMap_map]
  exact acyclic_flatMap fun s hs => (honest_attempt hd v c g False.elim hs).acyclic

end Definitions

namespace Reading

theorem cyclic_reports (v : Vocabulary) (c : Catalogue) (root : Node) (r : Repository) :
    (ofNode v c root r).reports.filterMap ReadError.cyclic? =
      Symbol.resolved.flatMap fun s =>
        ((Definitions.ofRoot root).circular s).map fun name => (s,name) := by
  rw [ofNode_eq]
  have hd := Definitions.drawn_ofRoot root
  have hdefs := Definitions.acyclic_ofRoot root
  generalize Definitions.ofRoot root = d at hd hdefs
  have hmissing : Acyclic (NameSpace.unresolved ⟨d,d.denotators,c⟩ (referencesOf root)) :=
    acyclic_map nofun
  have hforms := Definitions.acyclic_built hd v c r.forms
  have htop := Definitions.acyclic_attempts hd v c r.forms
  rw [Symbol.flatMap_resolved]
  rw [List.filterMap_append,List.filterMap_append,List.filterMap_append,List.filterMap_append,
    List.filterMap_append,hdefs.filterMap_eq,hmissing.filterMap_eq,hforms.filterMap_eq,
    htop.filterMap_eq,Definitions.cyclic_leaves hd v,Definitions.cyclic_resolved hd v c r.forms]
  rw [List.nil_append,List.nil_append,List.append_nil,List.append_nil]

end Reading

theorem Symbol.mem_resolved {d : Definitions} {s : Symbol} {name : String}
    (h : name ∈ d.circular s) : s ∈ resolved := by
  cases s with
  | form => cases h
  | _ => simp [resolved]

theorem Definitions.nodup_circular (d : Definitions) (s : Symbol) : (d.circular s).Nodup :=
  (d.nodup_resolvable s).filter _

theorem Reading.notMem_names_of_circular (v : Vocabulary) (c : Catalogue) (root : Node)
    (r : Repository) {s : Symbol} {name : String}
    (h : name ∈ (Definitions.ofRoot root).circular s) :
    name ∉ (ofNode v c root r).symbols.names s := by
  rw [ofNode_eq]
  generalize Definitions.ofRoot root = d at h
  cases s with
  | form => cases h
  | denotator | module | element | morphism => exact Resolution.notMem_values_of_circular h

theorem Reader.cyclic_kept {a : Reader} (hm : a.settings.maxErrors = none) (root : Node)
    (r : Repository) : (a.readNode root r).1.errors.kept.filterMap ReadError.cyclic? =
      Symbol.resolved.flatMap fun s =>
        ((Definitions.ofRoot root).circular s).map fun name => (s,name) := by
  rw [← Reading.cyclic_reports a.vocabulary (.ofRepository r a.settings.catalogFallback) root r,
    (a.readNode_eq root r).1,hm,Outcome.kept_ofReading]
  split <;> rename_i hregister
  · simp only [Bool.and_eq_true,List.isEmpty_iff] at hregister
    have hclean : Acyclic (Reading.ofNode a.vocabulary
      (.ofRepository r a.settings.catalogFallback) root r).reports := hregister.2 ▸ acyclic_nil
    rw [hclean.filterMap_eq,(Reading.acyclic_register hclean).filterMap_eq]
  · rfl

theorem Reader.cyclic_mem_kept_iff {a : Reader} (hm : a.settings.maxErrors = none) (root : Node)
    (r : Repository) {s : Symbol} {name : String} :
    .cyclic s name ∈ (a.readNode root r).1.errors.kept ↔
      name ∈ (Definitions.ofRoot root).circular s := by
  have hkept (es : List ReadError) :
      .cyclic s name ∈ es ↔ (s,name) ∈ es.filterMap ReadError.cyclic? := by
    simp [List.mem_filterMap,ReadError.cyclic?_eq_some]
  rw [hkept,cyclic_kept hm]
  simp only [List.mem_flatMap,List.mem_map,Prod.mk.injEq]
  constructor
  · rintro ⟨s,-,name,h,rfl,rfl⟩
    exact h
  · exact fun h => ⟨s,Symbol.mem_resolved h,name,h,rfl,rfl⟩

/-- Whatever it would come to if a definition that is being built were met, reading comes to the
same. The circles that are reported are those of the dependencies in a document: each family of
definitions has one on each of its cycles, and none elsewhere. -/
theorem Reader.readNode_circles {a : Reader} (hm : a.settings.maxErrors = none) (root : Node)
    (r : Repository) :
    let o := (a.readNode root r).1
    let d := Definitions.ofRoot root
    (∀ m : Meeting, a.readNodeOr m root r = a.readNode root r) ∧
    (o.errors.kept.filterMap ReadError.cyclic? =
      Symbol.resolved.flatMap fun s => (d.circular s).map fun name => (s,name)) ∧
    (o.errors.kept.filterMap ReadError.cyclic?).Nodup ∧
    (∀ s name, .cyclic s name ∈ o.errors.kept →
      (∃ c : Cycle String, name ∈ c ∧ c.Chain (Walk.Edge (d.dependencies s))) ∧
        name ∉ o.symbols.names s) ∧
    ∀ s (c : Cycle String), c ≠ .nil → c.Chain (Walk.Edge (d.dependencies s)) →
      ∃ name ∈ c, .cyclic s name ∈ o.errors.kept := by
  intro o d
  have hkept : o.errors.kept.filterMap ReadError.cyclic? = _ := cyclic_kept hm root r
  have hmem {s : Symbol} {name : String} :
      .cyclic s name ∈ o.errors.kept ↔ name ∈ d.circular s := cyclic_mem_kept_iff hm root r
  refine ⟨fun m => readNodeOr_eq m a root r,hkept,?_,fun s name h => ?_,fun s c hne hc => ?_⟩
  · rw [hkept,List.nodup_flatMap]
    refine ⟨fun s _ => (d.nodup_circular s).map fun _ _ h => (Prod.mk.inj h).2,?_⟩
    have hdistinct : Symbol.resolved.Nodup := by decide
    refine hdistinct.imp fun hst => List.disjoint_left.mpr fun e hs ht => hst ?_
    obtain ⟨_,-,rfl⟩ := List.mem_map.mp hs
    obtain ⟨_,-,he⟩ := List.mem_map.mp ht
    exact (Prod.mk.inj he).1.symm
  · have h := hmem.mp h
    refine ⟨Resolution.exists_cycle_of_mem_circular h,?_⟩
    rw [show o.symbols = _ from (a.readNode_fields root r).2.2]
    exact Reading.notMem_names_of_circular _ _ _ _ h
  · obtain ⟨name,hname,h⟩ := Resolution.exists_mem_circular hne hc fun x hx =>
      have ⟨_,_,hy⟩ := Walk.exists_edge_of_mem_cycle hc hx
      Definitions.mem_resolvable hy
    exact ⟨name,hname,hmem.mpr h⟩

/-- Two modules that stand for each other, a third for one of them, and a list inside itself. -/
def Node.mirrors : Node :=
  let module (name other : String) :=
    ((leaf "DefineModule").withAttr "name" name).withChildren [reference "Module" other]
  let list := ((leaf "Denotator").withAttr "type" "List").withAttr "form" "Pitches"
  (leaf "Document").withChildren
    [module "Left" "Right",module "Right" "Left",module "Guest" "Left",
      (((leaf "Form").withAttr "name" "Pitches").withAttr "type" "List").withChildren
        [reference "Form" "Pitch"],
      (list.withAttr "name" "Echo").withChildren
        [list.withChildren [reference "Denotator" "Echo"]]]

theorem Reader.readNode_mirrors :
    let o := (default.readNode .mirrors .pitches).1
    let d := Definitions.ofRoot .mirrors
    default.settings.maxErrors = none ∧
    o.errors.kept = [.cyclic .module "Left",.cyclic .denotator "Echo"] ∧
    (∀ m : Meeting, default.readNodeOr m .mirrors .pitches = default.readNode .mirrors .pitches) ∧
    (∃ c : Cycle String, "Left" ∈ c ∧ c.Chain (Walk.Edge (d.dependencies .module))) ∧
    "Left" ∉ o.symbols.names .module ∧
    (∃ c : Cycle String, "Echo" ∈ c ∧ c.Chain (Walk.Edge (d.dependencies .denotator))) ∧
    "Echo" ∉ o.symbols.names .denotator := by
  have hkept : (default.readNode .mirrors .pitches).1.errors.kept =
      [.cyclic .module "Left",.cyclic .denotator "Echo"] := by cbv
  obtain ⟨hmeet,-,-,hcircles,-⟩ := readNode_circles (a := default) rfl .mirrors .pitches
  obtain ⟨hleft,hnone⟩ := hcircles .module "Left" (by rw [hkept]; simp)
  obtain ⟨hecho,hnever⟩ := hcircles .denotator "Echo" (by rw [hkept]; simp)
  exact ⟨rfl,hkept,hmeet,hleft,hnone,hecho,hnever⟩

end AddressedForms
