import AddressedForms.Proofs.Document.BuiltDefinitions
import AddressedForms.Proofs.Document.Assembled
import AddressedForms.Proofs.Document.Settling
import AddressedForms.Proofs.Repository.Sorted
set_option autoImplicit false

/-!
What registering leaves behind. Forms and denotators are entered one after another, each where its
name is free; what is refused is reported and leaves everything else entered.
-/

namespace AddressedForms

namespace Catalogue
variable {r : Repository} {consulted : Bool} {name : String}

theorem form?_of_ofRepository {id : FormId}
    (h : (ofRepository r consulted).forms.get? name = some id) : r.form? name = some id := by
  cases consulted with
  | false => cases h
  | true => exact h

theorem denotator?_of_ofRepository {d : Denotator}
    (h : (ofRepository r consulted).denotators.get? name = some d) :
    r.denotator? name = some d := by
  cases consulted with
  | false => cases h
  | true => exact h


end Catalogue

theorem Repository.Reachable.name?_of_form? {r : Repository} (hr : r.Reachable) {name : String}
    {id : FormId} (h : r.form? name = some id) : r.forms.name? id = some name := by
  obtain ⟨f,hf,-,rfl⟩ := (hr.forms.sound.held name id).mp h
  exact FormGraph.name?_of_get? hf

def Symbols.names (s : Symbols) : Symbol → List String
  | .form => s.forms.map Prod.fst
  | .denotator => s.denotators.map Prod.fst
  | .module => s.modules.map Prod.fst
  | .element => s.elements.map Prod.fst
  | .morphism => s.morphisms.map Prod.fst

namespace FormGraph
variable {ids : List FormId} {g h k : FormGraph} {id : FormId} {f : Form}

/-- The same graph with some forms marked as registered. -/
def Marks (ids : List FormId) (g h : FormGraph) : Prop :=
  ∀ id, h.slot? id = g.slot? id ∨ id ∈ ids ∧ ∃ f, g.slot? id = some (.defined f) ∧
    h.slot? id = some (.defined {f with registered := true})

theorem Marks.refl (ids : List FormId) (g : FormGraph) : Marks ids g g := fun _ => .inl rfl

theorem Marks.mono {js : List FormId} (hm : Marks ids g h) (hs : ids ⊆ js) : Marks js g h :=
  fun id => (hm id).imp_right fun ⟨hid,hf⟩ => ⟨hs hid,hf⟩

theorem Marks.enter (hm : Marks ids g h) (hf : h.get? id = some f) :
    Marks (ids ++ [id]) g (h.enter id f) := by
  intro x
  have hslot : (h.enter id f).slot? x =
      if x = id then some (.defined {f with registered := true}) else h.slot? x :=
    slot?_store (contains_of_get? hf) _ x
  rw [hslot]
  split <;> rename_i hx
  · subst hx
    refine .inr ⟨by simp,?_⟩
    have hdefined := get?_eq_some_iff.mp hf
    rcases hm x with he | ⟨-,e,he,hmarked⟩
    · exact ⟨f,he ▸ hdefined,rfl⟩
    · rw [hdefined] at hmarked
      cases hmarked
      exact ⟨e,he,rfl⟩
  · exact (hm x).imp_right fun ⟨hid,hf⟩ => ⟨List.mem_append_left _ hid,hf⟩

theorem Marks.get? (hm : Marks ids g h) (hf : g.get? id = some f) :
    ∃ b, h.get? id = some {f with registered := b} := by
  rw [get?_eq_some_iff] at hf
  rcases hm id with he | ⟨-,e,he,hmarked⟩
  · exact ⟨f.registered,get?_eq_some_iff.mpr (he.trans hf)⟩
  · rw [hf] at he
    cases he
    exact ⟨true,get?_eq_some_iff.mpr hmarked⟩

theorem Marks.name? (hm : Marks ids g h) (id : FormId) : h.name? id = g.name? id := by
  unfold FormGraph.name?
  rcases hm id with he | ⟨-,e,he,hmarked⟩
  · rw [he]
  · rw [he,hmarked]
    rfl

end FormGraph

theorem eq_iff_of_free {α : Type} {before after : String → Option α} {P : String → α → Prop}
    (h : ∀ name x, after name = some x ↔ before name = some x ∨ before name = none ∧ P name x) :
    after = before ↔ ∀ name x, P name x → ∃ held, before name = some held := by
  constructor
  · rintro rfl name x hx
    rw [← Option.ne_none_iff_exists']
    intro hnone
    have hsome := (h name x).mpr (.inr ⟨hnone,hx⟩)
    rw [hnone] at hsome
    cases hsome
  · intro hheld
    funext name
    refine Option.ext fun x => (h name x).trans (or_iff_left ?_)
    rintro ⟨hnone,hx⟩
    obtain ⟨held,hsome⟩ := hheld name x hx
    rw [hnone] at hsome
    cases hsome

/-- One more entry, under a name of its own: it is entered if the name is free and `P` holds of it. -/
theorem held_append_single {α : Type} {P : α → Prop} {before now after : String → Option α}
    {es : List (String × α)} {name : String} {x : α} (hn : name ∉ es.map Prod.fst)
    (hnow : ∀ k y, now k = some y ↔ before k = some y ∨ before k = none ∧ (k,y) ∈ es ∧ P y)
    (hentered : now name = none → P x → ∀ k, after k = if k = name then some x else now k)
    (hkept : ¬ (now name = none ∧ P x) → after = now) (k : String) (y : α) :
    after k = some y ↔
      before k = some y ∨ before k = none ∧ (k,y) ∈ es ++ [(name,x)] ∧ P y := by
  have hmem (z : α) : (name,z) ∉ es := fun hz => hn (List.mem_map_of_mem hz)
  have hsame : now name = before name := Option.ext fun z => by simp [hnow,hmem]
  by_cases h : now name = none ∧ P x
  · rw [hentered h.1 h.2]
    by_cases hk : k = name
    · subst hk
      rw [if_pos rfl,← hsame,h.1]
      constructor
      · rintro ⟨⟩
        exact .inr ⟨rfl,by simp,h.2⟩
      · rintro (hy | ⟨-,hy,-⟩)
        · cases hy
        · rcases List.mem_append.mp hy with hy | hy
          · exact absurd hy (hmem y)
          · cases List.mem_singleton.mp hy
            rfl
    · simp [hk,hnow]
  · rw [hkept h,hnow]
    refine or_congr_right (and_congr_right fun hb => and_congr_left fun hy => ?_)
    rw [List.mem_append,List.mem_singleton]
    refine (or_iff_left ?_).symm
    rintro ⟨⟩
    exact h ⟨hsame.trans hb,hy⟩

namespace Reading
variable {g h : Reading} {name : String} {id : FormId} {d : Denotator}

structure Registered (g h : Reading) : Prop where
  forms : h.forms = g.forms
  denotators : h.denotators = g.denotators
  symbols : h.symbols = g.symbols
  reports : g.reports <+: h.reports

theorem Registered.refl (g : Reading) : Registered g g := ⟨rfl,rfl,rfl,List.prefix_rfl⟩

theorem Registered.trans {k : Reading} (hg : Registered g h) (hh : Registered h k) :
    Registered g k :=
  ⟨hh.forms.trans hg.forms,hh.denotators.trans hg.denotators,hh.symbols.trans hg.symbols,
    hg.reports.trans hh.reports⟩

theorem registered_registerForm (g : Reading) (name : String) (id : FormId) :
    Registered g (g.registerForm name id) := by
  unfold registerForm
  split
  · exact ⟨rfl,rfl,rfl,List.prefix_rfl⟩
  · exact ⟨rfl,rfl,rfl,List.prefix_append _ _⟩

theorem registered_registerDenotator (g : Reading) (name : String) (d : Denotator) :
    Registered g (g.registerDenotator name d) := by
  unfold registerDenotator
  split
  · exact ⟨rfl,rfl,rfl,List.prefix_rfl⟩
  · exact ⟨rfl,rfl,rfl,List.prefix_append _ _⟩
  · exact ⟨rfl,rfl,rfl,List.prefix_append _ _⟩

theorem registered_register (g : Reading) : Registered g g.register := by
  have hfold {α : Type} {step : Reading → α → Reading}
      (hs : ∀ g x, Registered g (step g x)) (xs : List α) (g : Reading) :
      Registered g (xs.foldl step g) := by
    induction xs generalizing g with
    | nil => exact .refl g
    | cons x xs ih => exact (hs g x).trans (ih _)
  exact (hfold (fun g (e : String × FormId) => registered_registerForm g e.1 e.2) g.forms g).trans
    (hfold (fun g (e : String × Denotator) => registered_registerDenotator g e.1 e.2) _ _)

theorem repository_registerForm {f : Form} (hf : g.repository.forms.get? id = some f) :
    (g.registerForm name id).repository = if g.repository.form? f.name = none then
      {g.repository with forms := g.repository.forms.enter id f} else g.repository := by
  unfold registerForm
  cases hr : g.repository.registerForm id with
  | ok r =>
    obtain ⟨held,r⟩ := r
    obtain ⟨⟨held',k⟩,hk,hr⟩ := Except.bind_eq_ok_iff.mp hr
    cases hr
    obtain ⟨e,he,hcases⟩ := FormGraph.register_eq_ok_iff.mp hk
    rw [hf] at he
    cases he
    rcases hcases with ⟨hheld,-,rfl⟩ | ⟨hfree,-,rfl⟩
    · simp [Repository.form?,hheld]
    · simp [Repository.form?,hfree]
  | error e =>
    have hheld : g.repository.form? f.name ≠ none := by
      intro hfree
      have hk := FormGraph.register_eq_ok_iff.mpr ⟨f,hf,.inr ⟨hfree,rfl,rfl⟩⟩
      rw [Repository.registerForm,hk] at hr
      cases hr
    rw [if_neg hheld]

theorem repository_registerDenotator (hd : d.name = some name) :
    (g.registerDenotator name d).repository =
      if g.repository.denotator? name = none ∧ d.validate g.repository.forms = .ok () then
        {g.repository with denotators := g.repository.denotators.insert name d}
      else g.repository := by
  unfold registerDenotator
  cases hr : g.repository.registerDenotator d with
  | ok r =>
    obtain ⟨k,hk,hv,hcases⟩ := Repository.registerDenotator_eq_ok_iff.mp hr
    rw [hd] at hk
    cases hk
    rcases hcases with ⟨held,hheld,-,rfl⟩ | ⟨hfree,rfl⟩
    · simp [hheld]
    · simp [hfree,hv]
  | error e =>
    have hrefused : ¬ (g.repository.denotator? name = none ∧
        d.validate g.repository.forms = .ok ()) := by
      intro hfree
      have hk := Repository.registerDenotator_eq_ok_iff.mpr ⟨name,hd,hfree.2,.inr ⟨hfree.1,rfl⟩⟩
      rw [hr] at hk
      cases hk
    rw [if_neg hrefused]
    cases e <;> rfl

/-- What some forms have entered: those whose names were free. -/
structure FormsEntered (es : List (String × FormId)) (g h : Reading) : Prop where
  marks : FormGraph.Marks (es.map Prod.snd) g.repository.forms h.repository.forms
  held : ∀ name id, h.repository.form? name = some id ↔
    g.repository.form? name = some id ∨ g.repository.form? name = none ∧ (name,id) ∈ es
  denotators : h.repository.denotators = g.repository.denotators

theorem FormsEntered.step {es : List (String × FormId)} {f : Form} (hg : FormsEntered es g h)
    (hn : name ∉ es.map Prod.fst) (hf : g.repository.forms.get? id = some f)
    (hname : f.name = name) : FormsEntered (es ++ [(name,id)]) g (h.registerForm name id) := by
  subst hname
  obtain ⟨b,hb⟩ := hg.marks.get? hf
  have hrepository : (h.registerForm f.name id).repository = _ := repository_registerForm hb
  refine ⟨?_,fun k j => ?_,?_⟩
  · rw [hrepository,List.map_append]
    split
    · exact hg.marks.enter hb
    · exact hg.marks.mono (List.subset_append_left _ _)
  · have hnow : ∀ k j, h.repository.form? k = some j ↔ g.repository.form? k = some j ∨
        g.repository.form? k = none ∧ (k,j) ∈ es ∧ True := by simpa using hg.held
    have hentered (hfree : h.repository.form? f.name = none) (_ : True) (k : String) :
        (h.registerForm f.name id).repository.form? k =
          if k = f.name then some id else h.repository.form? k := by
      rw [hrepository,if_pos hfree]
      exact FormGraph.lookup?_enter _ _ _ _
    have hkept (hnot : ¬ (h.repository.form? f.name = none ∧ True)) :
        (h.registerForm f.name id).repository.form? = h.repository.form? := by
      rw [hrepository,if_neg fun hfree => hnot ⟨hfree,trivial⟩]
    simpa only [and_true] using held_append_single hn hnow hentered hkept k j
  · rw [hrepository]
    split <;> exact hg.denotators

structure DenotatorsEntered (es : List (String × Denotator)) (g h : Reading) : Prop where
  forms : h.repository.forms = g.repository.forms
  held : ∀ name d, h.repository.denotator? name = some d ↔
    g.repository.denotator? name = some d ∨ g.repository.denotator? name = none ∧
      (name,d) ∈ es ∧ d.validate g.repository.forms = .ok ()

theorem DenotatorsEntered.step {es : List (String × Denotator)} (hg : DenotatorsEntered es g h)
    (hn : name ∉ es.map Prod.fst) (hd : d.name = some name) :
    DenotatorsEntered (es ++ [(name,d)]) g (h.registerDenotator name d) := by
  have hrepository := repository_registerDenotator (g := h) hd
  rw [hg.forms] at hrepository
  refine ⟨?_,held_append_single hn hg.held (fun hfree hv k => ?_) fun hnot => ?_⟩
  · rw [hrepository]
    split <;> exact hg.forms
  · rw [hrepository,if_pos ⟨hfree,hv⟩]
    exact Table.get?_insert _ _ _ _
  · rw [hrepository,if_neg hnot]

/-- What a reading can register: forms and denotators under their own names, each name once. -/
structure Registrable (g : Reading) : Prop where
  forms : (g.forms.map Prod.fst).Nodup
  formNames : ∀ e ∈ g.forms, ∃ f, g.repository.forms.get? e.2 = some f ∧ f.name = e.1
  denotators : (g.symbols.denotators.map Prod.fst).Nodup
  denotatorNames : ∀ e ∈ g.symbols.denotators, e.2.name = some e.1

theorem formsEntered_foldl {es : List (String × FormId)} (hn : (es.map Prod.fst).Nodup)
    (hf : ∀ e ∈ es, ∃ f, g.repository.forms.get? e.2 = some f ∧ f.name = e.1) :
    FormsEntered es g (es.foldl (fun h e => h.registerForm e.1 e.2) g) := by
  induction es using List.reverseRecOn with
  | nil => exact ⟨.refl _ _,by simp,rfl⟩
  | append_singleton es e ih =>
    rw [List.map_append,List.nodup_append] at hn
    rw [List.foldl_append]
    obtain ⟨f,hget,hname⟩ := hf e (by simp)
    exact (ih hn.1 fun e he => hf e (by simp [he])).step
      (fun he => hn.2.2 _ he e.1 (by simp) rfl) hget hname

theorem denotatorsEntered_foldl {es : List (String × Denotator)} (hn : (es.map Prod.fst).Nodup)
    (hd : ∀ e ∈ es, e.2.name = some e.1) :
    DenotatorsEntered es g (es.foldl (fun h e => h.registerDenotator e.1 e.2) g) := by
  induction es using List.reverseRecOn with
  | nil => exact ⟨rfl,by simp⟩
  | append_singleton es e ih =>
    rw [List.map_append,List.nodup_append] at hn
    rw [List.foldl_append]
    exact (ih hn.1 fun e he => hd e (by simp [he])).step
      (fun he => hn.2.2 _ he e.1 (by simp) rfl) (hd e (by simp))

/-- What registering enters, and what it leaves as it was. -/
structure Entered (g h : Reading) : Prop where
  marks : FormGraph.Marks (g.forms.map Prod.snd) g.repository.forms h.repository.forms
  forms : ∀ name id, h.repository.form? name = some id ↔
    g.repository.form? name = some id ∨ g.repository.form? name = none ∧ (name,id) ∈ g.forms
  denotators : ∀ name d, h.repository.denotator? name = some d ↔
    g.repository.denotator? name = some d ∨ g.repository.denotator? name = none ∧
      (name,d) ∈ g.symbols.denotators ∧ d.validate h.repository.forms = .ok ()

theorem Registrable.entered (hg : g.Registrable) : Entered g g.register := by
  have hforms := formsEntered_foldl hg.forms hg.formNames
  have hdenotators (h : Reading) := denotatorsEntered_foldl (g := h) hg.denotators hg.denotatorNames
  rw [register]
  generalize g.forms.foldl (fun h e => h.registerForm e.1 e.2) g = h at hforms
  obtain ⟨hsame,hheld⟩ := hdenotators h
  refine ⟨hsame ▸ hforms.marks,fun name id => ?_,fun name d => ?_⟩
  · rw [← hforms.held,Repository.form?,hsame]
    rfl
  · rw [hheld,hsame]
    simp only [Repository.denotator?,hforms.denotators]

end Reading

namespace Definitions
variable {root : Node} {d : Definitions} {v : Vocabulary} {c : Catalogue} {g : FormGraph}

theorem exists_told {name : String} {x : Denotator}
    (h : (d.resolved v c g).table.get? name = some (.value x)) :
    ∃ y, d.denotators.get? name = some y ∧
      DenotatorSketch.Told (d.surroundings v c g) y.node x := by
  have hall : ∀ name x, (d.resolved v c g).table.get? name = some (.value x) →
      ∃ y, d.denotators.get? name = some y ∧
        DenotatorSketch.Told (d.surroundings v c g) y.node x := by
    refine Resolution.values_settleAll .denotator fun t name _ _ x hx => ?_
    unfold DenotatorDefinition.build at hx
    split at hx <;> rename_i hdef
    · exact ⟨_,hdef,DenotatorSketch.told_of_assemble hx⟩
    · cases hx
  exact hall name x h

theorem name_of_mem_resolved (hd : d.Drawn root) :
    ∀ e ∈ Resolution.values (d.resolved v c g).table, e.2.name = some e.1 := by
  intro e he
  obtain ⟨y,hy,hx⟩ := exists_told (Resolution.get?_of_mem_values he)
  exact hx.name.trans (hd.sketches.named _ (Table.mem_of_get?_ofList hy))

end Definitions

theorem Reading.registrable_ofNode (v : Vocabulary) {c : Catalogue} (root : Node) {r : Repository}
    (hc : ∀ name id, c.forms.get? name = some id → r.forms.contains id) :
    (ofNode v c root r).Registrable := by
  rw [ofNode_eq]
  have hd := Definitions.drawn_ofRoot root
  have hn := (Definitions.collects_ofRoot root).forms
  generalize Definitions.ofRoot root = d at hd hn
  obtain ⟨hnodup,htop⟩ := Definitions.top_names (v := v) (c := c) (g := r.forms) hn
  refine ⟨hnodup,fun e he => ?_,Resolution.nodup_values _,
    Definitions.name_of_mem_resolved hd⟩
  obtain ⟨p,-,hp,-,f,hf,hb⟩ := Definitions.exists_form hd hn hc (htop e he)
  exact ⟨f,hf,hb.name.trans hp⟩

theorem Reading.form?_ofNode (v : Vocabulary) (c : Catalogue) (root : Node) (r : Repository) :
    (ofNode v c root r).repository.form? = r.form? := by
  rw [ofNode_eq]
  funext name
  exact congrArg (Table.get? · name) (FormExtension.registry_ofPlans _ _)

def Reader.withoutRegistration (a : Reader) : Reader :=
  {a with settings := {a.settings with registerDecoded := false}}

def Reader.Registers (a : Reader) (root : Option Node) (r : Repository) : Prop :=
  a.settings.registerDecoded ∧ (a.withoutRegistration.readNode? root r).1.isSuccess

theorem Reader.readNode_eq (a : Reader) (root : Node) (r : Repository) :
    let g := Reading.ofNode a.vocabulary (.ofRepository r a.settings.catalogFallback) root r
    let h := if a.settings.registerDecoded && g.reports.isEmpty then g.register else g
    (a.readNode root r).1 = .ofReading h a.settings.maxErrors ∧
      (a.readNode root r).2.2 = h.repository := ⟨rfl,rfl⟩

theorem Reader.follows_ofNode (a : Reader) (root : Node) (r : Repository) :
    (Reading.ofNode a.vocabulary (.ofRepository r a.settings.catalogFallback) root
      r).repository.Follows (a.readNode root r).2.2 := by
  rw [(a.readNode_eq root r).2]
  split
  · exact Repository.follows_register _
  · exact .refl _

theorem Reader.registers_iff {a : Reader} {root : Node} {r : Repository} :
    a.Registers (some root) r ↔ a.settings.registerDecoded ∧
      (Reading.ofNode a.vocabulary (.ofRepository r a.settings.catalogFallback) root r).reports =
        [] := by
  refine and_congr_right fun _ => ?_
  exact Manuscript.isSuccess_ofReading_iff _ _

/-- Registering does not change what is told of a reading but for the reports. -/
theorem Reader.readNode_fields (a : Reader) (root : Node) (r : Repository) :
    let g := Reading.ofNode a.vocabulary (.ofRepository r a.settings.catalogFallback) root r
    let o := (a.readNode root r).1
    o.forms = g.forms.map Prod.snd ∧ o.denotators = g.denotators ∧ o.symbols = g.symbols := by
  intro g o
  have hregister := Reading.registered_register g
  rw [show o = _ from (a.readNode_eq root r).1]
  split
  · exact ⟨congrArg (List.map Prod.snd) hregister.forms,hregister.denotators,hregister.symbols⟩
  · exact ⟨rfl,rfl,rfl⟩

theorem Reader.readNode_entered (a : Reader) (root : Node) {r : Repository} (hr : r.Reachable) :
    let g := Reading.ofNode a.vocabulary (.ofRepository r a.settings.catalogFallback) root r
    let s := (a.readNode root r).2.2
    (a.Registers (some root) r → s = g.register.repository ∧ Reading.Entered g g.register) ∧
    (¬ a.Registers (some root) r → s = g.repository) := by
  intro g s
  have hs : s = _ := (a.readNode_eq root r).2
  constructor
  · intro h
    obtain ⟨hset,hclean⟩ := registers_iff.mp h
    have hg : g.Registrable := Reading.registrable_ofNode _ _ (hr.catalogue _).forms
    refine ⟨?_,hg.entered⟩
    rw [hs,if_pos]
    simp [hset,hclean]
  · intro h
    rw [hs,if_neg]
    intro hc
    simp only [Bool.and_eq_true,List.isEmpty_iff] at hc
    exact h (registers_iff.mpr hc)

theorem Reader.mem_forms_iff (a : Reader) (root : Node) {r : Repository} (hr : r.Reachable)
    (hreg : a.Registers (some root) r) (name : String) (id : FormId) :
    let g := Reading.ofNode a.vocabulary (.ofRepository r a.settings.catalogFallback) root r
    let o := (a.readNode root r).1
    let s := (a.readNode root r).2.2
    (name,id) ∈ g.forms ↔ id ∈ o.forms ∧ s.forms.name? id = some name := by
  intro g o s
  obtain ⟨hs,hentered⟩ := (a.readNode_entered root hr).1 hreg
  have hg : g.Registrable := Reading.registrable_ofNode _ _ (hr.catalogue _).forms
  have hname (e : String × FormId) (he : e ∈ g.forms) : s.forms.name? e.2 = some e.1 := by
    obtain ⟨f,hf,hfn⟩ := hg.formNames e he
    rw [show s = _ from hs,hentered.marks.name?,FormGraph.name?_of_get? hf,hfn]
  rw [show o.forms = g.forms.map Prod.snd from (a.readNode_fields root r).1,List.mem_map]
  constructor
  · exact fun he => ⟨⟨_,he,rfl⟩,hname _ he⟩
  · rintro ⟨⟨⟨k,_⟩,he,rfl⟩,hk⟩
    cases (hname _ he).symm.trans hk
    exact he

/-- What is in the catalogue after a document was read, with errors or without. If the document is
clean by itself and is to be registered, all that is under a free name is entered, whether or not
something else is refused and the outcome is a failure. -/
theorem Reader.readNode?_catalogue {r : Repository} (hr : r.Reachable) (a : Reader)
    (root : Option Node) :
    let o := (a.readNode? root r).1
    let s := (a.readNode? root r).2.2
    (∀ name id, s.form? name = some id ↔ r.form? name = some id ∨ r.form? name = none ∧
      a.Registers root r ∧ id ∈ o.forms ∧ s.forms.name? id = some name) ∧
    (∀ name d, s.denotator? name = some d ↔ r.denotator? name = some d ∨
      r.denotator? name = none ∧ a.Registers root r ∧ (name,d) ∈ o.symbols.denotators ∧
        d.validate s.forms = .ok ()) ∧
    (s.form? = r.form? ∧ s.denotator? = r.denotator? ↔ a.Registers root r →
      (∀ id ∈ o.forms, ∃ name held, s.forms.name? id = some name ∧ r.form? name = some held) ∧
      ∀ name d, (name,d) ∈ o.symbols.denotators → d.validate s.forms = .ok () →
        ∃ held, r.denotator? name = some held) := by
  intro o s
  suffices hs : (∀ name id, s.form? name = some id ↔ r.form? name = some id ∨
      r.form? name = none ∧ a.Registers root r ∧ id ∈ o.forms ∧ s.forms.name? id = some name) ∧
    (∀ name d, s.denotator? name = some d ↔ r.denotator? name = some d ∨
      r.denotator? name = none ∧ a.Registers root r ∧ (name,d) ∈ o.symbols.denotators ∧
        d.validate s.forms = .ok ()) ∧
    (a.Registers root r → ∀ id ∈ o.forms, ∃ name, s.forms.name? id = some name) by
    obtain ⟨hforms,hdenotators,hnames⟩ := hs
    refine ⟨hforms,hdenotators,?_⟩
    rw [eq_iff_of_free hforms,eq_iff_of_free hdenotators]
    constructor
    · rintro ⟨hf,hd⟩ hreg
      refine ⟨fun id hid => ?_,fun name d hmem hv => hd name d ⟨hreg,hmem,hv⟩⟩
      obtain ⟨name,hname⟩ := hnames hreg id hid
      obtain ⟨held,hheld⟩ := hf name id ⟨hreg,hid,hname⟩
      exact ⟨name,held,hname,hheld⟩
    · intro h
      refine ⟨fun name id ⟨hreg,hid,hname⟩ => ?_,fun name d ⟨hreg,hmem,hv⟩ =>
        (h hreg).2 name d hmem hv⟩
      obtain ⟨k,held,hk,hheld⟩ := (h hreg).1 id hid
      rw [hname] at hk
      cases hk
      exact ⟨held,hheld⟩
  cases root with
  | none =>
    have hnever : ¬ a.Registers none r := fun h => Bool.noConfusion (show false = true from h.2)
    simp only [hnever,false_and,and_false,or_false,false_imp_iff,and_true]
    exact ⟨fun _ _ => .rfl,fun _ _ => .rfl⟩
  | some root =>
    obtain ⟨hforms,-,hsymbols⟩ := a.readNode_fields root r
    obtain ⟨hyes,hno⟩ := a.readNode_entered root hr
    let g := Reading.ofNode a.vocabulary (.ofRepository r a.settings.catalogFallback) root r
    change o.forms = g.forms.map Prod.snd at hforms
    change o.symbols = g.symbols at hsymbols
    change _ → s = g.register.repository ∧ Reading.Entered g g.register at hyes
    change _ → s = g.repository at hno
    have hform : g.repository.form? = r.form? := Reading.form?_ofNode _ _ _ _
    have hdenotator : g.repository.denotator? = r.denotator? := rfl
    by_cases hreg : a.Registers (some root) r
    · obtain ⟨hs,hentered⟩ := hyes hreg
      have hmem (name : String) (id : FormId) :
          (name,id) ∈ g.forms ↔ id ∈ o.forms ∧ s.forms.name? id = some name :=
        a.mem_forms_iff root hr hreg name id
      simp only [hreg,true_and,forall_true_left,hsymbols,← hmem,← hform,← hdenotator]
      rw [hs]
      refine ⟨hentered.forms,hentered.denotators,fun id hid => ?_⟩
      obtain ⟨⟨name,_⟩,he,rfl⟩ := List.mem_map.mp (hforms ▸ hid)
      exact ⟨name,hs ▸ ((hmem _ _).mp he).2⟩
    · simp only [hreg,false_and,and_false,or_false,false_imp_iff,and_true]
      rw [hno hreg,← hform,← hdenotator]
      exact ⟨fun _ _ => .rfl,fun _ _ => .rfl⟩

def Reader.registering : Reader := .new .builtins {Settings.default with registerDecoded := true}

def Node.beats : Node :=
  let form (name : String) :=
    (((leaf "Form").withAttr "name" name).withAttr "type" "Simple").withChildren
      [(leaf "Module").withAttr "type" "RRing"]
  (leaf "Document").withChildren [form "Beat",form "Pitch"]

/-- Beats are in the catalogue although the document failed. -/
theorem Reader.readNode?_beats :
    let o := (registering.readNode? (some .beats) .pitches).1
    let s := (registering.readNode? (some .beats) .pitches).2.2
    o.isSuccess = false ∧ o.errors.kept = [.duplicateName .form "Pitch"] ∧
    Repository.pitches.form? "Beat" = none ∧ s.form? "Beat" = some ⟨1⟩ ∧
    ¬ (s.form? = Repository.pitches.form? ∧ s.denotator? = Repository.pitches.denotator?) := by
  have hfree : Repository.pitches.form? "Beat" = none := by cbv
  have hbeat : (registering.readNode? (some .beats) .pitches).2.2.form? "Beat" = some ⟨1⟩ := by
    cbv
  obtain ⟨hforms,-,hiff⟩ := readNode?_catalogue (r := .pitches) ⟨_,rfl⟩ registering (some .beats)
  refine ⟨by cbv,by cbv,hfree,hbeat,fun h => ?_⟩
  rcases (hforms "Beat" ⟨1⟩).mp hbeat with hheld | ⟨-,hreg,hmem,hname⟩
  · cases hfree.symm.trans hheld
  · obtain ⟨name,held,hn,hheld⟩ := (hiff.mp h hreg).1 _ hmem
    cases hname.symm.trans hn
    cases hfree.symm.trans hheld

end AddressedForms
