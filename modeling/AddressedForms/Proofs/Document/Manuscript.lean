import AddressedForms.Document.Manuscript
import AddressedForms.Proofs.Denotator.Nodes
import AddressedForms.Proofs.Lists
import AddressedForms.Proofs.Table
set_option autoImplicit false

/-!
What a run of entries makes of a manuscript. Every entry that is accepted is there already or adds a
node; a definition follows all that it refers to by name, forms apart, and once a request is done
the forms that it led to are there too. For each node there is the manuscript that it was added to.
-/

namespace AddressedForms

def Entry.anonymous? : Entry → Option Denotator
  | .denotator d => if d.name.isNone then some d else none
  | _ => none

namespace Manuscript

def HasForm (m : Manuscript) (id : FormId) : Prop :=
  ∃ f held, m.forms.get? id = some f ∧ m.writtenForms.get? f.name = some held ∧
    (held = id ∨ m.forms.equalForms held id)

def HasDenotator (m : Manuscript) (d : Denotator) : Prop :=
  ∀ name, d.name = some name → ∃ held, m.writtenDenotators.get? name = some held ∧
    (held = d ∨ held.equals m.forms d)

def Has (m : Manuscript) : Entry → Prop
  | .form id => m.HasForm id
  | .denotator d => m.HasDenotator d
  | .module name x => (x,name) ∈ m.names.modules
  | .element name x => (x,name) ∈ m.names.elements
  | .morphism name f => (f,name) ∈ m.names.morphisms

def IsReady (m : Manuscript) : Entry → Prop
  | .denotator d => ∀ n ∈ Denotator.allNodes d.factors, m.HasDenotator n
  | _ => True

structure Precedes (m k : Manuscript) : Prop where
  forms : k.forms = m.forms
  writtenForms : ∀ name id, m.writtenForms.get? name = some id → k.writtenForms.get? name = some id
  writtenDenotators : ∀ name d, m.writtenDenotators.get? name = some d →
    k.writtenDenotators.get? name = some d
  modules : m.names.modules ⊆ k.names.modules
  elements : m.names.elements ⊆ k.names.elements
  morphisms : m.names.morphisms ⊆ k.names.morphisms

theorem Precedes.refl (m : Manuscript) : m.Precedes m :=
  ⟨rfl,fun _ _ h => h,fun _ _ h => h,List.Subset.refl _,List.Subset.refl _,List.Subset.refl _⟩

theorem Precedes.trans {m k l : Manuscript} (h : m.Precedes k) (h' : k.Precedes l) :
    m.Precedes l where
  forms := h'.forms.trans h.forms
  writtenForms := fun name id hm => h'.writtenForms name id (h.writtenForms name id hm)
  writtenDenotators := fun name d hm => h'.writtenDenotators name d (h.writtenDenotators name d hm)
  modules := List.Subset.trans h.modules h'.modules
  elements := List.Subset.trans h.elements h'.elements
  morphisms := List.Subset.trans h.morphisms h'.morphisms

theorem HasForm.mono {m k : Manuscript} (hp : m.Precedes k) {id : FormId} (h : m.HasForm id) :
    k.HasForm id := by
  obtain ⟨f,held,hf,hw,he⟩ := h
  rw [← hp.forms] at hf he
  exact ⟨f,held,hf,hp.writtenForms _ _ hw,he⟩

theorem HasDenotator.mono {m k : Manuscript} (hp : m.Precedes k) {d : Denotator}
    (h : m.HasDenotator d) : k.HasDenotator d := by
  intro name hn
  obtain ⟨held,hw,he⟩ := h name hn
  rw [← hp.forms] at he
  exact ⟨held,hp.writtenDenotators _ _ hw,he⟩

theorem Has.mono {m k : Manuscript} (hp : m.Precedes k) {e : Entry} (h : m.Has e) : k.Has e := by
  cases e with
  | form id => exact HasForm.mono hp h
  | denotator d => exact HasDenotator.mono hp h
  | module name x => exact hp.modules h
  | element name x => exact hp.elements h
  | morphism name f => exact hp.morphisms h

/-- How an entry adds its node to a manuscript. -/
inductive Step (m : Manuscript) : Entry → Manuscript → Prop
  | form {id : FormId} {f : Form} {n : Node} (hf : m.forms.get? id = some f)
    (hnew : m.writtenForms.get? f.name = none) (hn : formNode m.forms m.names f = .ok n) :
    Step m (.form id) {m.push n with writtenForms := m.writtenForms.insert f.name id}
  | named {d : Denotator} {name : String} {n : Node} (hname : d.name = some name)
    (hnew : m.writtenDenotators.get? name = none) (hn : nodeOf m.forms m.names d = .ok n)
    (hr : m.IsReady (.denotator d)) :
    Step m (.denotator d) {m.push n with writtenDenotators := m.writtenDenotators.insert name d}
  | anonymous {d : Denotator} {n : Node} (hname : d.name = none)
    (hn : nodeOf m.forms m.names d = .ok n) (hr : m.IsReady (.denotator d)) :
    Step m (.denotator d) (m.push n)
  | module {name : String} {x : Module} (hnew : (Symbol.module,name) ∉ m.defined) :
    Step m (.module name x)
      {m.push (definition "DefineModule" name (x.body m.names)) with
        defined := (.module,name) :: m.defined
        names := {m.names with modules := (x,name) :: m.names.modules}}
  | element {name : String} {x : Element} (hnew : (Symbol.element,name) ∉ m.defined) :
    Step m (.element name x)
      {m.push (definition "DefineModuleElement" name (x.body m.names)) with
        defined := (.element,name) :: m.defined
        names := {m.names with elements := (x,name) :: m.names.elements}}
  | morphism {name : String} {f : Morphism} (hnew : (Symbol.morphism,name) ∉ m.defined) :
    Step m (.morphism name f)
      {m.push (definition "DefineModuleMorphism" name (f.body m.names)) with
        defined := (.morphism,name) :: m.defined
        names := {m.names with morphisms := (f,name) :: m.names.morphisms}}

/-- How entries make a manuscript of the empty one: those that add a node are listed. -/
inductive Compiled (g : FormGraph) : List Entry → Manuscript → Prop
  | empty : Compiled g [] (.empty g)
  | snoc {es : List Entry} {m k : Manuscript} {e : Entry} (h : Compiled g es m) (hs : Step m e k) :
    Compiled g (es ++ [e]) k

theorem get?_insert_of_new {α : Type} {t : Table α} {name k : String} {x v : α}
    (hnew : t.get? name = none) (h : t.get? k = some v) : (t.insert name x).get? k = some v := by
  rw [Table.get?_insert_of_ne _ _ (by rintro rfl; rw [h] at hnew; contradiction)]
  exact h

theorem Step.precedes {m k : Manuscript} {e : Entry} (h : Step m e k) : m.Precedes k := by
  cases h with
  | form hf hnew hn =>
    exact {Precedes.refl m with writtenForms := fun _ _ hm => get?_insert_of_new hnew hm}
  | named hname hnew hn hr =>
    exact {Precedes.refl m with writtenDenotators := fun _ _ hm => get?_insert_of_new hnew hm}
  | anonymous hname hn hr => exact {Precedes.refl m with}
  | module hnew => exact {Precedes.refl m with modules := List.subset_cons_self _ _}
  | element hnew => exact {Precedes.refl m with elements := List.subset_cons_self _ _}
  | morphism hnew => exact {Precedes.refl m with morphisms := List.subset_cons_self _ _}

theorem Step.has {m k : Manuscript} {e : Entry} (h : Step m e k) : k.Has e := by
  cases h with
  | form hf hnew hn => exact ⟨_,_,hf,Table.get?_insert_self _ _ _,.inl rfl⟩
  | named hname hnew hn hr =>
    intro name hn
    cases hname.symm.trans hn
    exact ⟨_,Table.get?_insert_self _ _ _,.inl rfl⟩
  | anonymous hname hn hr =>
    intro name hn
    cases hname.symm.trans hn
  | module hnew | element hnew | morphism hnew => exact List.mem_cons_self

theorem Compiled.forms_eq {g : FormGraph} {es : List Entry} {m : Manuscript}
    (h : Compiled g es m) : m.forms = g := by
  induction h with
  | empty => rfl
  | snoc _ hs ih => exact hs.precedes.forms.trans ih

/-- An entry that is accepted changes nothing, or adds its node. -/
structure Entered (m : Manuscript) (e : Entry) (k : Manuscript) : Prop where
  step : (k = m ∧ e.anonymous? = none) ∨ Step m e k
  has : k.Has e

theorem Entered.precedes {m k : Manuscript} {e : Entry} (h : Entered m e k) : m.Precedes k := by
  rcases h.step with ⟨rfl,-⟩ | hs
  · exact .refl _
  · exact hs.precedes

theorem Step.entered {m k : Manuscript} {e : Entry} (h : Step m e k) : Entered m e k :=
  ⟨.inr h,h.has⟩

section Steps
variable {m k : Manuscript}

theorem enterForm_entered {id : FormId} (he : m.enterForm id = .ok k) :
    Entered m (.form id) k := by
  unfold enterForm at he
  cases hf : m.forms.get? id with
  | none => simp [hf] at he
  | some f =>
    simp only [hf] at he
    cases hw : m.writtenForms.get? f.name with
    | some held =>
      simp only [hw] at he
      split at he <;> rename_i hsame
      · cases he
        exact ⟨.inl ⟨rfl,rfl⟩,f,held,hf,hw,hsame⟩
      · contradiction
    | none =>
      simp only [hw] at he
      obtain ⟨n,hn,he⟩ := Except.bind_eq_ok_iff.mp he
      cases he
      exact (Step.form hf hw hn).entered

theorem enterDenotator_entered {d : Denotator} (he : m.enterDenotator d = .ok k)
    (hr : m.IsReady (.denotator d)) : Entered m (.denotator d) k := by
  unfold enterDenotator at he
  cases hname : d.name with
  | none =>
    simp only [hname] at he
    obtain ⟨n,hn,he⟩ := Except.bind_eq_ok_iff.mp he
    cases he
    exact (Step.anonymous hname hn hr).entered
  | some name =>
    simp only [hname] at he
    cases hw : m.writtenDenotators.get? name with
    | some held =>
      simp only [hw] at he
      split at he <;> rename_i hsame
      · cases he
        refine ⟨.inl ⟨rfl,by simp [Entry.anonymous?,hname]⟩,fun name' hn => ?_⟩
        cases hname.symm.trans hn
        exact ⟨held,hw,hsame⟩
      · contradiction
    | none =>
      simp only [hw] at he
      obtain ⟨n,hn,he⟩ := Except.bind_eq_ok_iff.mp he
      cases he
      exact (Step.named hname hw hn hr).entered

theorem claimName_eq_ok {s : Symbol} {name : String} (hc : m.claimName s name = .ok k) :
    (s,name) ∉ m.defined ∧ k = {m with defined := (s,name) :: m.defined} := by
  unfold claimName at hc
  split at hc <;> rename_i hn
  · contradiction
  · cases hc
    exact ⟨hn,rfl⟩

theorem enter_entered {e : Entry} (he : m.enter e = .ok k) (hr : m.IsReady e) :
    Entered m e k := by
  cases e with
  | form id => exact enterForm_entered he
  | denotator d => exact enterDenotator_entered he hr
  | module name x =>
    obtain ⟨c,hc,he⟩ := Except.bind_eq_ok_iff.mp he
    obtain ⟨hnew,rfl⟩ := claimName_eq_ok hc
    cases he
    exact (Step.module hnew).entered
  | element name x =>
    obtain ⟨c,hc,he⟩ := Except.bind_eq_ok_iff.mp he
    obtain ⟨hnew,rfl⟩ := claimName_eq_ok hc
    cases he
    exact (Step.element hnew).entered
  | morphism name f =>
    obtain ⟨c,hc,he⟩ := Except.bind_eq_ok_iff.mp he
    obtain ⟨hnew,rfl⟩ := claimName_eq_ok hc
    cases he
    exact (Step.morphism hnew).entered

end Steps

/-- What a run of accepted entries does: the nodes that it adds are listed, all anonymous entries
among them. -/
structure Ran (g : FormGraph) (es : List Entry) (m : Manuscript) (asked : List Entry)
    (k : Manuscript) : Prop where
  compiled : ∃ added, Compiled g (es ++ added) k ∧ added ⊆ asked ∧
    added.filterMap Entry.anonymous? = asked.filterMap Entry.anonymous?
  precedes : m.Precedes k
  has : ∀ e ∈ asked, k.Has e

theorem Ran.nil {g : FormGraph} {es : List Entry} {m : Manuscript} (h : Compiled g es m) :
    Ran g es m [] m :=
  ⟨⟨[],by simpa using h,by simp,rfl⟩,.refl m,by simp⟩

theorem Ran.cons {g : FormGraph} {es : List Entry} {m k l : Manuscript} {e : Entry}
    {asked : List Entry} (h : Compiled g es m) (he : Entered m e k)
    (hr : ∀ es', Compiled g es' k → Ran g es' k asked l) : Ran g es m (e :: asked) l := by
  have hlast {es' : List Entry} (hc : Compiled g es' k) : ∀ x ∈ e :: asked, l.Has x := by
    have hrest := hr es' hc
    intro x hx
    rcases List.mem_cons.mp hx with rfl | hx
    · exact he.has.mono hrest.precedes
    · exact hrest.has x hx
  rcases he.step with ⟨rfl,hanon⟩ | hs
  · have hrest := hr es h
    obtain ⟨added,hadd,hsub,hfilter⟩ := hrest.compiled
    exact ⟨⟨added,hadd,fun x hx => List.mem_cons_of_mem _ (hsub hx),by
      rw [hfilter,List.filterMap_cons,hanon]⟩,hrest.precedes,hlast h⟩
  · have hc := h.snoc hs
    have hrest := hr _ hc
    obtain ⟨added,hadd,hsub,hfilter⟩ := hrest.compiled
    refine ⟨⟨e :: added,by simpa using hadd,?_,?_⟩,he.precedes.trans hrest.precedes,hlast hc⟩
    · intro x hx
      rcases List.mem_cons.mp hx with rfl | hx
      · exact List.mem_cons_self
      · exact List.mem_cons_of_mem _ (hsub hx)
    · rw [List.filterMap_cons,List.filterMap_cons,hfilter]

theorem Ran.append {g : FormGraph} {es as bs : List Entry} {m k l : Manuscript}
    (h : Ran g es m as k) (hr : ∀ es', Compiled g es' k → Ran g es' k bs l) :
    Ran g es m (as ++ bs) l := by
  obtain ⟨added,hadd,hsub,hfilter⟩ := h.compiled
  have hrest := hr _ hadd
  obtain ⟨more,hmore,hsub',hfilter'⟩ := hrest.compiled
  refine ⟨⟨added ++ more,by simpa using hmore,?_,by simp [hfilter,hfilter']⟩,
    h.precedes.trans hrest.precedes,fun x hx => ?_⟩
  · intro x hx
    rcases List.mem_append.mp hx with hx | hx
    · exact List.mem_append_left _ (hsub hx)
    · exact List.mem_append_right _ (hsub' hx)
  · rcases List.mem_append.mp hx with hx | hx
    · exact (h.has x hx).mono hrest.precedes
    · exact hrest.has x hx

/-- Run lemma: entries that are ready when those before them are there. -/
theorem Compiled.enterAll {g : FormGraph} {es : List Entry} {m k : Manuscript}
    (h : Compiled g es m) {asked : List Entry} (he : m.enterAll asked = (.ok (),k))
    (hready : ∀ l e, l ++ [e] <+: asked → ∀ j : Manuscript, m.Precedes j → (∀ x ∈ l, j.Has x) →
      j.IsReady e) : Ran g es m asked k := by
  induction asked generalizing es m with
  | nil =>
    cases he
    exact .nil h
  | cons e asked ih =>
    rw [Manuscript.enterAll] at he
    cases hj : m.enter e with
    | error err => simp [hj] at he
    | ok j =>
      simp only [hj] at he
      have hentered := enter_entered hj (hready [] e ⟨asked,by simp⟩ m (.refl m) (by simp))
      refine .cons h hentered fun es' hc => ih hc he fun l x hp i hi hl => ?_
      refine hready (e :: l) x (by simpa using hp) i (hentered.precedes.trans hi) fun y hy => ?_
      rcases List.mem_cons.mp hy with rfl | hy
      · exact hentered.has.mono hi
      · exact hl y hy

theorem enterAll_append (m : Manuscript) (as bs : List Entry) : m.enterAll (as ++ bs) =
    match m.enterAll as with
    | (.ok _,k) => k.enterAll bs
    | (.error err,k) => (.error err,k) := by
  induction as generalizing m with
  | nil => rfl
  | cons a as ih =>
    rw [List.cons_append,Manuscript.enterAll,Manuscript.enterAll]
    cases m.enter a with
    | error err => rfl
    | ok k => exact ih k

theorem enterAll_append_eq_ok {m l : Manuscript} {as bs : List Entry}
    (h : m.enterAll (as ++ bs) = (.ok (),l)) :
    ∃ k, m.enterAll as = (.ok (),k) ∧ k.enterAll bs = (.ok (),l) := by
  rw [enterAll_append] at h
  split at h <;> rename_i k hk
  · exact ⟨k,hk,h⟩
  · cases h

theorem isReady_of_form {asked l : List Entry} {e : Entry} {ids : List FormId}
    (ha : asked = ids.map .form) (hp : l ++ [e] <+: asked) (j : Manuscript) : j.IsReady e := by
  have he : e ∈ asked := hp.subset (by simp)
  rw [ha] at he
  obtain ⟨id,-,rfl⟩ := List.mem_map.mp he
  trivial

theorem isReady_of_ordered {l : List Entry} {e : Entry} {ds : List Denotator}
    (ho : Denotator.Ordered ds) (hp : l ++ [e] <+: ds.map .denotator) {j : Manuscript}
    (hl : ∀ x ∈ l, j.Has x) : j.IsReady e := by
  obtain ⟨rest,hrest⟩ := hp
  obtain ⟨before,after,rfl,hb,-⟩ := List.map_eq_append_iff.mp hrest.symm
  obtain ⟨ds',last,rfl,hl',hd⟩ := List.map_eq_append_iff.mp hb
  obtain ⟨d,rfl,rfl⟩ := List.map_eq_singleton_iff.mp hd
  intro n hn name hname
  have hmem := ho ds' d (List.prefix_append _ _) n hn (by simp [hname])
  exact hl (.denotator n) (hl' ▸ List.mem_map_of_mem hmem) name hname

theorem Compiled.write {g : FormGraph} {es : List Entry} {m k : Manuscript} (h : Compiled g es m)
    {e : Entry} (hw : m.write e = (.ok (),k)) : Ran g es m (e.expand g) k := by
  have hg : m.forms = g := h.forms_eq
  rw [Manuscript.write,hg] at hw
  cases e with
  | form id =>
    exact h.enterAll hw fun l e hp j _ _ => isReady_of_form rfl hp j
  | denotator d =>
    obtain ⟨i,hi,hanon⟩ := enterAll_append_eq_ok hw
    obtain ⟨j,hforms,hdens⟩ := enterAll_append_eq_ok hi
    have hcollect := Denotator.collects_dependencies d []
    have hrun := (h.enterAll hforms fun l e hp j _ _ => isReady_of_form rfl hp j).append
      fun es' hc => hc.enterAll hdens fun l e hp j _ hl =>
        isReady_of_ordered (hcollect.ordered Denotator.ordered_nil) hp hl
    refine hrun.append fun es' hc => hc.enterAll hanon fun l e hp n hn hl => ?_
    have he : e = .denotator d := by
      have hmem := hp.subset (show e ∈ l ++ [e] by simp)
      split at hmem
      · exact List.mem_singleton.mp hmem
      · simp at hmem
    subst he
    intro f hf name hname
    have hdep : f ∈ d.dependencies [] := by
      refine hcollect.mem f ?_ (by simp [hname])
      simp [Denotator.allNodes,Denotator.nodes_eq d,hf]
    have hhas : i.HasDenotator f :=
      hrun.has (.denotator f) (List.mem_append_right _ (List.mem_map_of_mem hdep))
    exact hhas.mono hn name hname
  | module name x =>
    exact h.enterAll hw fun l e hp j _ _ => by
      have : e ∈ [Entry.module name x] := hp.subset (by simp)
      rw [List.mem_singleton.mp this]
      trivial
  | element name x =>
    exact h.enterAll hw fun l e hp j _ _ => by
      have : e ∈ [Entry.element name x] := hp.subset (by simp)
      rw [List.mem_singleton.mp this]
      trivial
  | morphism name f =>
    exact h.enterAll hw fun l e hp j _ _ => by
      have : e ∈ [Entry.morphism name f] := hp.subset (by simp)
      rw [List.mem_singleton.mp this]
      trivial

end Manuscript

namespace Entry

theorem form_mem_expand {g : FormGraph} {e : Entry} {id sub : FormId}
    (h : .form id ∈ e.expand g) (hs : sub ∈ g.subForms id) : .form sub ∈ e.expand g := by
  have hnil : g.ClosedUnder [] := by simp [FormGraph.ClosedUnder]
  cases e with
  | form root =>
    obtain ⟨x,hx,he⟩ := List.mem_map.mp h
    cases he
    exact List.mem_map_of_mem ((g.dependencies_extends root hnil).closed id hx hs)
  | denotator d =>
    have hclosed := (d.formDependencies_spec g hnil).2.1
    have hmem : id ∈ d.formDependencies g [] := by
      simp only [expand,List.mem_append,List.mem_map] at h
      rcases h with (⟨x,hx,he⟩ | ⟨x,-,he⟩) | h
      · cases he; exact hx
      · cases he
      · split at h <;> simp at h
    exact List.mem_append_left _ (List.mem_append_left _ (List.mem_map_of_mem (hclosed id hmem hs)))
  | module | element | morphism => simp [expand] at h

theorem mem_nodes_of_mem_expand {g : FormGraph} {e : Entry} {d : Denotator}
    (h : .denotator d ∈ e.expand g) : ∃ root, e = .denotator root ∧ d ∈ root.nodes := by
  cases e with
  | denotator root =>
    refine ⟨root,rfl,?_⟩
    simp only [expand,List.mem_append,List.mem_map] at h
    rcases h with (⟨x,-,he⟩ | ⟨x,hx,he⟩) | h
    · cases he
    · cases he
      have hn := ((Denotator.collects_dependencies root []).sound d hx).resolve_left (by simp)
      simpa [Denotator.allNodes] using hn.1
    · split at h
      · cases List.mem_singleton.mp h
        exact Denotator.self_mem_nodes d
      · simp at h
  | form id =>
    obtain ⟨x,-,he⟩ := List.mem_map.mp h
    cases he
  | module | element | morphism => simp [expand] at h

theorem nodeForm_mem_expand {g : FormGraph} {e : Entry} {d n : Denotator}
    (h : .denotator d ∈ e.expand g) (hn : n ∈ d.nodes) : .form n.form ∈ e.expand g := by
  obtain ⟨root,rfl,hd⟩ := mem_nodes_of_mem_expand h
  have hnil : g.ClosedUnder [] := by simp [FormGraph.ClosedUnder]
  have hforms := (root.formDependencies_spec g hnil).2.2
  exact List.mem_append_left _ (List.mem_append_left _
    (List.mem_map_of_mem (hforms n (Denotator.nodes_trans hn hd))))

theorem named_mem_expand {g : FormGraph} {d n : Denotator} (hn : n ∈ d.nodes)
    (hs : n.name.isSome) : .denotator n ∈ (Entry.denotator d).expand g := by
  have hmem := (Denotator.collects_dependencies d []).mem n (by simpa [Denotator.allNodes]) hs
  exact List.mem_append_left _ (List.mem_append_right _ (List.mem_map_of_mem hmem))

theorem anonymous_expand (g : FormGraph) (e : Entry) :
    (e.expand g).filterMap anonymous? = e.anonymous?.toList := by
  have hforms (ids : List FormId) : (ids.map Entry.form).filterMap anonymous? = [] := by
    simp [List.filterMap_eq_nil_iff,anonymous?]
  cases e with
  | form id => exact hforms _
  | denotator d =>
    have hnamed : ((d.dependencies []).map Entry.denotator).filterMap anonymous? = [] := by
      rw [List.filterMap_eq_nil_iff]
      intro x hx
      obtain ⟨n,hn,rfl⟩ := List.mem_map.mp hx
      have := ((Denotator.collects_dependencies d []).sound n hn).resolve_left (by simp)
      simp [anonymous?,Option.isSome_iff_ne_none.mp this.2]
    rw [expand,List.filterMap_append,List.filterMap_append,hforms,hnamed]
    cases hname : d.name <;> simp [anonymous?,hname]
  | module | element | morphism => rfl

end Entry

namespace Manuscript

structure Complete (g : FormGraph) (es : List Entry) (m : Manuscript) : Prop where
  forms : ∀ id, .form id ∈ es → ∀ sub ∈ g.subForms id, m.HasForm sub
  denotators : ∀ d, .denotator d ∈ es → ∀ n ∈ d.nodes, m.HasForm n.form

theorem Complete.write {g : FormGraph} {es added : List Entry} {m k : Manuscript}
    {e : Entry} (h : Complete g es m) (hr : Ran g es m (e.expand g) k)
    (hsub : added ⊆ e.expand g) : Complete g (es ++ added) k where
  forms := by
    intro id hid sub hs
    rcases List.mem_append.mp hid with hid | hid
    · exact (h.forms id hid sub hs).mono hr.precedes
    · exact hr.has (.form sub) (Entry.form_mem_expand (hsub hid) hs)
  denotators := by
    intro d hd n hn
    rcases List.mem_append.mp hd with hd | hd
    · exact (h.denotators d hd n hn).mono hr.precedes
    · exact hr.has (.form n.form) (Entry.nodeForm_mem_expand (hsub hd) hn)

/-- What successful requests come to. -/
structure Written (g : FormGraph) (asked es : List Entry) (m : Manuscript) : Prop where
  compiled : Compiled g es m
  complete : Complete g es m
  due : ∀ e ∈ es, ∃ a ∈ asked, e ∈ a.expand g
  has : ∀ a ∈ asked, ∀ e ∈ a.expand g, m.Has e
  anonymous : es.filterMap Entry.anonymous? = asked.filterMap Entry.anonymous?

theorem written_empty (g : FormGraph) : Written g [] [] (empty g) :=
  ⟨.empty,⟨by simp,by simp⟩,by simp,by simp,rfl⟩

theorem Written.writeAll {g : FormGraph} {asked es more : List Entry}
    {m k : Manuscript} (h : Written g asked es m) (hw : m.writeAll more = .ok k) :
    ∃ es', Written g (asked ++ more) es' k := by
  induction more generalizing asked es m with
  | nil =>
    cases hw
    exact ⟨es,by simpa using h⟩
  | cons e more ih =>
    rw [Manuscript.writeAll] at hw
    split at hw <;> rename_i j hj
    · have hr := h.compiled.write hj
      obtain ⟨added,hadd,hsub,hfilter⟩ := hr.compiled
      rw [List.append_cons asked e more]
      refine ih ⟨hadd,h.complete.write hr hsub,fun x hx => ?_,fun a ha x hx => ?_,?_⟩ hw
      · rcases List.mem_append.mp hx with hx | hx
        · obtain ⟨a,ha,hxa⟩ := h.due x hx
          exact ⟨a,List.mem_append_left _ ha,hxa⟩
        · exact ⟨e,by simp,hsub hx⟩
      · rcases List.mem_append.mp ha with ha | ha
        · exact (h.has a ha x hx).mono hr.precedes
        · rw [List.mem_singleton.mp ha] at hx
          exact hr.has x hx
      · rw [List.filterMap_append,List.filterMap_append,h.anonymous,hfilter,
          Entry.anonymous_expand]
        cases ha : e.anonymous? <;> simp [ha]
    · cases hw

/-- Run lemma for requests, from the empty manuscript. -/
theorem written_of_writeAll {g : FormGraph} {asked : List Entry} {m : Manuscript}
    (h : (empty g).writeAll asked = .ok m) : ∃ es, Written g asked es m :=
  (written_empty g).writeAll h

section Snapshots
variable {g : FormGraph} {es : List Entry} {m : Manuscript}

theorem Compiled.has (h : Compiled g es m) {e : Entry} (he : e ∈ es) : m.Has e := by
  induction h with
  | empty => simp at he
  | snoc hm hs ih =>
    rcases List.mem_append.mp he with he | he
    · exact (ih he).mono hs.precedes
    · exact List.mem_singleton.mp he ▸ hs.has

theorem Step.exists_node {k : Manuscript} {e : Entry} (h : Step m e k) :
    ∃ n, k.nodes = m.nodes ++ [n] := by
  cases h <;> exact ⟨_,rfl⟩

/-- Every node was added to what the entries before it came to. -/
theorem Compiled.split (h : Compiled g es m) {before after : List Node} {n : Node}
    (hn : m.nodes = before ++ n :: after) : ∃ as e bs k l, es = as ++ e :: bs ∧ Compiled g as k ∧
      Step k e l ∧ k.nodes = before ∧ l.nodes = before ++ [n] ∧ l.Precedes m := by
  induction h generalizing after with
  | empty => simp [Manuscript.empty] at hn
  | @snoc es m k e hm hs ih =>
    obtain ⟨c,hc⟩ := hs.exists_node
    rw [hc] at hn
    rcases append_single_eq_append_cons hn with ⟨-,rfl,rfl⟩ | ⟨rest,hrest⟩
    · exact ⟨es,e,[],m,k,rfl,hm,hs,rfl,hc,.refl k⟩
    · obtain ⟨as,a,bs,i,j,rfl,hi,hstep,hbefore,hnode,hp⟩ := ih hrest
      exact ⟨as,a,bs ++ [e],i,j,by simp,hi,hstep,hbefore,hnode,hp.trans hs.precedes⟩

theorem Compiled.length_nodes (h : Compiled g es m) : m.nodes.length = es.length := by
  induction h with
  | empty => rfl
  | snoc hm hs ih =>
    obtain ⟨n,hn⟩ := hs.exists_node
    simp [hn,ih]

end Snapshots

end Manuscript
end AddressedForms
