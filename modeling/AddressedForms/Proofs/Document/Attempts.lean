import AddressedForms.Proofs.Circles
import AddressedForms.Proofs.Document.DefinedNames
import AddressedForms.Proofs.PostOrder
set_option autoImplicit false

/-!
What any requests make of a manuscript, refused ones among them. A request is refused at an entry
before which all that it depends on was tried; so what is written refers to what was written before
it, but for the forms on a cycle.
-/

namespace AddressedForms

theorem FormGraph.dependencies_trails (g : FormGraph) (id : FormId) {known : List FormId}
    (hk : Walk.Trailing g.subForms known) :
    Walk.Trails g.subForms [] [id] known (g.dependencies id known) := by
  obtain ⟨w,hvisits,hw⟩ := g.visits_dependencies id known
  rw [← hw]
  exact hvisits.trails (by simp) hk

theorem Denotator.formDependencies_trails (g : FormGraph) (d : Denotator) {known : List FormId}
    (hk : Walk.Trailing g.subForms known) :
    Walk.Trails g.subForms [] (d.nodes.map form) known (d.formDependencies g known) := by
  induction d using factor_induction generalizing known with
  | h d ih =>
    have hall : Walk.Trails g.subForms [] ((allNodes d.factors).map form) known
        (allFormDependencies g d.factors known) := by
      generalize d.factors = fs at ih
      induction fs generalizing known with
      | nil => exact .refl hk
      | cons f fs ihfs =>
        have hf := ih f List.mem_cons_self hk
        have hfs := ihfs hf.trailing fun e he _ => ih e (List.mem_cons_of_mem _ he)
        rw [allNodes,List.map_append]
        exact hf.trans hfs
    have hd := hall.trans (g.dependencies_trails d.form hall.trailing)
    rw [formDependencies_eq,nodes_eq,List.map_cons]
    refine ⟨hd.grows,hd.trailing,fun x hx => hd.reached x ?_⟩
    rw [List.mem_append,List.mem_singleton]
    exact (List.mem_cons.mp hx).symm

namespace Manuscript
variable {g : FormGraph} {es : List Entry} {m k : Manuscript} {e : Entry}

/-- The manuscript after some requests, whether or not they were refused. -/
def attemptAll (m : Manuscript) (asked : List Entry) : Manuscript :=
  asked.foldl (fun k e => (k.write e).2) m

/-- The forms that an entry refers to are written, or lead back to the form that it writes. -/
def Supports (m : Manuscript) : Entry → Prop
  | .form id => ∀ sub ∈ m.forms.subForms id,
      m.HasForm sub ∨ Walk.Leads m.forms.subForms sub id
  | .denotator d => ∀ n ∈ d.nodes, m.HasForm n.form
  | _ => True

def Admissible (m : Manuscript) (asked : List Entry) : Prop :=
  ∀ l e, l ++ [e] <+: asked → ∀ j : Manuscript, m.Precedes j → (∀ x ∈ l, j.Has x) →
    j.IsReady e ∧ j.Supports e

theorem Admissible.append {as bs : List Entry} (ha : m.Admissible as)
    (hb : ∀ l e, l ++ [e] <+: bs → ∀ j : Manuscript, m.Precedes j → (∀ x ∈ as ++ l, j.Has x) →
      j.IsReady e ∧ j.Supports e) : m.Admissible (as ++ bs) := by
  rintro l e ⟨t,ht⟩ j hp hl
  rcases List.append_eq_append_iff.mp ht with ⟨rest,hrest,-⟩ | ⟨rest,hrest,hbs⟩
  · exact ha l e ⟨rest,hrest.symm⟩ j hp hl
  · rcases List.eq_nil_or_concat rest with rfl | ⟨rest,last,rfl⟩
    · exact ha l e ⟨[],by simpa using hrest⟩ j hp hl
    · obtain ⟨hle,hlast⟩ : l = as ++ rest ∧ [e] = [last] :=
        List.append_inj' (by simpa using hrest) rfl
      cases hlast
      exact hb rest e ⟨t,by simpa using hbs.symm⟩ j hp (hle ▸ hl)

theorem admissible_forms {ids : List FormId} (h : Walk.Trailing m.forms.subForms ids) :
    m.Admissible (ids.map .form) := by
  intro l e hp j hj hl
  obtain ⟨rest,hrest⟩ := hp
  obtain ⟨before,after,rfl,hb,-⟩ := List.map_eq_append_iff.mp hrest.symm
  obtain ⟨ids,last,rfl,rfl,hd⟩ := List.map_eq_append_iff.mp hb
  obtain ⟨id,rfl,rfl⟩ := List.map_eq_singleton_iff.mp hd
  refine ⟨trivial,fun sub hs => ?_⟩
  rw [hj.forms] at hs ⊢
  exact (h ids id (List.prefix_append _ _) sub hs).imp_left
    fun hm => hl (.form sub) (List.mem_map_of_mem hm)

theorem admissible_expand (m : Manuscript) (e : Entry) : m.Admissible (e.expand m.forms) := by
  have leaf {x : Entry} (hx : ∀ j : Manuscript, j.IsReady x ∧ j.Supports x) :
      m.Admissible [x] := by
    intro l y hp j _ _
    have hy : y ∈ [x] := hp.subset (by simp)
    exact List.mem_singleton.mp hy ▸ hx j
  cases e with
  | form id => exact admissible_forms (m.forms.dependencies_trails id Walk.trailing_nil).trailing
  | module | element | morphism => exact leaf fun _ => ⟨trivial,trivial⟩
  | denotator d =>
    have hforms := d.formDependencies_trails m.forms Walk.trailing_nil
    have hcollect := Denotator.collects_dependencies d []
    have hall {j : Manuscript}
        (hj : ∀ x ∈ (d.formDependencies m.forms []).map Entry.form, j.Has x) {n : Denotator}
        (hn : n ∈ d.nodes) : j.HasForm n.form := by
      have hmem := (hforms.reached n.form (List.mem_map_of_mem hn)).resolve_right (by simp)
      exact hj (.form n.form) (List.mem_map_of_mem hmem)
    have hdens : m.Admissible ((d.formDependencies m.forms []).map .form ++
        (d.dependencies []).map .denotator) := by
      refine (admissible_forms hforms.trailing).append fun l x hp j hj hl => ⟨?_,?_⟩
      · exact isReady_of_ordered (hcollect.ordered Denotator.ordered_nil) hp
          fun y hy => hl y (List.mem_append_right _ hy)
      · obtain ⟨f,hf,rfl⟩ := List.mem_map.mp (hp.subset (List.mem_append_right l List.mem_cons_self))
        have hfd := ((hcollect.sound f hf).resolve_left (by simp)).1
        intro n hn
        exact hall (fun y hy => hl y (List.mem_append_left _ hy))
          (Denotator.nodes_trans hn (by simpa [Denotator.allNodes] using hfd))
    refine hdens.append fun l x hp j hj hl => ?_
    have hx : x = .denotator d := by
      have hmem := hp.subset (List.mem_append_right l List.mem_cons_self)
      split at hmem
      · exact List.mem_singleton.mp hmem
      · simp at hmem
    subst hx
    refine ⟨fun f hf name hname => ?_,fun n hn => hall (fun y hy => hl y ?_) hn⟩
    · have hdep : f ∈ d.dependencies [] := by
        refine hcollect.mem f ?_ (by simp [hname])
        simp [Denotator.allNodes,Denotator.nodes_eq d,hf]
      exact hl (.denotator f) (by simp [hdep]) name hname
    · exact List.mem_append_left _ (List.mem_append_left _ hy)

/-- What a node refers to is defined before it. A form may also refer to forms with which it lies on
a cycle. -/
def Grounded (m : Manuscript) (before : List Node) (n : Node) : Prop :=
  ∀ s k, (s,k) ∈ n.references → (∃ p ∈ before, p.defined? = some (s,k)) ∨
    s = .form ∧ ∃ name id, n.defined? = some (.form,name) ∧
      m.writtenForms.get? name = some id ∧
      (∃ sub ∈ m.forms.subForms id, m.forms.name? sub = some k) ∧
      ∀ sub ∈ m.forms.subForms id, m.forms.name? sub = some k →
        ∃ c : Cycle FormId, id ∈ c ∧ sub ∈ c ∧ c.Chain (Walk.Edge m.forms.subForms)

theorem Grounded.mono {before : List Node} {n : Node} (h : m.Grounded before n)
    (hp : m.Precedes k) : k.Grounded before n := by
  intro s j hj
  refine (h s j hj).imp_right ?_
  rintro ⟨hs,name,id,hd,hw,hrest⟩
  rw [hp.forms]
  exact ⟨hs,name,id,hd,hp.writtenForms name id hw,hrest⟩

theorem Step.grounded (hm : Compiled g es m) (hs : Step m e k) (he : m.Supports e) {n : Node}
    (hn : k.nodes = m.nodes ++ [n]) : k.Grounded m.nodes n := by
  intro s j hj
  have hmentions := hs.mentions hn hj
  cases s with
  | form =>
    by_cases hd : ∃ p ∈ m.nodes, p.defined? = some (.form,j)
    · exact .inl hd
    have hmissing {x : FormId} (hname : m.forms.name? x = some j) : ¬ m.HasForm x :=
      fun hx => hd (hm.exists_defined (r := (.form,j)) (hx.contains hname))
    rcases hmentions with ⟨id,hid,sub,hsub,hname⟩ | ⟨d,hdenotator,x,hx,hname⟩
    · cases List.mem_singleton.mp hid
      cases hs with
      | @form _ f c hf hnew hc =>
        obtain rfl : c = n := by simpa [push] using hn
        refine .inr ⟨rfl,f.name,id,?_,Table.get?_insert_self _ _ _,⟨sub,hsub,hname⟩,
          fun x hx hxname => ?_⟩
        · simpa [Option.toList_eq_singleton_iff] using (definesOnly_formNode hc).own
        · exact Walk.exists_common_cycle hx ((he x hx).resolve_left (hmissing hxname))
    · cases List.mem_singleton.mp hdenotator
      exact (hmissing hname (he x hx)).elim
  | denotator | module | element | morphism => exact .inl (hm.exists_defined hmentions)

structure Attempted (g : FormGraph) (es : List Entry) (m : Manuscript) : Prop where
  compiled : Compiled g es m
  forms : ∀ id, .form id ∈ es → ∀ sub ∈ g.subForms id, m.HasForm sub ∨ Walk.Leads g.subForms sub id
  denotators : ∀ d, .denotator d ∈ es → ∀ n ∈ d.nodes, m.HasForm n.form
  grounded : ∀ before n after, m.nodes = before ++ n :: after → m.Grounded before n

theorem attempted_empty (g : FormGraph) : Attempted g [] (empty g) :=
  ⟨.empty,by simp,by simp,by simp [empty]⟩

theorem Attempted.step (h : Attempted g es m) (hs : Step m e k) (he : m.Supports e) :
    Attempted g (es ++ [e]) k where
  compiled := h.compiled.snoc hs
  forms := by
    intro id hid sub hsub
    rcases List.mem_append.mp hid with hid | hid
    · exact (h.forms id hid sub hsub).imp_left fun hm => hm.mono hs.precedes
    · cases List.mem_singleton.mp hid
      rw [← h.compiled.forms_eq] at hsub ⊢
      exact (he sub hsub).imp_left fun hm => hm.mono hs.precedes
  denotators := by
    intro d hd n hn
    rcases List.mem_append.mp hd with hd | hd
    · exact (h.denotators d hd n hn).mono hs.precedes
    · cases List.mem_singleton.mp hd
      exact (he n hn).mono hs.precedes
  grounded := by
    intro before n after hn
    obtain ⟨c,hc⟩ := hs.exists_node
    rw [hc] at hn
    rcases append_single_eq_append_cons hn with ⟨-,rfl,rfl⟩ | ⟨rest,hrest⟩
    · exact hs.grounded h.compiled he hc
    · exact (h.grounded before n rest hrest).mono hs.precedes

theorem Attempted.enterAll {asked : List Entry} (h : Attempted g es m)
    (ha : m.Admissible asked) : ∃ es', Attempted g es' (m.enterAll asked).2 := by
  induction asked generalizing es m with
  | nil => exact ⟨es,h⟩
  | cons e asked ih =>
    rw [Manuscript.enterAll]
    cases hj : m.enter e with
    | error err => exact ⟨es,h⟩
    | ok j =>
      obtain ⟨hready,hsupports⟩ := ha [] e ⟨asked,by simp⟩ m (.refl m) (by simp)
      have hentered := enter_entered hj hready
      have hrest : j.Admissible asked := by
        refine fun l x hp i hi hl => ha (e :: l) x (by simpa using hp) i
          (hentered.precedes.trans hi) fun y hy => ?_
        rcases List.mem_cons.mp hy with rfl | hy
        · exact hentered.has.mono hi
        · exact hl y hy
      rcases hentered.step with ⟨rfl,-⟩ | hs
      · exact ih h hrest
      · exact ih (h.step hs hsupports) hrest

theorem Attempted.attemptAll (h : Attempted g es m) (asked : List Entry) :
    ∃ es', Attempted g es' (m.attemptAll asked) := by
  induction asked generalizing es m with
  | nil => exact ⟨es,h⟩
  | cons e asked ih =>
    obtain ⟨es',h'⟩ := h.enterAll (admissible_expand m e)
    exact ih h'

/-- Whatever is requested, and whether or not it is refused, no name is defined twice in a document,
not even inside a node, and what a node refers to is defined at the top level before it, but for
forms that share a cycle. -/
theorem grounded_attemptAll (g : FormGraph) (asked : List Entry) :
    let m := (empty g).attemptAll asked
    m.node.definitions.Nodup ∧
    ∀ before n after, m.node.children = before ++ n :: after → m.Grounded before n := by
  intro m
  obtain ⟨es,h⟩ := (attempted_empty g).attemptAll asked
  refine ⟨?_,h.grounded⟩
  have hroot : m.node.definitions = Node.allDefinitions m.nodes := by
    rw [Node.definitions_eq,Node.defined?_of_tag rfl]
    rfl
  rw [hroot]
  exact h.compiled.definedNames.1

end Manuscript
end AddressedForms
