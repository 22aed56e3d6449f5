import AddressedForms.Document.Reader
import AddressedForms.Form.Outline
import AddressedForms.Proofs.Denotator.WellFormed
import AddressedForms.Proofs.Form.Growth
set_option autoImplicit false

/-!
Repositories over time. Whatever is done to one, and whether it succeeds or not, its form graph only
grows, its catalogue only gains denotators that are valid when they enter, and what holds of forms
and denotators by comparison, validation or fingerprint goes on to hold.
-/

namespace AddressedForms

namespace FormExtension

theorem follows_declare (b : FormExtension) (p : FormPlan) : b.graph.Follows (b.declare p).graph :=
  FormGraph.follows_declare b.graph p.name p.kind

theorem follows_define (b : FormExtension) (p : FormPlan) : b.graph.Follows (b.define p).graph := by
  unfold define
  split
  · split <;> rename_i hd
    · exact .define hd
    · exact .refl b.graph
  · exact .refl b.graph

theorem follows_foldl {step : FormExtension → FormPlan → FormExtension}
    (h : ∀ (b : FormExtension) p, b.graph.Follows (step b p).graph) (ps : List FormPlan)
    (b : FormExtension) : b.graph.Follows (ps.foldl step b).graph := by
  induction ps generalizing b with
  | nil => exact .refl b.graph
  | cons p ps ih => exact (h b p).trans (ih (step b p))

theorem follows_ofPlans (g : FormGraph) (ps : List FormPlan) :
    g.Follows (ofPlans g ps).graph :=
  (follows_foldl follows_declare ps ⟨g,.empty,[],[]⟩).trans (follows_foldl follows_define ps _)

end FormExtension

theorem Denotator.validate_extend {g ext : FormGraph} (hg : g.NamesUnique) (he : ext.NamesUnique)
    (hk : g.Keeps ext) {d : Denotator} (h : d.validate g = .ok ()) : d.validate ext = .ok () := by
  induction d using factor_induction with
  | h d ih =>
    obtain ⟨hnode,hfactors⟩ := (validate_eq_ok_iff d).mp h
    obtain ⟨f,hf,hfit⟩ := (checkNode_eq_ok_iff hg).mp hnode
    obtain ⟨e,hget,-,hbody⟩ := hk d.form f hf
    refine (validate_eq_ok_iff d).mpr ⟨(checkNode_eq_ok_iff he).mpr ⟨e,hget,?_⟩,fun f hf => ?_⟩
    · rw [hbody]
      exact hfit.extend hk
    · exact ⟨(hfactors f hf).1,ih f hf (hfactors f hf).2⟩

namespace Repository
variable {r s t : Repository}

/-- What is done to repositories. Denotators come with their sets sorted, as all constructors leave
them. -/
inductive Action where
  | declare (name : String) (kind : Kind)
  | define (id : FormId) (body : Body) (labels : Option (List String))
  | add (name : String) (body : Body)
  | outlineDefine (o : Outline) (id : FormId)
  | outlineBuild (o : Outline)
  | registerForm (id : FormId)
  | registerFormLabelled (id : FormId) (labels : List String)
  | registerDenotator (d : Denotator) (h : d.IsSorted)
  | read (a : Reader) (root : Option Node)

/-- The repository afterwards, also where an action fails. -/
def apply (r : Repository) : Action → Repository
  | .declare name kind => {r with forms := (r.forms.declare name kind).2}
  | .define id body labels => match r.forms.define id body labels with
    | .ok g => {r with forms := g}
    | .error _ => r
  | .add name body => {r with forms := (r.forms.add name body).2}
  | .outlineDefine o id => match o.define r.forms id with
    | .ok g => {r with forms := g}
    | .error _ => r
  | .outlineBuild o => {r with forms := (o.build r.forms).2}
  | .registerForm id => match r.registerForm id with
    | .ok (_,s) => s
    | .error _ => r
  | .registerFormLabelled id labels => match r.registerFormLabelled id labels with
    | .ok (_,s) => s
    | .error _ => r
  | .registerDenotator d _ => match r.registerDenotator d with
    | .ok s => s
    | .error _ => r
  | .read a root => (a.readNode? root r).2.2

def run (r : Repository) (as : List Action) : Repository := as.foldl apply r

def Reachable (r : Repository) : Prop := ∃ as, r = empty.run as

def Catalogued (r : Repository) : Prop :=
  ∀ name d, r.denotator? name = some d → d.validate r.forms = .ok () ∧ d.name = some name

structure Follows (r s : Repository) : Prop where
  forms : r.forms.Follows s.forms
  kept : ∀ name d, r.denotator? name = some d → s.denotator? name = some d
  catalogued : r.forms.Reachable → r.Catalogued → s.Catalogued

theorem Follows.refl (r : Repository) : r.Follows r := ⟨.refl _,fun _ _ => id,fun _ => id⟩

theorem Follows.trans (h : r.Follows s) (k : s.Follows t) : r.Follows t where
  forms := h.forms.trans k.forms
  kept name d hd := k.kept name d (h.kept name d hd)
  catalogued hr hc := k.catalogued (h.forms.reachable hr) (h.catalogued hr hc)

theorem follows_forms (r : Repository) {g : FormGraph} (h : r.forms.Follows g) :
    r.Follows {r with forms := g} where
  forms := h
  kept _ _ := id
  catalogued hr hc name d hd :=
    ⟨Denotator.validate_extend hr.sound.namesUnique (h.reachable hr).sound.namesUnique
      h.grows.keeps (hc name d hd).1,(hc name d hd).2⟩

theorem Follows.registerForm {id held : FormId} (h : r.registerForm id = .ok (held,s)) :
    r.Follows s := by
  obtain ⟨⟨held',g⟩,hg,h⟩ := Except.bind_eq_ok_iff.mp h
  cases h
  exact r.follows_forms (.register hg)

theorem Follows.registerFormLabelled {id held : FormId} {labels : List String}
    (h : r.registerFormLabelled id labels = .ok (held,s)) : r.Follows s := by
  obtain ⟨⟨held',g⟩,hg,h⟩ := Except.bind_eq_ok_iff.mp h
  cases h
  exact r.follows_forms (.registerLabelled hg)

theorem registerDenotator_eq_ok_iff {d : Denotator} : r.registerDenotator d = .ok s ↔
    ∃ name, d.name = some name ∧ d.validate r.forms = .ok () ∧
      ((∃ held, r.denotator? name = some held ∧ held.equals r.forms d ∧ s = r) ∨
        r.denotator? name = none ∧ s = {r with denotators := r.denotators.insert name d}) := by
  unfold Repository.registerDenotator
  cases hn : d.name with
  | none => simp
  | some name =>
    simp only [Except.check_eq_ok_iff,Option.some.injEq,exists_eq_left',denotator?]
    refine and_congr_right fun _ => ?_
    cases hl : r.denotators.get? name with
    | none =>
      simp only [Except.ok.injEq,reduceCtorEq,false_and,exists_const,true_and,false_or]
      exact eq_comm
    | some held =>
      simp only [Option.some.injEq,exists_eq_left',reduceCtorEq,false_and,or_false]
      by_cases he : held.equals r.forms d
      · rw [if_pos he,Except.ok.injEq]
        exact ⟨fun h => ⟨he,h.symm⟩,fun h => h.2.symm⟩
      · rw [if_neg he]
        exact ⟨nofun,fun h => absurd h.1 he⟩

theorem Follows.registerDenotator {d : Denotator} (h : r.registerDenotator d = .ok s) :
    r.Follows s := by
  obtain ⟨name,hn,hv,⟨held,-,-,rfl⟩ | ⟨hfree,rfl⟩⟩ := registerDenotator_eq_ok_iff.mp h
  · exact .refl _
  · refine ⟨.refl _,fun k e he => ?_,fun _ hc k e he => ?_⟩
    · have hne : k ≠ name := by
        rintro rfl
        rw [hfree] at he
        cases he
      exact (Table.get?_insert_of_ne _ _ hne).trans he
    · rw [denotator?,Table.get?_insert] at he
      split at he
      · cases he
        exact ⟨hv,by simp_all⟩
      · exact hc k e he

theorem follows_ofNode (v : Vocabulary) (c : Catalogue) (root : Node) (r : Repository) :
    r.Follows (Reading.ofNode v c root r).repository :=
  r.follows_forms (FormExtension.follows_ofPlans r.forms _)

theorem follows_readingForm (g : Reading) (name : String) (id : FormId) :
    g.repository.Follows (g.registerForm name id).repository := by
  unfold Reading.registerForm
  split <;> rename_i hr
  · exact .registerForm hr
  · exact .refl _

theorem follows_readingDenotator (g : Reading) (name : String) (d : Denotator) :
    g.repository.Follows (g.registerDenotator name d).repository := by
  unfold Reading.registerDenotator
  split <;> rename_i hr
  · exact .registerDenotator hr
  · exact .refl _
  · exact .refl _

theorem follows_register (g : Reading) : g.repository.Follows g.register.repository := by
  have hfold {α : Type} {step : Reading → α → Reading}
      (h : ∀ (g : Reading) x, g.repository.Follows (step g x).repository) (xs : List α)
      (g : Reading) : g.repository.Follows (xs.foldl step g).repository := by
    induction xs generalizing g with
    | nil => exact .refl _
    | cons x xs ih => exact (h g x).trans (ih (step g x))
  exact (hfold (fun g (e : String × FormId) => follows_readingForm g e.1 e.2) g.forms g).trans
    (hfold (fun g (e : String × Denotator) => follows_readingDenotator g e.1 e.2) _ _)

theorem follows_readNode? (a : Reader) (root : Option Node) (r : Repository) :
    r.Follows (a.readNode? root r).2.2 := by
  cases root with
  | none => exact .refl r
  | some n =>
    have hread := follows_ofNode a.vocabulary (.ofRepository r a.settings.catalogFallback) n r
    show r.Follows (Outcome.ofNode a.vocabulary a.settings n r).2
    unfold Outcome.ofNode
    dsimp only
    split
    · exact hread.trans (follows_register _)
    · exact hread

/-- Step lemma: an action leads to a later state. -/
theorem follows_apply (r : Repository) (a : Action) : r.Follows (r.apply a) := by
  cases a with
  | declare name kind => exact r.follows_forms (FormGraph.follows_declare r.forms name kind)
  | add name body => exact r.follows_forms (FormGraph.follows_add r.forms name body)
  | outlineBuild o => exact r.follows_forms (FormGraph.follows_build r.forms o)
  | read a root => exact follows_readNode? a root r
  | define id body labels =>
    simp only [apply]
    split <;> rename_i h
    · exact r.follows_forms (.define h)
    · exact .refl r
  | outlineDefine o id =>
    simp only [apply]
    split <;> rename_i h
    · exact r.follows_forms (.outlineDefine h)
    · exact .refl r
  | registerForm id =>
    simp only [apply]
    split <;> rename_i h
    · exact .registerForm h
    · exact .refl r
  | registerFormLabelled id labels =>
    simp only [apply]
    split <;> rename_i h
    · exact .registerFormLabelled h
    · exact .refl r
  | registerDenotator d hd =>
    simp only [apply]
    split <;> rename_i h
    · exact .registerDenotator h
    · exact .refl r

theorem follows_run (r : Repository) (as : List Action) : r.Follows (r.run as) := by
  induction as generalizing r with
  | nil => exact .refl r
  | cons a as ih => exact (follows_apply r a).trans (ih (r.apply a))

theorem Reachable.forms (h : r.Reachable) : r.forms.Reachable := by
  obtain ⟨as,rfl⟩ := h
  exact (follows_run empty as).forms.reachable .empty

theorem Reachable.catalogued (h : r.Reachable) : r.Catalogued := by
  obtain ⟨as,rfl⟩ := h
  exact (follows_run empty as).catalogued .empty (by simp [Catalogued,denotator?,empty])

/-- In every repository that occurs the registry lists just the registered forms, bodies are in
order, and labels number the sub-forms; and from any state on, names, kinds, bodies and holders of
names stay, so that a form is defined as the kind it was declared to be. -/
theorem run_invariant (as bs : List Action) :
    let r := empty.run as
    let s := r.run bs
    s.forms.Sound ∧ s.forms.NamesUnique ∧
    (∀ id f l, s.forms.get? id = some f → f.labels = some l →
      (f.kind = .limit ∨ f.kind = .colimit) ∧
      (∀ i name, l.indexOf? name = some i ↔ l.at? i = some name) ∧
      ∀ i, (l.at? i).isSome ↔ i < f.count) ∧
    r.forms.Grows s.forms ∧
    ∀ id k f, r.forms.kind? id = some k → s.forms.get? id = some f → f.body.kind = k := by
  intro r s
  have hr : r.Reachable := ⟨as,rfl⟩
  have hfollows : r.Follows s := follows_run r bs
  have hsound := (hfollows.forms.reachable hr.forms).sound
  refine ⟨hsound,hsound.namesUnique,fun id f l hf hl => ?_,hfollows.forms.grows,
    fun id k f hk hf => ?_⟩
  · obtain ⟨hkind,hlen⟩ := hsound.labelled id f l hf hl
    exact ⟨hkind,fun i name => l.indexOf?_eq_some_iff,fun i => hlen ▸ l.isSome_at?_iff⟩
  · have := hfollows.forms.grows.kind id k hk
    rw [FormGraph.kind?_of_get? hf] at this
    exact Option.some.inj this

/-- Equality of forms and denotators, validity and fingerprints are there to stay, and so are the
denotators of the catalogue, all of them valid. -/
theorem run_conservative (as bs : List Action) :
    let r := empty.run as
    let s := r.run bs
    (∀ a b, r.forms.equalForms a b → s.forms.equalForms a b) ∧
    (∀ d : Denotator, d.validate r.forms = .ok () → d.validate s.forms = .ok ()) ∧
    (∀ x y : Denotator, x.equals r.forms y → x.equals s.forms y) ∧
    (∀ hash id w, r.forms.fingerprint? hash id = some w → s.forms.fingerprint? hash id = some w) ∧
    ∀ name d, r.denotator? name = some d →
      d.validate r.forms = .ok () ∧ d.name = some name ∧ s.denotator? name = some d := by
  intro r s
  have hr : r.Reachable := ⟨as,rfl⟩
  have hfollows : r.Follows s := follows_run r bs
  have hrs := hr.forms.sound
  have hu := (hfollows.forms.reachable hr.forms).sound.namesUnique
  have hkeeps := hfollows.forms.grows.keeps
  refine ⟨fun a b hab => ?_,fun d hd => ?_,fun x y hxy => ?_,fun hash id w hw => ?_,
    fun name d hd => ?_⟩
  · rw [FormGraph.equalForms_iff_similar hrs.namesUnique] at hab
    rw [FormGraph.equalForms_iff_similar hu]
    exact hab.extend hkeeps
  · exact Denotator.validate_extend hrs.namesUnique hu hkeeps hd
  · rw [Denotator.equals_iff_alike hrs.namesUnique] at hxy
    rw [Denotator.equals_iff_alike hu]
    exact hxy.extend hkeeps
  · exact hfollows.forms.grows.fingerprint?_eq hrs hw
  · obtain ⟨hv,hn⟩ := hr.catalogued name d hd
    exact ⟨hv,hn,hfollows.kept name d hd⟩

end Repository
end AddressedForms
