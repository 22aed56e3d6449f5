import AddressedForms.Proofs.Document.RelatedAssembly
import AddressedForms.Proofs.Repository.Growth
set_option autoImplicit false

/-!
All sets in a catalogue are sorted: those of denotators that are registered, and those of documents,
whose denotators are made by the checked constructors of what is sorted already.
-/

namespace AddressedForms

theorem Surroundings.rel_self (env : Surroundings) : env.Rel Eq env where
  twins := FormGraph.twins_eq env.graph
  form? name := by cases env.form? name <;> constructor; rfl
  leaves := rfl

theorem Denotator.rel_get? {R : FormId → FormId → Prop} {t : Table Denotator}
    (h : ∀ name d, t.get? name = some d → d.IsSorted ∧ ∀ n ∈ d.nodes, R n.form n.form)
    (name : String) : Option.Rel (Matches R) (t.get? name) (t.get? name) := by
  cases hd : t.get? name with
  | none => exact .none
  | some d => exact .some (matches_self (h name d hd).1 (h name d hd).2)

/-- In a document sets are sorted if they are in the catalogue. -/
theorem DenotatorDefinition.isSorted_resolve (env : Surroundings) {t : Table Denotator}
    (ht : ∀ name d, t.get? name = some d → d.IsSorted) (defs : Table DenotatorDefinition) :
    ∀ e ∈ Resolution.values (resolve env t.get? defs).table, e.2.IsSorted := by
  intro e he
  have ho := Denotator.rel_get? (R := Eq) fun name d hd => ⟨ht name d hd,fun _ _ => rfl⟩
  have hvalues := Resolution.forall₂_values (rel_resolve env.rel_self ho defs).table
  obtain ⟨_,-,-,hmatch⟩ := exists_of_forall₂_left hvalues he
  exact hmatch.isSorted

namespace Repository
variable {r : Repository}

def Sorted (r : Repository) : Prop := ∀ name d, r.denotator? name = some d → d.IsSorted

theorem Sorted.registerForm {s : Repository} {id held : FormId} (h : r.Sorted)
    (hr : r.registerForm id = .ok (held,s)) : s.Sorted := by
  obtain ⟨⟨held',g⟩,-,hr⟩ := Except.bind_eq_ok_iff.mp hr
  cases hr
  exact h

theorem Sorted.registerFormLabelled {s : Repository} {id held : FormId} {labels : List String}
    (h : r.Sorted) (hr : r.registerFormLabelled id labels = .ok (held,s)) : s.Sorted := by
  obtain ⟨⟨held',g⟩,-,hr⟩ := Except.bind_eq_ok_iff.mp hr
  cases hr
  exact h

theorem Sorted.registerDenotator {s : Repository} {d : Denotator} (h : r.Sorted)
    (hd : d.IsSorted) (hr : r.registerDenotator d = .ok s) : s.Sorted := by
  obtain ⟨name,-,-,⟨-,-,-,rfl⟩ | ⟨-,rfl⟩⟩ := registerDenotator_eq_ok_iff.mp hr
  · exact h
  · intro k e he
    rw [denotator?,Table.get?_insert] at he
    split at he
    · cases he
      exact hd
    · exact h k e he

theorem Sorted.register {g : Reading} (h : g.repository.Sorted)
    (hd : ∀ e ∈ g.symbols.denotators, e.2.IsSorted) : g.register.repository.Sorted := by
  have hfold {α : Type} {step : Reading → α → Reading} (xs : List α)
      (hs : ∀ x ∈ xs, ∀ g : Reading, g.repository.Sorted → (step g x).repository.Sorted)
      (g : Reading) (h : g.repository.Sorted) : (xs.foldl step g).repository.Sorted := by
    induction xs generalizing g with
    | nil => exact h
    | cons x xs ih =>
      exact ih (fun y hy => hs y (List.mem_cons_of_mem _ hy)) _ (hs x List.mem_cons_self g h)
  refine hfold _ (fun e he g h => ?_) _ (hfold _ (fun e _ g h => ?_) g h)
  · unfold Reading.registerDenotator
    split <;> rename_i hr
    · exact h.registerDenotator (hd e he) hr
    · exact h
    · exact h
  · unfold Reading.registerForm
    split <;> rename_i hr
    · exact h.registerForm hr
    · exact h

theorem Sorted.readNode? (h : r.Sorted) (a : Reader) (root : Option Node) :
    (a.readNode? root r).2.2.Sorted := by
  cases root with
  | none => exact h
  | some n =>
    show (Outcome.ofNode a.vocabulary a.settings n r).2.Sorted
    unfold Outcome.ofNode
    dsimp only
    split
    · refine Sorted.register h (DenotatorDefinition.isSorted_resolve _ (fun name d hd => ?_) _)
      cases hf : a.settings.catalogFallback <;> rw [hf] at hd
      · cases hd
      · exact h name d hd
    · exact h

theorem Sorted.apply (h : r.Sorted) (a : Action) : (r.apply a).Sorted := by
  cases a with
  | declare | add | outlineBuild => exact h
  | read a root => exact h.readNode? a root
  | define | outlineDefine =>
    simp only [Repository.apply]
    split <;> exact h
  | registerForm id =>
    simp only [Repository.apply]
    split <;> rename_i hr
    · exact h.registerForm hr
    · exact h
  | registerFormLabelled id labels =>
    simp only [Repository.apply]
    split <;> rename_i hr
    · exact h.registerFormLabelled hr
    · exact h
  | registerDenotator d hd =>
    simp only [Repository.apply]
    split <;> rename_i hr
    · exact h.registerDenotator hd hr
    · exact h

theorem Reachable.sorted (h : r.Reachable) : r.Sorted := by
  obtain ⟨as,rfl⟩ := h
  suffices hrun : ∀ r : Repository, r.Sorted → (r.run as).Sorted from hrun empty nofun
  induction as with
  | nil => exact fun _ => id
  | cons a as ih => exact fun r hr => ih (r.apply a) (hr.apply a)

end Repository
end AddressedForms
