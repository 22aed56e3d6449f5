import AddressedForms.Proofs.Denotator.Replacement
set_option autoImplicit false

/-!
Maps at leaves commute with values. One way round a morphism is composed with the coordinate and
the denotator is evaluated, the other way round it is applied to the constant that is left of the
coordinate; addresses and whatever is off the path come out alike.
-/

namespace AddressedForms

namespace Morphism
variable {m k : Morphism} {d : Module} {y : Element}

theorem exists_of_compose_constant (h : m.compose (.constant d y) = .ok k) :
    ∃ z, m.apply y = .ok z ∧ k = .constant d z := by
  unfold compose at h
  split at h
  · contradiction
  rename_i hends
  have hy : requireIn m.domain y = .ok () := requireIn_eq_ok_iff.mpr (not_not.mp hends)
  cases m with
  | constant c v =>
    cases h
    exact ⟨v,Except.check_eq_ok_iff.mpr ⟨hy,rfl⟩,rfl⟩
  | identity c =>
    cases h
    exact ⟨y,Except.check_eq_ok_iff.mpr ⟨hy,rfl⟩,rfl⟩
  | affine | embedding | composition =>
    obtain ⟨z,hz,h⟩ := Except.bind_eq_ok_iff.mp h
    cases h
    exact ⟨z,hz,rfl⟩

end Morphism

namespace Denotator
variable {g : FormGraph} {d e n new t u v w : Denotator} {c c' m r composed : Morphism}
  {h k : Head} {x : Element} {j : Nat} {path : List Nat}

theorem null_of_evaluate (hv : d.validate g = .ok ()) (he : d.evaluate x = .ok w) :
    ∀ n ∈ w.nodes, n.address = .null := by
  induction d using factor_induction generalizing w with
  | h d ih =>
    by_cases ha : d.address = .null
    · cases (evaluate_of_null ha).symm.trans he
      exact fun n hn => address_of_mem_nodes hv ha hn
    by_cases hc : d.morphism? = none
    · have hw := reworked_of_evaluate he hc ha
      refine forall_mem_nodes.mpr ⟨hw.address,fun f hf => ?_⟩
      obtain ⟨f',hf',hff⟩ := hw.exists_of_mem hf
      exact ih f' hf' (validate_of_mem_factors hv hf').1 hff
    · cases d with
      | limit | colimit | power | list => exact absurd rfl hc
      | simple h c =>
        obtain ⟨y,-,rfl⟩ := exists_of_evaluate_simple ha he
        simp only [nodes,List.mem_singleton,forall_eq]
        rfl

/-- Where nothing has an address nothing is moved. -/
theorem graft_of_replaceFrom (hd : ∀ n ∈ d.nodes, n.address = .null) (ha : new.address = .null)
    (hn : d.get path = .ok n) (ht : replaceFrom g new j path d = .ok t) :
    t = graft id new path d := by
  induction path generalizing d t j with
  | nil => exact (Except.ok.inj ht).symm
  | cons i path ih =>
    obtain ⟨f,hf,hnf⟩ := get_cons_eq_ok_iff.mp hn
    obtain ⟨b,hb,-⟩ := Except.bind_eq_ok_iff.mp ht
    rw [replaceFrom_cons (requireForm_eq_ok_iff.mp hb) (step_of_step hf j)] at ht
    obtain ⟨child,hchild,hstored⟩ := Except.bind_eq_ok_iff.mp ht
    have hdf := (forall_mem_nodes.mp hd).2 f (mem_factors_of_step hf)
    obtain rfl : child = graft id new path f := by
      split at hchild <;> rename_i hpath
      · obtain ⟨-,-,-,rfl⟩ := accept_eq_ok_iff.mp hchild
        rw [hpath]
        rfl
      · exact ih hdf hnf hchild
    have hgoes : (graft id new path f).address = .null :=
      (address_graft_id (.inl ha) hnf).elim id (·.trans (hdf f (self_mem_nodes f)))
    rw [fitUnder_of_goesWith (.inl hgoes)] at hstored
    rw [graft_cons hf]
    exact (Except.ok.inj hstored).symm

theorem graft_of_replace (hd : ∀ n ∈ d.nodes, n.address = .null) (ha : new.address = .null)
    (hn : d.get path = .ok n) (ht : d.replace g path new = .ok t) : t = graft id new path d := by
  cases path with
  | nil =>
    obtain ⟨-,ht⟩ := Except.check_eq_ok_iff.mp ht
    exact (Except.ok.inj ht).symm
  | cons i path => exact graft_of_replaceFrom hd ha hn ht

theorem evaluate_compose (hc : c.modulesProper) (hm : m.modulesProper) (hr : ¬ m.scalesReals)
    (hcomposed : m.compose c = .ok composed) (hu : (simple h composed).evaluate x = .ok u)
    (hw : (simple h c).evaluate x = .ok (simple k c')) (hc' : m.compose c' = .ok r) :
    u = simple k r := by
  by_cases hh : h.address = .null
  · have hsame (f : Morphism) : (simple h f).evaluate x = .ok (simple h f) := evaluate_of_null hh
    cases (hsame composed).symm.trans hu
    cases (hsame c).symm.trans hw
    cases hcomposed.symm.trans hc'
    rfl
  · obtain ⟨z,hz,rfl⟩ := exists_of_evaluate_simple hh hu
    obtain ⟨y,hy,hconstant⟩ := exists_of_evaluate_simple hh hw
    cases hconstant
    obtain ⟨z',hz',rfl⟩ := Morphism.exists_of_compose_constant hc'
    rw [Morphism.apply_compose hcomposed hm hc hr hz hy hz']

/-- The value of what is mapped at a leaf is what is mapped of the value. -/
theorem valueAt_map (hr : g.Reachable) (hv : d.validate g = .ok ())
    (hp : ∀ n ∈ d.nodes, ∀ f, n.morphism? = some f → f.modulesProper) (hm : m.modulesProper)
    (hreal : ¬ m.scalesReals) (hpath : d.AvoidsSets path) (he : d.map g path m = .ok e)
    (hu : e.valueAt x = .ok u) (hw : d.valueAt x = .ok w) (hmap : w.map g path m = .ok v) :
    u = v := by
  obtain ⟨h,c,composed,hget,-,hcomposed,he⟩ := exists_of_map he
  have haddress : (simple h composed).address = (simple h c).address := rfl
  obtain ⟨-,rfl⟩ :=
    (replace_eq_ok_iff_graft hr.sound.namesUnique hv hget (.inr haddress)).mp he
  have hwe := evaluate_of_valueAt hw
  obtain ⟨leaf,value,hleaf,hvalue,hgetw,-,rfl⟩ :=
    evaluate_graft hv hpath hget haddress hwe (evaluate_of_valueAt hu)
  obtain ⟨k,c',r,hgetw',-,hcomposed',hmap⟩ := exists_of_map hmap
  cases hgetw.symm.trans hgetw'
  have hnull := null_of_evaluate hv hwe
  have hk : (simple k r).address = .null := hnull (simple k c') (mem_nodes_of_get hgetw)
  have hc := hp _ (mem_nodes_of_get hget) c rfl
  rw [graft_of_replace hnull hk hgetw hmap,
    evaluate_compose hc hm hreal hcomposed hvalue hleaf hcomposed']

/-- Five times a class and three more, after the integers have been taken for classes and before. -/
theorem valueAt_map_chord :
    let chord (address : Module) (c : Morphism) : Denotator := .list ⟨⟨1⟩,none,address⟩
      [.simple ⟨⟨0⟩,none,.null⟩ (.constant .null (.zn 0 12)),.simple ⟨⟨0⟩,none,address⟩ c]
    let m : Morphism := .affine (.zn 12) (.zn 5 12) (.zn 3 12)
    let mapped := chord .z (.composition m (.embedding .z (.zn 12)))
    (chord .z (.embedding .z (.zn 12))).map motifs [1] m = .ok mapped ∧
    (chord .z (.embedding .z (.zn 12))).valueAt (.z 10) =
      .ok (chord .null (.constant .null (.zn 10 12))) ∧
    (chord .null (.constant .null (.zn 10 12))).map motifs [1] m =
      .ok (chord .null (.constant .null (.zn 5 12))) ∧
    mapped.valueAt (.z 10) = .ok (chord .null (.constant .null (.zn 5 12))) := by
  intro chord m mapped
  have hv : (chord .z (.embedding .z (.zn 12))).validate motifs = .ok () := by cbv
  have hp : ∀ n ∈ (chord .z (.embedding .z (.zn 12))).nodes,
      ∀ f, n.morphism? = some f → f.modulesProper := by
    intro n hn f hf
    simp only [chord,nodes,allNodes,List.cons_append,List.nil_append,List.mem_cons,
      List.not_mem_nil,or_false] at hn
    rcases hn with rfl | rfl | rfl <;> cases hf <;> decide
  have hpath : (chord .z (.embedding .z (.zn 12))).AvoidsSets [1] :=
    (avoidsSets_cons_iff rfl).mpr ⟨by decide,avoidsSets_nil _⟩
  have he : (chord .z (.embedding .z (.zn 12))).map motifs [1] m = .ok mapped := by cbv
  have hw : (chord .z (.embedding .z (.zn 12))).valueAt (.z 10) =
    .ok (chord .null (.constant .null (.zn 10 12))) := by cbv
  have hmap : (chord .null (.constant .null (.zn 10 12))).map motifs [1] m =
    .ok (chord .null (.constant .null (.zn 5 12))) := by cbv
  have hok : (mapped.valueAt (.z 10)).toOption.isSome := by cbv
  cases hu : mapped.valueAt (.z 10) with
  | error err => rw [hu] at hok; cases hok
  | ok u =>
    have huv := valueAt_map reachable_motifs hv hp (by decide) (by decide) hpath he hu hw hmap
    exact ⟨he,hw,hmap,congrArg Except.ok huv⟩

end Denotator
end AddressedForms
