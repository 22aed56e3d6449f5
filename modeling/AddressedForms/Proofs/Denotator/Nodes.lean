import AddressedForms.Denotator.Dependencies
import AddressedForms.Proofs.Form.Dependencies
set_option autoImplicit false

/-!
The nodes of a denotator. All kinds of composites have their factors treated alike, so what concerns
the tree is proved once for a node and its factors.
-/

namespace AddressedForms
namespace Denotator

mutual
def nodes : Denotator → List Denotator
  | .simple h m => [.simple h m]
  | .limit h ds => .limit h ds :: allNodes ds
  | .colimit h i d => .colimit h i d :: d.nodes
  | .power h ds => .power h ds :: allNodes ds
  | .list h ds => .list h ds :: allNodes ds
def allNodes : List Denotator → List Denotator
  | [] => []
  | d :: ds => d.nodes ++ allNodes ds
end

theorem factor_induction {P : Denotator → Prop} (h : ∀ d, (∀ f ∈ d.factors, P f) → P d)
    (d : Denotator) : P d := by
  induction d using Denotator.rec (motive_2 := fun ds => ∀ f ∈ ds, P f) with
  | simple k m => exact h _ (by simp [factors])
  | limit k ds ih | power k ds ih | list k ds ih => exact h _ ih
  | colimit k i d ih => exact h _ (by simpa [factors] using ih)
  | nil => simp at *
  | cons d ds ihd ihds =>
    rename_i f hf
    rcases List.mem_cons.mp hf with rfl | hf
    · exact ihd
    · exact ihds f hf

theorem nodes_eq (d : Denotator) : d.nodes = d :: allNodes d.factors := by
  cases d <;> simp [nodes,allNodes,factors]

theorem allNodes_eq (ds : List Denotator) : allNodes ds = ds.flatMap nodes := by
  induction ds with
  | nil => rfl
  | cons d ds ih => rw [allNodes,ih,List.flatMap_cons]

theorem self_mem_nodes (d : Denotator) : d ∈ d.nodes := by simp [nodes_eq]

theorem mem_allNodes {n : Denotator} {ds : List Denotator} :
    n ∈ allNodes ds ↔ ∃ d ∈ ds, n ∈ d.nodes := by simp [allNodes_eq]

theorem forall_mem_nodes {P : Denotator → Prop} {d : Denotator} :
    (∀ n ∈ d.nodes, P n) ↔ P d ∧ ∀ f ∈ d.factors, ∀ n ∈ f.nodes, P n := by
  rw [nodes_eq,List.forall_mem_cons]
  refine and_congr_right fun _ => ⟨fun h f hf n hn => h n (mem_allNodes.mpr ⟨f,hf,hn⟩),?_⟩
  intro h n hn
  obtain ⟨f,hf,hn⟩ := mem_allNodes.mp hn
  exact h f hf n hn

theorem mem_allNodes_of_mem {f : Denotator} {ds : List Denotator} (h : f ∈ ds) :
    f ∈ allNodes ds := mem_allNodes.mpr ⟨f,h,self_mem_nodes f⟩

theorem mem_nodes_of_mem_factors {f d : Denotator} (h : f ∈ d.factors) : f ∈ d.nodes := by
  rw [nodes_eq]
  exact List.mem_cons_of_mem d (mem_allNodes_of_mem h)

theorem nodes_trans {n d e : Denotator} (h : n ∈ d.nodes) (k : d ∈ e.nodes) : n ∈ e.nodes := by
  induction e using factor_induction with
  | h e ih =>
    rw [nodes_eq,List.mem_cons] at k
    rcases k with rfl | k
    · exact h
    · obtain ⟨f,hf,hk⟩ := mem_allNodes.mp k
      rw [nodes_eq]
      exact List.mem_cons_of_mem _ (mem_allNodes.mpr ⟨f,hf,ih f hf hk⟩)

theorem below_trans {n d e : Denotator} (h : n ∈ allNodes d.factors) (k : d ∈ e.nodes) :
    n ∈ allNodes e.factors := by
  rw [nodes_eq,List.mem_cons] at k
  rcases k with rfl | k
  · exact h
  · obtain ⟨f,hf,hk⟩ := mem_allNodes.mp k
    refine mem_allNodes.mpr ⟨f,hf,nodes_trans ?_ hk⟩
    rw [nodes_eq]
    exact List.mem_cons_of_mem _ h

theorem dependencies_eq (d : Denotator) (known : List Denotator) :
    d.dependencies known = remember d (allDependencies d.factors known) := by
  cases d <;> rfl

theorem formDependencies_eq (g : FormGraph) (d : Denotator) (known : List FormId) :
    d.formDependencies g known =
      g.dependencies d.form (allFormDependencies g d.factors known) := by
  cases d <;> rfl

/-- Every member follows the named nodes below it. -/
def Ordered (ds : List Denotator) : Prop :=
  ∀ l d, l ++ [d] <+: ds → ∀ n ∈ allNodes d.factors, n.name.isSome → n ∈ l

/-- What a list of dependencies gains by those of some trees. -/
structure Collects (ds known all : List Denotator) : Prop where
  grows : known <+: all
  ordered : Ordered known → Ordered all
  mem : ∀ n ∈ allNodes ds, n.name.isSome → n ∈ all
  sound : ∀ n ∈ all, n ∈ known ∨ (n ∈ allNodes ds ∧ n.name.isSome)

theorem Collects.nil (known : List Denotator) : Collects [] known known :=
  ⟨List.prefix_rfl,id,by simp [allNodes],fun _ h => .inl h⟩

theorem Collects.append {ds es known all more : List Denotator} (h : Collects ds known all)
    (k : Collects es all more) : Collects (ds ++ es) known more where
  grows := h.grows.trans k.grows
  ordered := fun ho => k.ordered (h.ordered ho)
  mem := by
    intro n hn hs
    rw [allNodes_eq,List.flatMap_append,List.mem_append,← allNodes_eq,← allNodes_eq] at hn
    rcases hn with hn | hn
    · exact k.grows.subset (h.mem n hn hs)
    · exact k.mem n hn hs
  sound := by
    intro n hn
    rw [allNodes_eq,List.flatMap_append,List.mem_append,← allNodes_eq,← allNodes_eq]
    rcases k.sound n hn with hn | hn
    · exact (h.sound n hn).imp_right fun hn => ⟨.inl hn.1,hn.2⟩
    · exact .inr ⟨.inr hn.1,hn.2⟩

theorem Collects.remember {d : Denotator} {known all : List Denotator}
    (h : Collects d.factors known all) : Collects [d] known (remember d all) := by
  have hnodes {n : Denotator} : n ∈ allNodes [d] ↔ n = d ∨ n ∈ allNodes d.factors := by
    simp [allNodes,nodes_eq d]
  unfold Denotator.remember
  split <;> rename_i hd
  · refine ⟨h.grows.trans (List.prefix_append _ _),
      fun ho => forall_prefix_append_single (h.ordered ho) h.mem,fun n hn hs => ?_,fun n hn => ?_⟩
    · rcases hnodes.mp hn with rfl | hn
      · simp
      · exact List.mem_append_left _ (h.mem n hn hs)
    · rcases List.mem_append.mp hn with hn | hn
      · exact (h.sound n hn).imp_right fun hn => ⟨hnodes.mpr (.inr hn.1),hn.2⟩
      · rw [List.mem_singleton.mp hn]
        exact .inr ⟨hnodes.mpr (.inl rfl),hd.1⟩
  · refine ⟨h.grows,h.ordered,fun n hn hs => ?_,fun n hn => ?_⟩
    · rcases hnodes.mp hn with rfl | hn
      · by_contra hc
        exact hd ⟨hs,hc⟩
      · exact h.mem n hn hs
    · exact (h.sound n hn).imp_right fun hn => ⟨hnodes.mpr (.inr hn.1),hn.2⟩

theorem collects_dependencies (d : Denotator) (known : List Denotator) :
    Collects [d] known (d.dependencies known) := by
  induction d using factor_induction generalizing known with
  | h d ih =>
    rw [dependencies_eq]
    refine Collects.remember ?_
    generalize d.factors = fs at ih ⊢
    induction fs generalizing known with
    | nil => exact .nil known
    | cons f fs ihfs =>
      have hf := ih f List.mem_cons_self known
      exact hf.append (ihfs _ fun e he => ih e (List.mem_cons_of_mem _ he))

theorem ordered_nil : Ordered [] := by
  intro l d h
  simp at h

/-- The forms of a tree are collected with all that they lead to. -/
theorem formDependencies_spec (g : FormGraph) (d : Denotator) {known : List FormId}
    (hk : g.ClosedUnder known) :
    known ⊆ d.formDependencies g known ∧ g.ClosedUnder (d.formDependencies g known) ∧
      ∀ n ∈ d.nodes, n.form ∈ d.formDependencies g known := by
  induction d using factor_induction generalizing known with
  | h d ih =>
    have all (fs : List Denotator) (hfs : ∀ f ∈ fs, f ∈ d.factors) {known : List FormId}
        (hk : g.ClosedUnder known) :
        known ⊆ allFormDependencies g fs known ∧
          g.ClosedUnder (allFormDependencies g fs known) ∧
          ∀ n ∈ allNodes fs, n.form ∈ allFormDependencies g fs known := by
      induction fs generalizing known with
      | nil => exact ⟨List.Subset.refl _,hk,by simp [allNodes]⟩
      | cons f fs ihfs =>
        obtain ⟨hf1,hf2,hf3⟩ := ih f (hfs f List.mem_cons_self) hk
        obtain ⟨h1,h2,h3⟩ := ihfs (fun e he => hfs e (List.mem_cons_of_mem _ he)) hf2
        refine ⟨List.Subset.trans hf1 h1,h2,fun n hn => ?_⟩
        rcases List.mem_append.mp hn with hn | hn
        · exact h1 (hf3 n hn)
        · exact h3 n hn
    obtain ⟨h1,h2,h3⟩ := all d.factors (fun _ h => h) hk
    have hd := g.dependencies_extends d.form h2
    rw [formDependencies_eq]
    refine ⟨List.Subset.trans h1 hd.grows.subset,hd.closed,fun n hn => ?_⟩
    rw [nodes_eq,List.mem_cons] at hn
    rcases hn with rfl | hn
    · exact hd.mem
    · exact hd.grows.subset (h3 n hn)

end Denotator
end AddressedForms
