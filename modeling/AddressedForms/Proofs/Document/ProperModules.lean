import AddressedForms.Proofs.Document.LeafResolution
import AddressedForms.Proofs.Document.Settling
set_option autoImplicit false

/-!
Named modules in a document whose other leaves may be out of range. What is named inside a module in
range is in range too; so such modules are read, whatever the others come to.
-/

namespace AddressedForms

namespace Resolution
variable {α : Type} {names : List String} {next : String → List String} {Holds : String → α → Prop}
  {build : Table (Resolution α) → String → Attempt α} {rank : String → Nat}

/-- Where dependencies descend, some names that need no others all have values, if building succeeds
for them. -/
theorem exists_value_of_closed (hr : ∀ n ∈ names, ∀ k ∈ next n, k ∈ names → rank k < rank n)
    (s : Symbol) {P : String → Prop}
    (hg : ∀ n ∈ names, P n → ∀ k ∈ next n, k ∈ names → P k)
    (hb : ∀ n ∈ names, P n → ∀ t, Ready names next Holds t n →
      ∃ v, (build t n).value? = some v ∧ Holds n v) {n : String} (hn : n ∈ names)
    (hgood : P n) :
    ∃ v, (settleAll s names next build).table.get? n = some (.value v) ∧ Holds n v := by
  have hcircular : circular names next = [] := by
    simp [circular,(order_spec hr).1]
  have hall : ∀ k ∈ names, P k → (settleAll s names next build).table.get? k = some .pending ∨
      ∃ v, (settleAll s names next build).table.get? k = some (.value v) ∧ Holds k v := by
    refine settleAll_induction s (I := fun p => ∀ k ∈ names, P k →
      p.table.get? k = some .pending ∨ ∃ v, p.table.get? k = some (.value v) ∧ Holds k v) ?_ ?_
    · intro k hk _
      exact .inl (by simp [get?_start,hcircular,hk])
    · intro p m _ hp ih k hk hgood
      simp only [Progress.push,Table.get?_insert]
      split <;> rename_i hkm
      · subst hkm
        have hready : Ready names next Holds p.table k := by
          refine ⟨fun j hj hm => ?_,fun j => (hp.keys j).mpr⟩
          exact (ih j hm (hg k hk hgood j hj hm)).resolve_left (hp.settled j hj)
        obtain ⟨v,hv,hvk⟩ := hb k hk hgood p.table hready
        exact .inr ⟨v,by rw [hv]; rfl,hvk⟩
      · exact ih k hk hgood
  exact (hall n hn hgood).resolve_left (get?_settleAll_ne_pending s n)

end Resolution

theorem Module.exists_proper_of_node {names : NamedLeaves} {m : Module} (h : m.isProper)
    {k : String} (hb : k ∈ (m.body names).referencesTagged "Module" →
      ∃ x, (x,k) ∈ names.modules ∧ x.isProper)
    (hk : k ∈ (m.node names).referencesTagged "Module") :
    ∃ x, (x,k) ∈ names.modules ∧ x.isProper :=
  ((writes_node names m).mem_referencesTagged hk).elim (fun hx => ⟨m,hx,h⟩) hb

theorem Module.exists_proper_of_body {names : NamedLeaves} {m : Module} (h : m.isProper)
    {k : String} (hk : k ∈ (m.body names).referencesTagged "Module") :
    ∃ x, (x,k) ∈ names.modules ∧ x.isProper := by
  induction m using Module.rec (motive_2 := fun fs => allProper fs →
    k ∈ Node.allReferencesTagged "Module" (nodes names fs) →
      ∃ x, (x,k) ∈ names.modules ∧ x.isProper) with
  | product fs ih =>
    rw [Node.referencesTagged_eq,reference?_body,children_body] at hk
    exact ih h hk
  | cons f fs ihf ihfs =>
    rename_i h hk
    simp only [allProper,Bool.and_eq_true] at h
    rw [show nodes names (f :: fs) = f.node names :: nodes names fs from rfl,
      Node.allReferencesTagged,List.mem_append] at hk
    rcases hk with hk | hk
    · exact exists_proper_of_node h.1 (ihf h.1) hk
    · exact ihfs h.2 hk
  | nil =>
    rename_i hk
    simp [nodes,Node.allReferencesTagged] at hk
  | _ =>
    rw [Node.referencesTagged_eq,reference?_body,children_body] at hk
    simp [Node.allReferencesTagged] at hk

namespace Manuscript

section LeafTables
variable {α : Type} {tag : String} {body : NamedLeaves → α → Node} {names : NamedLeaves}
  {named : List (α × String)} {t : Table Node}

theorem LeafTable.lookup_eq (h : LeafTable tag body names named t) (s : Symbol)
    (read : Table (Resolution α) → Node → Attempt α)
    (href : ∀ before x, (body before x).reference? = none) {P : α → Prop}
    (hg : ∀ before x, P x → before.Within names →
      ∀ k ∈ (body before x).referencesTagged tag, ∃ y, (y,k) ∈ named ∧ P y)
    (hread : ∀ r before x, P x → before.Within names →
      (∀ y k, (y,k) ∈ named → k ∈ (body before x).referencesTagged tag →
        Resolution.lookup s Leaves.nowhere r k = .success y) →
      read r (body before x) = .success x) {x : α} {name : String} (hx : (x,name) ∈ named)
    (hgood : P x) :
    Resolution.lookup s Leaves.nowhere (Resolution.settleAll s t.keys (Leaves.uses tag t) fun r =>
      Leaves.build t (Resolution.lookup s Leaves.nowhere r) (read r)).table name = .success x := by
  have hclosed : ∀ n ∈ t.keys, (∃ y, (y,n) ∈ named ∧ P y) → ∀ k ∈ Leaves.uses tag t n,
      k ∈ t.keys → ∃ y, (y,k) ∈ named ∧ P y := by
    rintro n - ⟨y,hy,hgood⟩ k hk -
    obtain ⟨before,hw,hnode⟩ := h.nodes y n hy
    exact hg before y hgood hw k (by simpa [Leaves.uses,hnode] using hk)
  have hbuild : ∀ n ∈ t.keys, (∃ y, (y,n) ∈ named ∧ P y) → ∀ r,
      Resolution.Ready t.keys (Leaves.uses tag t) (fun k v => (v,k) ∈ named) r n → ∃ v,
      (Leaves.build t (Resolution.lookup s Leaves.nowhere r) (read r) n).value? = some v ∧
        (v,n) ∈ named := by
    rintro n - ⟨y,hy,hgood⟩ r hready
    refine ⟨y,?_,hy⟩
    rw [h.build_eq s href hy hready fun before hw => hread r before y hgood hw]
    rfl
  obtain ⟨rank,hrank⟩ := h.layered
  obtain ⟨v,hv,hvn⟩ := Resolution.exists_value_of_closed (fun n _ k hk _ => hrank n k hk) s hclosed
    hbuild ((h.mem_keys name).mpr (List.mem_map_of_mem (f := Prod.snd) hx)) ⟨x,hx,hgood⟩
  rw [h.value_unique hx hvn]
  exact Resolution.lookup_of_value hv

end LeafTables

section Gathered
variable {es : List Entry} {m : Manuscript} {d : Definitions} (h : Gathered es m d)
include h

theorem Gathered.module_eq {x : Module} {name : String} (hx : (x,name) ∈ m.names.modules)
    (hp : x.isProper) :
    (Leaves.resolve .builtins d).1.meanings.module name = .success x := by
  refine h.modules.lookup_eq .module
    (fun t => Module.ofNode ⟨.builtins,some (Leaves.meanings ⟨t,.empty,.empty⟩)⟩)
    Module.reference?_body (P := fun x => x.isProper) (fun before x hp hw k hk => ?_)
    (fun r before x hp hw hl => ?_) hx hp
  · obtain ⟨y,hy,hyp⟩ := Module.exists_proper_of_body hp hk
    exact ⟨y,hw.modules hy,hyp⟩
  · exact Module.ofNode_body hp fun y k hy hk => hl y k (hw.modules hy) hk

theorem Gathered.ofNested_node {names : NamedLeaves} (hw : names.Within m.names) {x : Module}
    (hp : x.isProper) :
    Module.ofNested (.builtin (Leaves.resolve .builtins d).1.meanings) (x.node names) =
      .success x := by
  have hknown (y : Module) (k : String) (hy : (y,k) ∈ names.modules)
      (hk : ∃ v, (v,k) ∈ names.modules ∧ v.isProper) :
      (Leaves.resolve .builtins d).1.meanings.module k = .success y := by
    obtain ⟨v,hv,hvp⟩ := hk
    obtain rfl := h.modules.value_unique (hw.modules hy) (hw.modules hv)
    exact h.module_eq (hw.modules hy) hvp
  refine Module.ofNested_of_body (fun _ => Module.ofNode_body hp fun y k hy hk => ?_)
    fun y k hy hk => ?_
  · exact hknown y k hy (Module.exists_proper_of_body hp hk)
  · exact hknown y k hy (Module.exists_proper_of_node hp (Module.exists_proper_of_body hp) hk)

end Gathered
end Manuscript
end AddressedForms
