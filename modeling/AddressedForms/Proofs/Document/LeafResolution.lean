import AddressedForms.Proofs.Document.Definitions
import AddressedForms.Proofs.Document.Resolution
set_option autoImplicit false

/-!
Leaf definitions that were written resolve without errors, each to the value of its name.
-/

namespace AddressedForms

structure NamedLeaves.Proper (names : NamedLeaves) : Prop where
  modules : ∀ x name, (x,name) ∈ names.modules → x.isProper
  elements : ∀ x name, (x,name) ∈ names.elements → x.isProper
  morphisms : ∀ x name, (x,name) ∈ names.morphisms → x.isProper

namespace Manuscript

section LeafTables
variable {α : Type} {tag : String} {body : NamedLeaves → α → Node} {names : NamedLeaves}
  {named : List (α × String)} {t : Table Node}

theorem LeafTable.value_unique (h : LeafTable tag body names named t) {x y : α} {name : String}
    (hx : (x,name) ∈ named) (hy : (y,name) ∈ named) : x = y :=
  congrArg Prod.fst (List.inj_on_of_nodup_map h.nodup hx hy rfl)

theorem LeafTable.mem_keys (h : LeafTable tag body names named t) (name : String) :
    name ∈ t.keys ↔ name ∈ named.map Prod.snd := by
  rw [← Table.contains_iff_mem_keys,h.keys]

theorem LeafTable.build_eq (h : LeafTable tag body names named t) (s : Symbol)
    {read : Table (Resolution α) → Node → Attempt α}
    (href : ∀ before x, (body before x).reference? = none) {x : α} {name : String}
    (hx : (x,name) ∈ named) {r : Table (Resolution α)}
    (hr : Resolution.Ready t.keys (Leaves.uses tag t) (fun k v => (v,k) ∈ named) r name)
    (hread : ∀ before, before.Within names →
      (∀ y k, (y,k) ∈ named → k ∈ (body before x).referencesTagged tag →
        Resolution.lookup s Leaves.nowhere r k = .success y) →
      read r (body before x) = .success x) :
    Leaves.build t (Resolution.lookup s Leaves.nowhere r) (read r) name = .success x := by
  obtain ⟨before,hw,hnode⟩ := h.nodes x name hx
  simp only [Leaves.build,hnode,href]
  refine hread before hw fun y k hy hk => ?_
  have huse : k ∈ Leaves.uses tag t name := by simpa [Leaves.uses,hnode] using hk
  obtain ⟨v,hv,hvk⟩ := hr.uses k huse ((h.mem_keys k).mpr (h.uses name k huse))
  rw [h.value_unique hy hvk]
  exact Resolution.lookup_of_value hv

/-- A table of leaves resolves if their nodes read back wherever the names in them do. -/
theorem LeafTable.settleAll (h : LeafTable tag body names named t) (s : Symbol)
    (read : Table (Resolution α) → Node → Attempt α)
    (href : ∀ before x, (body before x).reference? = none)
    (hread : ∀ r before x name, (x,name) ∈ named → before.Within names →
      (∀ y k, (y,k) ∈ named → k ∈ (body before x).referencesTagged tag →
        Resolution.lookup s Leaves.nowhere r k = .success y) →
      read r (body before x) = .success x) :
    let p := Resolution.settleAll s t.keys (Leaves.uses tag t) fun r =>
      Leaves.build t (Resolution.lookup s Leaves.nowhere r) (read r)
    p.reports = [] ∧ ∀ x name, (x,name) ∈ named →
      Resolution.lookup s Leaves.nowhere p.table name = .success x := by
  intro p
  obtain ⟨rank,hrank⟩ := h.layered
  have hr : ∀ n ∈ t.keys, ∀ k ∈ Leaves.uses tag t n, k ∈ t.keys → rank k < rank n :=
    fun n _ k hk _ => hrank n k hk
  have hbuild : ∀ n ∈ t.keys, ∀ r,
      Resolution.Ready t.keys (Leaves.uses tag t) (fun k v => (v,k) ∈ named) r n →
      ∃ v, Leaves.build t (Resolution.lookup s Leaves.nowhere r) (read r) n = .success v ∧
        (v,n) ∈ named := by
    intro n hn r hready
    obtain ⟨⟨x,n⟩,hx,rfl⟩ := List.mem_map.mp ((h.mem_keys n).mp hn)
    exact ⟨x,h.build_eq s href hx hready fun before hw => hread r before x n hx hw,hx⟩
  obtain ⟨hclean,hvalues,-⟩ := Resolution.settleAll_clean hr s hbuild
  refine ⟨hclean,fun x name hx => ?_⟩
  obtain ⟨v,hv,hvn⟩ :=
    hvalues name ((h.mem_keys name).mpr (List.mem_map_of_mem (f := Prod.snd) hx))
  rw [h.value_unique hx hvn]
  exact Resolution.lookup_of_value hv

end LeafTables

theorem Gathered.resolve {es : List Entry} {m : Manuscript} {d : Definitions}
    (h : Gathered es m d) (hp : m.names.Proper) :
    (Leaves.resolve .builtins d).2 = [] ∧
      (Leaves.resolve .builtins d).1.meanings.Knows m.names := by
  obtain ⟨hmr,hm⟩ := h.modules.settleAll .module
    (fun t => Module.ofNode ⟨.builtins,some (Leaves.meanings ⟨t,.empty,.empty⟩)⟩)
    Module.reference?_body fun r before x name hx hw hl =>
      Module.ofNode_body (hp.modules x name hx) fun y k hy hk => hl y k (hw.modules hy) hk
  set ms := (Leaves.resolveModules .builtins d.modules).table with hms
  obtain ⟨her,he⟩ := h.elements.settleAll .element
    (fun t => Element.ofNode ⟨.builtins,some (Leaves.meanings ⟨ms,t,.empty⟩)⟩)
    Element.reference?_body fun r before x name hx hw hl =>
      Element.ofNode_body (hp.elements x name hx) fun y k hy hk => hl y k (hw.elements hy) hk
  set xs := (Leaves.resolveElements .builtins d.elements ms).table with hxs
  obtain ⟨hfr,hf⟩ := h.morphisms.settleAll .morphism
    (fun t => Morphism.ofNode ⟨.builtins,some (Leaves.meanings ⟨ms,xs,t⟩)⟩)
    Morphism.reference?_body fun r before x name hx hw hl =>
      Morphism.ofNode_body (fun y k hy => hm y k (hw.modules hy))
        (fun y k hy => he y k (hw.elements hy)) (hp.morphisms x name hx)
        fun y k hy hk => hl y k (hw.morphisms hy) hk
  refine ⟨?_,⟨hm,he,hf⟩⟩
  show _ ++ _ ++ _ = []
  rw [List.append_eq_nil_iff,List.append_eq_nil_iff]
  exact ⟨⟨hmr,her⟩,hfr⟩

end Manuscript
end AddressedForms
