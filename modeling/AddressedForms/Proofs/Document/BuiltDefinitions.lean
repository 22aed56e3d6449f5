import AddressedForms.Proofs.Document.DocumentOrder
import AddressedForms.Proofs.Document.Sources
set_option autoImplicit false

/-!
The forms of any document, with errors or without. Every plan that is left becomes a form under a
number of its own, and there are no other new numbers.
-/

namespace AddressedForms

namespace FormExtension
variable {g : FormGraph} {ps : List FormPlan} {x : FormId}

/-- Some plans and the graph before them account for all numbers. -/
def Covers (g : FormGraph) (ps : List FormPlan) (b : FormExtension) : Prop :=
  ∀ x, b.graph.contains x → g.contains x ∨ ∃ p ∈ ps, b.ids.get? p.name = some x

theorem Covers.declare {b : FormExtension} {p : FormPlan} (h : Covers g ps b)
    (hp : p.name ∉ ps.map FormPlan.name) : Covers g (ps ++ [p]) (b.declare p) := by
  intro x hx
  have hsize : x.index < b.graph.size+1 := by
    simpa [FormGraph.contains,FormExtension.declare] using hx
  by_cases hlt : x.index < b.graph.size
  · refine (h x (decide_eq_true hlt)).imp_right ?_
    rintro ⟨q,hq,hid⟩
    refine ⟨q,by simp [hq],?_⟩
    have hne : q.name ≠ p.name := fun he => hp (he ▸ List.mem_map_of_mem hq)
    rw [FormExtension.declare,Table.get?_insert_of_ne _ _ hne,hid]
  · have hx : x = ⟨b.graph.size⟩ := FormId.ext_index (show x.index = b.graph.size by omega)
    exact .inr ⟨p,by simp,hx ▸ Table.get?_insert_self _ _ _⟩

theorem Covers.define {b : FormExtension} (h : Covers g ps b) (p : FormPlan) :
    Covers g ps (b.define p) := by
  unfold FormExtension.define
  split
  · split <;> rename_i hd
    · obtain ⟨name,labels,-,-,-,-,rfl⟩ := FormGraph.define_eq_ok_iff.mp hd
      intro x hx
      rw [FormGraph.contains_store] at hx
      exact h x hx
    · exact h
  · exact h

theorem covers_ofPlans (g : FormGraph) (hn : (ps.map FormPlan.name).Nodup) :
    Covers g ps (ofPlans g ps) := by
  have hdeclared : Covers g ps (ps.foldl declare ⟨g,.empty,[],[]⟩) := by
    induction ps using List.reverseRecOn with
    | nil => exact fun _ => .inl
    | append_singleton ps p ih =>
      rw [List.map_append,List.nodup_append] at hn
      rw [List.foldl_append]
      exact (ih hn.1).declare fun hp => hn.2.2 _ hp p.name (by simp) rfl
  have hdefined (qs : List FormPlan) (b : FormExtension) (h : Covers g ps b) :
      Covers g ps (qs.foldl FormExtension.define b) := by
    induction qs generalizing b with
    | nil => exact h
    | cons q qs ih => exact ih _ (h.define q)
  exact hdefined ps _ hdeclared

end FormExtension

namespace Definitions

def plans (v : Vocabulary) (c : Catalogue) (d : Definitions) : List FormPlan :=
  FormPlan.ofSketches (d.scope v) c d.forms

def extension (v : Vocabulary) (c : Catalogue) (g : FormGraph) (d : Definitions) :
    FormExtension := .ofPlans g (d.plans v c)

variable {root : Node} {d : Definitions} {g : FormGraph} {v : Vocabulary} {c : Catalogue}
  (hd : d.Drawn root) (hn : d.forms.names.Nodup)
  (hc : ∀ name id, c.forms.get? name = some id → g.contains id) {name : String} {id : FormId}
include hd hn hc

/-- Whatever is wrong with a document, all its plans become forms. -/
theorem closed_plans : FormPlan.Closed g (d.plans v c) := by
  refine FormPlan.closed_ofSketches hn (fun f hf hs => ?_) hc
  obtain ⟨top,n,name,kind,-,rfl⟩ := hd.forms f hf
  exact FormSketch.fit_ofNode hs

theorem extended : FormExtension.Extended g (d.plans v c) (d.extension v c g) :=
  (closed_plans hd hn hc).extended

theorem get?_built : (d.built v c g).table.get? name = some (.value id) ↔
    ∃ p ∈ d.plans v c, p.name = name ∧ (d.extension v c g).ids.get? name = some id := by
  have hsound : (d.extension v c g).sound (d.plans v c) = (d.plans v c).map FormPlan.name :=
    (closed_plans hd hn hc).sound_eq
  have hnames (hm : name ∈ (d.plans v c).map FormPlan.name) : name ∈ d.forms.names := by
    obtain ⟨p,hp,rfl⟩ := List.mem_map.mp hm
    obtain ⟨f,hf,hfp⟩ := FormPlan.mem_ofSketches hp
    obtain ⟨-,m,parts,-,-,rfl⟩ := FormPlan.ofSketch_eq_some hfp
    exact List.mem_map_of_mem hf
  let idOf := (d.extension v c g).idOf? (d.plans v c)
  have htable : (d.built v c g).table =
      .ofList (d.forms.names.map fun name => (name,.ofOption (idOf name))) :=
    BuiltForms.table_eq (d.scope v) c g d.forms
  have hid : idOf name = some id ↔ name ∈ (d.plans v c).map FormPlan.name ∧
      (d.extension v c g).ids.get? name = some id := by
    simp only [idOf,FormExtension.idOf?,hsound]
    split <;> simp_all
  have hget : (d.built v c g).table.get? name = some (.value id) ↔
      name ∈ d.forms.names ∧ idOf name = some id := by
    rw [htable,Table.get?_ofList_map _ fun name => Resolution.ofOption (idOf name)]
    split <;> rename_i hm
    · cases idOf name <;> simp [Resolution.ofOption,hm]
    · simp [hm]
  rw [hget,hid,List.mem_map]
  constructor
  · rintro ⟨-,⟨p,hp,hpn⟩,h⟩
    exact ⟨p,hp,hpn,h⟩
  · rintro ⟨p,hp,hpn,h⟩
    exact ⟨hnames (List.mem_map.mpr ⟨p,hp,hpn⟩),⟨p,hp,hpn⟩,h⟩

theorem exists_form (h : (d.built v c g).table.get? name = some (.value id)) :
    ∃ p ∈ d.plans v c, p.name = name ∧ ¬ g.contains id ∧
      ∃ f, (d.built v c g).graph.get? id = some f ∧
        FormExtension.Becomes g (d.extension v c g).ids (d.plans v c) p f := by
  obtain ⟨p,hp,rfl,hid⟩ := (get?_built hd hn hc).mp h
  exact ⟨p,hp,rfl,(extended hd hn hc).of_get? hp hid⟩

omit hd hc in
theorem top_names : ((d.built v c g).top.map Prod.fst).Nodup ∧ ∀ e ∈ (d.built v c g).top,
    (d.built v c g).table.get? e.1 = some (.value e.2) := by
  rw [top_built]
  refine ⟨hn.sublist (map_filterMap_sublist
    (fun f e he => (BuiltForms.topOf?_eq_some.mp he).2.1) _),fun e he => ?_⟩
  obtain ⟨f,-,hf⟩ := List.mem_filterMap.mp he
  obtain ⟨-,hname,hget⟩ := BuiltForms.topOf?_eq_some.mp hf
  exact hname ▸ hget

end Definitions
end AddressedForms
