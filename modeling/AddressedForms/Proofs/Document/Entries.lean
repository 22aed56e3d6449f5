import AddressedForms.Proofs.Document.DenotatorNodes
import AddressedForms.Proofs.Document.FormNodes
import AddressedForms.Proofs.Document.LeafTables
set_option autoImplicit false

/-!
The entries of a manuscript and their names: what is written under a name is just what was entered
under it, once, and refers to what was entered as well.
-/

namespace AddressedForms
namespace Entry

def form? : Entry → Option FormId
  | .form id => some id
  | _ => none

def denotator? : Entry → Option Denotator
  | .denotator d => some d
  | _ => none

theorem mem_filterMap_form? {es : List Entry} {id : FormId} :
    id ∈ es.filterMap form? ↔ .form id ∈ es := by
  rw [List.mem_filterMap]
  constructor
  · rintro ⟨e,he,h⟩
    cases e <;> cases h
    exact he
  · exact fun h => ⟨_,h,rfl⟩

theorem mem_filterMap_denotator? {es : List Entry} {d : Denotator} :
    d ∈ es.filterMap denotator? ↔ .denotator d ∈ es := by
  rw [List.mem_filterMap]
  constructor
  · rintro ⟨e,he,h⟩
    cases e <;> cases h
    exact he
  · exact fun h => ⟨_,h,rfl⟩

theorem filter_denotator? (es : List Entry) :
    (es.filterMap denotator?).filter (·.name.isNone) = es.filterMap anonymous? := by
  induction es with
  | nil => rfl
  | cons e es ih =>
    cases e with
    | denotator d =>
      cases hd : d.name <;>
        simp [denotator?,anonymous?,hd,← ih]
    | _ => exact ih

theorem mem_filterMap_anonymous? {es : List Entry} {d : Denotator} :
    d ∈ es.filterMap anonymous? ↔ .denotator d ∈ es ∧ d.name = none := by
  rw [← filter_denotator?,List.mem_filter,mem_filterMap_denotator?,Option.isNone_iff_eq_none]

end Entry

namespace Manuscript

section Compiled
variable {g : FormGraph} {es : List Entry} {m : Manuscript}

theorem Compiled.writtenForms_iff (h : Compiled g es m) (name : String) (id : FormId) :
    m.writtenForms.get? name = some id ↔
      .form id ∈ es ∧ ∃ f, g.get? id = some f ∧ f.name = name := by
  induction h with
  | empty => simp [Manuscript.empty]
  | @snoc es m k e hm hs ih =>
    have hmem : .form id ∈ es ++ [e] ↔ .form id ∈ es ∨ e = .form id := by
      rw [List.mem_append,List.mem_singleton,eq_comm]
    cases hs with
    | @form id' f n hf hnew hn =>
      rw [hm.forms_eq] at hf
      simp only [Table.get?_insert,hmem,Entry.form.injEq]
      by_cases hname : name = f.name
      · subst hname
        rw [if_pos rfl]
        constructor
        · intro h
          cases h
          exact ⟨.inr rfl,f,hf,rfl⟩
        · rintro ⟨hin | rfl,f',hf',hn'⟩
          · have := ih.mpr ⟨hin,f',hf',hn'⟩
            rw [hnew] at this
            contradiction
          · rfl
      · rw [if_neg hname,ih]
        constructor
        · exact fun h => ⟨.inl h.1,h.2⟩
        · rintro ⟨hin | rfl,f',hf',hn'⟩
          · exact ⟨hin,f',hf',hn'⟩
          · cases hf.symm.trans hf'
            exact absurd hn'.symm hname
    | _ => simpa [push] using ih

theorem Compiled.writtenDenotators_iff (h : Compiled g es m) (name : String) (d : Denotator) :
    m.writtenDenotators.get? name = some d ↔ .denotator d ∈ es ∧ d.name = some name := by
  induction h with
  | empty => simp [Manuscript.empty]
  | @snoc es m k e hm hs ih =>
    have hmem : .denotator d ∈ es ++ [e] ↔ .denotator d ∈ es ∨ e = .denotator d := by
      rw [List.mem_append,List.mem_singleton,eq_comm]
    cases hs with
    | @named d' name' n hname' hnew hn hr =>
      simp only [Table.get?_insert,hmem,Entry.denotator.injEq]
      by_cases hname : name = name'
      · subst hname
        rw [if_pos rfl]
        constructor
        · intro h
          cases h
          exact ⟨.inr rfl,hname'⟩
        · rintro ⟨hin | rfl,hd⟩
          · have := ih.mpr ⟨hin,hd⟩
            rw [hnew] at this
            contradiction
          · rfl
      · rw [if_neg hname,ih]
        constructor
        · exact fun h => ⟨.inl h.1,h.2⟩
        · rintro ⟨hin | rfl,hd⟩
          · exact ⟨hin,hd⟩
          · cases hname'.symm.trans hd
            exact absurd rfl hname
    | @anonymous d' n hname' hn hr =>
      simp only [push,hmem,Entry.denotator.injEq,ih]
      constructor
      · exact fun h => ⟨.inl h.1,h.2⟩
      · rintro ⟨hin | rfl,hd⟩
        · exact ⟨hin,hd⟩
        · rw [hname'] at hd
          contradiction
    | _ => simpa [push] using ih

theorem Compiled.defined_iff (h : Compiled g es m) (r : Symbol × String) :
    r ∈ m.defined ↔ m.names.Has r := by
  obtain ⟨s,name⟩ := r
  induction h with
  | empty => cases s <;> simp [Manuscript.empty,NamedLeaves.empty,NamedLeaves.Has]
  | @snoc es m k e hm hs ih =>
    cases hs with
    | form | named | anonymous => exact ih
    | module hnew | element hnew | morphism hnew =>
      cases s <;> simp_all [NamedLeaves.Has]

theorem Compiled.get?_of_mem (h : Compiled g es m) {id : FormId} (hid : .form id ∈ es) :
    ∃ f, g.get? id = some f := by
  induction h with
  | empty => simp at hid
  | @snoc es m k e hm hs ih =>
    rcases List.mem_append.mp hid with hid | he
    · exact ih hid
    · cases List.mem_singleton.mp he
      cases hs with
      | form hf hnew hn => exact ⟨_,by rwa [← hm.forms_eq]⟩

theorem Compiled.nodup_formNames (h : Compiled g es m) :
    ((es.filterMap Entry.form?).map g.name?).Nodup := by
  induction h with
  | empty => exact .nil
  | @snoc es m k e hm hs ih =>
    cases hs with
    | @form id f n hf hnew hn =>
      rw [hm.forms_eq] at hf
      rw [filterMap_append_single,List.map_append,List.nodup_append]
      refine ⟨ih,by simp [Entry.form?],fun a ha b hb he => ?_⟩
      obtain ⟨id',hid,rfl⟩ := List.mem_map.mp ha
      obtain rfl : b = some f.name := by simpa [Entry.form?,FormGraph.name?_of_get? hf] using hb
      have hid := Entry.mem_filterMap_form?.mp hid
      obtain ⟨f',hf'⟩ := hm.get?_of_mem hid
      have hname : f'.name = f.name := by simpa [FormGraph.name?_of_get? hf'] using he
      have := (hm.writtenForms_iff f.name id').mpr ⟨hid,f',hf',hname⟩
      rw [hnew] at this
      contradiction
    | _ => rwa [filterMap_append_of_none rfl]

def namesBelow (m : Manuscript) (name : String) : List String :=
  match m.writtenDenotators.get? name with
  | some d => (Denotator.allNodes d.factors).filterMap Denotator.name
  | none => []

theorem contains_of_mem_namesBelow_of_isReady {d : Denotator} (hr : m.IsReady (.denotator d))
    {k : String} (hk : k ∈ (Denotator.allNodes d.factors).filterMap Denotator.name) :
    m.writtenDenotators.contains k := by
  obtain ⟨n,hn,hname⟩ := List.mem_filterMap.mp hk
  obtain ⟨held,hheld,-⟩ := hr n hn k hname
  exact Table.contains_of_get? hheld

theorem Compiled.contains_of_mem_namesBelow (h : Compiled g es m) {name k : String}
    (hk : k ∈ m.namesBelow name) : m.writtenDenotators.contains k := by
  induction h with
  | empty => simp [namesBelow,Manuscript.empty] at hk
  | @snoc es m l e hm hs ih =>
    cases hs with
    | @named d name' n hname hnew hn hr =>
      rw [Table.contains,Table.get?_insert]
      split
      · rfl
      · rw [← Table.contains]
        simp only [namesBelow,Table.get?_insert] at hk
        split at hk <;> rename_i hx
        · split at hx
          · cases hx
            exact contains_of_mem_namesBelow_of_isReady hr hk
          · exact ih (by simpa [namesBelow,hx] using hk)
        · simp at hk
    | _ => exact ih hk

theorem Compiled.layered_namesBelow (h : Compiled g es m) : Layered m.namesBelow := by
  induction h with
  | empty => exact layered_empty fun _ => by simp [namesBelow,Manuscript.empty]
  | @snoc es m l e hm hs ih =>
    cases hs with
    | @named d name n hname hnew hn hr =>
      refine @Layered.update _ _ ih name (fun k hk => ?_) fun k hk => ?_
      · simp [namesBelow,Table.get?_insert_of_ne _ _ hk]
      · have hold : ¬ m.writtenDenotators.contains name := by simp [Table.contains,hnew]
        simp only [namesBelow,Table.get?_insert] at hk
        split at hk <;> rename_i hx
        · split at hx
          · cases hx
            exact hold (contains_of_mem_namesBelow_of_isReady hr hk)
          · have hk : name ∈ m.namesBelow k := by simpa [namesBelow,hx] using hk
            exact hold (hm.contains_of_mem_namesBelow hk)
        · simp at hk
    | _ => exact ih

/-- What the nodes of a manuscript may refer to when some entries have been made. -/
def Mentions (g : FormGraph) (es : List Entry) (m : Manuscript) : Symbol × String → Prop
  | (.form,k) => (∃ id, .form id ∈ es ∧ ∃ sub ∈ g.subForms id, g.name? sub = some k) ∨
    ∃ d, .denotator d ∈ es ∧ ∃ n ∈ d.nodes, g.name? n.form = some k
  | (.denotator,k) => m.writtenDenotators.contains k
  | r => m.names.Has r

theorem mentions_of_has {r : Symbol × String} (h : m.names.Has r) : Mentions g es m r := by
  obtain ⟨s,k⟩ := r
  cases s <;> first | exact h | exact h.elim

theorem Mentions.mono {es' : List Entry} {k : Manuscript} {r : Symbol × String}
    (hr : Mentions g es m r) (he : es ⊆ es') (hp : m.Precedes k) : Mentions g es' k r := by
  obtain ⟨s,name⟩ := r
  cases s with
  | form =>
    rcases hr with ⟨id,hid,hs⟩ | ⟨d,hd,hn⟩
    · exact .inl ⟨id,he hid,hs⟩
    · exact .inr ⟨d,he hd,hn⟩
  | denotator =>
    obtain ⟨d,hd⟩ := Table.exists_of_contains hr
    exact Table.contains_of_get? (hp.writtenDenotators _ _ hd)
  | module => exact @NamedLeaves.Has.mono _ _ hp.within (.module,name) hr
  | element => exact @NamedLeaves.Has.mono _ _ hp.within (.element,name) hr
  | morphism => exact @NamedLeaves.Has.mono _ _ hp.within (.morphism,name) hr

theorem references_definition {tag name : String} {body : Node} (ht : tag ≠ "Denotator") :
    (definition tag name body).references = body.references := by
  have hown : (definition tag name body).ownReferences = [] :=
    Node.ownReferences_eq_nil (by simp [definition,Node.reference?,Node.attr?_withAttr])
      (by simpa [definition] using ht)
  rw [Node.references_eq,hown,Node.allReferences_eq]
  simp [definition]

/-- Step lemma: a node refers to parts of its own entry and to what was written before it. -/
theorem Step.mentions {k : Manuscript} {e : Entry} (h : Step m e k) {n : Node}
    (hn : k.nodes = m.nodes ++ [n]) {r : Symbol × String} (hr : r ∈ n.references) :
    Mentions m.forms [e] m r := by
  cases h with
  | @form id f c hf hnew hc =>
    obtain rfl : c = n := by simpa [push] using hn
    rcases mem_references_formNode hc hr with ⟨sub,hsub,name,hname,rfl⟩ | hl
    · exact .inl ⟨id,by simp,sub,by rwa [FormGraph.subForms_of_get? hf],hname⟩
    · exact mentions_of_has hl
  | @named d name c hname hnew hc hready | @anonymous d c hname hc hready =>
    obtain rfl : c = n := by simpa [push] using hn
    rcases mem_references_nodeOf hc hr with ⟨x,hx,name,hform,rfl⟩ | ⟨x,hx,name,hbelow,rfl⟩ | hl
    · exact .inr ⟨d,by simp,x,hx,hform⟩
    · obtain ⟨held,hheld,-⟩ := hready x hx name hbelow
      exact Table.contains_of_get? hheld
    · exact mentions_of_has hl
  | module hnew =>
    obtain rfl : definition _ _ _ = n := by simpa [push] using hn
    rw [references_definition (by decide)] at hr
    exact mentions_of_has ((Module.written_body _ _).has_references _ hr)
  | element hnew =>
    obtain rfl : definition _ _ _ = n := by simpa [push] using hn
    rw [references_definition (by decide)] at hr
    exact mentions_of_has ((Element.written_body _ _).has_references _ hr)
  | morphism hnew =>
    obtain rfl : definition _ _ _ = n := by simpa [push] using hn
    rw [references_definition (by decide)] at hr
    exact mentions_of_has ((Morphism.written_body _ _).has_references _ hr)

theorem Compiled.mentions (h : Compiled g es m) {n : Node} (hn : n ∈ m.nodes)
    {r : Symbol × String} (hr : r ∈ n.references) : Mentions g es m r := by
  induction h with
  | empty => simp [Manuscript.empty] at hn
  | @snoc es m k e hm hs ih =>
    obtain ⟨c,hc⟩ := hs.exists_node
    rw [hc,List.mem_append,List.mem_singleton] at hn
    rcases hn with hn | rfl
    · exact (ih hn).mono (List.subset_append_left _ _) hs.precedes
    · exact (hm.forms_eq ▸ hs.mentions hc hr).mono (List.subset_append_right _ _) hs.precedes

end Compiled

/-- What the references of a finished manuscript stand for. -/
def Means (m : Manuscript) : Symbol × String → Prop
  | (.form,k) => m.writtenForms.contains k
  | (.denotator,k) => m.writtenDenotators.contains k
  | r => m.names.Has r

theorem HasForm.contains {m : Manuscript} {id : FormId} (h : m.HasForm id) {name : String}
    (hn : m.forms.name? id = some name) : m.writtenForms.contains name := by
  obtain ⟨f,held,hf,hheld,-⟩ := h
  rw [FormGraph.name?_of_get? hf] at hn
  cases hn
  exact Table.contains_of_get? hheld

theorem Compiled.means {g : FormGraph} {es : List Entry} {m : Manuscript} (h : Compiled g es m)
    (hc : Complete g es m) {r : Symbol × String} (hr : r ∈ m.node.references) : m.Means r := by
  have hown : m.node.ownReferences = [] :=
    Node.ownReferences_eq_nil (by simp [node,Node.reference?,Node.attr?_withAttr]) (by simp [node])
  rw [Node.references_eq,hown,Node.allReferences_eq] at hr
  obtain ⟨n,hn,hr⟩ := List.mem_flatMap.mp hr
  have hm := h.mentions hn hr
  obtain ⟨s,name⟩ := r
  have hg := h.forms_eq
  cases s with
  | form =>
    rcases hm with ⟨id,hid,sub,hs,hname⟩ | ⟨d,hd,n,hn,hname⟩
    · exact (hc.forms id hid sub hs).contains (hg ▸ hname)
    · exact (hc.denotators d hd n hn).contains (hg ▸ hname)
  | denotator | module | element | morphism => exact hm

end Manuscript
end AddressedForms
