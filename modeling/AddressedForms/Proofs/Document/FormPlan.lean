import AddressedForms.Proofs.Document.Definitions
import AddressedForms.Proofs.Document.FormExtension
set_option autoImplicit false

/-!
The plan of a written form, and the form that becomes of it: the same form, up to the ids that the
names of its sub-forms stand for.
-/

namespace AddressedForms

theorem Labels.ext_names {l l' : Labels} (h : l.names = l'.names) : l = l' := by
  cases l; cases l'; cases h; rfl

theorem FormGraph.labelsFor?_of_fits {name : String} {body : Body} {ls : Option Labels}
    (h : ∀ l, ls = some l → (body.kind = .limit ∨ body.kind = .colimit) ∧
      l.names.length = body.subForms.length) :
    labelsFor? name body (ls.map Labels.names) = .ok ls := by
  cases ls with
  | none => rfl
  | some l =>
    obtain ⟨hk,hlen⟩ := h l rfl
    have hof : Labels.ofList? l.names = some l := by simp [Labels.ofList?,l.distinct]
    have hfor : labelsFor name body l.names = .ok l := by
      cases body with
      | limit fs | colimit fs =>
        have : fs.length = l.names.length := hlen.symm
        simp only [labelsFor,if_pos this,hof]
      | simple | power | list => simp [Body.kind] at hk
    simp [labelsFor?,hfor,Except.map]

namespace FormPlan
variable {g : FormGraph} {f : Form} {p : FormPlan} {ids : Table FormId}

/-- A plan of all that a form is, with names for its sub-forms. -/
structure Plans (g : FormGraph) (f : Form) (p : FormPlan) : Prop where
  name : p.name = f.name
  kind : p.kind = f.kind
  module : p.module = f.module?
  parts : List.Forall₂ (fun id t => ∃ k, g.name? id = some k ∧ t = .sketched k) f.subForms p.parts
  labels : p.labels = f.labels.map Labels.names

def Stands (g : FormGraph) (ids : Table FormId) (a b : FormId) : Prop :=
  ∃ k, g.name? a = some k ∧ ids.get? k = some b

theorem Plans.related (h : Plans g f p) {body : Body} (hb : p.body? ids = some body) :
    f.body.Related (Stands g ids) body := by
  obtain ⟨subs,hsubs,hb⟩ := Option.bind_eq_some_iff.mp hb
  have hforall : List.Forall₂ (Stands g ids) f.subForms subs := by
    refine (forall₂_comp h.parts (mapM_eq_some_iff.mp hsubs)).imp fun a b hab => ?_
    obtain ⟨t,⟨k,hk,rfl⟩,ht⟩ := hab
    exact ⟨k,hk,ht⟩
  have hk := h.kind
  have hm := h.module
  obtain ⟨name,c,labels,registered⟩ := f
  cases c with
  | simple x =>
    simp only [Form.kind,Body.kind,Form.module?] at hk hm
    simp only [hk,hm,Option.some.injEq] at hb
    cases hb
    exact ⟨rfl,rfl,.nil⟩
  | limit fs | colimit fs =>
    simp only [Form.kind,Body.kind] at hk
    simp only [hk,Option.some.injEq] at hb
    cases hb
    exact ⟨rfl,rfl,hforall⟩
  | power x | list x =>
    simp only [Form.kind,Body.kind] at hk
    cases hforall with
    | cons hxy hnil =>
      cases hnil
      simp only [hk,Option.some.injEq] at hb
      cases hb
      exact ⟨rfl,rfl,.cons hxy .nil⟩

structure Fit (p : FormPlan) : Prop where
  module : p.kind = .simple → p.module.isSome
  parts : FormSketch.countFits p.kind p.parts.length
  labels : ∃ ls : Option Labels, p.labels = ls.map Labels.names ∧
    ∀ l, ls = some l → (p.kind = .limit ∨ p.kind = .colimit) ∧ l.names.length = p.parts.length

structure BodyOf (ids : Table FormId) (p : FormPlan) (b : Body) : Prop where
  kind : b.kind = p.kind
  module : b.module? = if p.kind = .simple then p.module else none
  subForms : List.Forall₂ (fun t id => t.id? ids = some id)
    (if p.kind = .simple then [] else p.parts) b.subForms

theorem Fit.bodyOf (h : p.Fit) {b : Body} (hb : p.body? ids = some b) : BodyOf ids p b := by
  obtain ⟨subs,hsubs,hb⟩ := Option.bind_eq_some_iff.mp hb
  have hids := mapM_eq_some_iff.mp hsubs
  have hparts := h.parts
  cases hk : p.kind <;> simp only [hk,FormSketch.countFits,decide_eq_true_eq] at hb hparts
  · cases hm : p.module with
    | none => simp [hm] at hb
    | some m =>
      simp only [hm,Option.some.injEq] at hb
      subst hb
      exact ⟨by simp [hk,Body.kind],by simp [hk,hm,Body.module?],by simp [hk,Body.subForms]⟩
  · cases hb
    exact ⟨by simp [hk,Body.kind],by simp [hk,Body.module?],by simpa [hk,Body.subForms] using hids⟩
  · cases hb
    exact ⟨by simp [hk,Body.kind],by simp [hk,Body.module?],by simpa [hk,Body.subForms] using hids⟩
  all_goals
    obtain ⟨t,ht⟩ := List.length_eq_one_iff.mp hparts
    rw [ht] at hids
    obtain ⟨id,_,hid,hnil,rfl⟩ := List.forall₂_cons_left_iff.mp hids
    cases hnil
    cases hb
    exact ⟨by simp [hk,Body.kind],by simp [hk,Body.module?],
      by simpa [hk,ht,Body.subForms] using hid⟩

theorem Fit.exists_body? (h : p.Fit) (hids : ∀ t ∈ p.parts, ∃ id, t.id? ids = some id) :
    ∃ b, p.body? ids = some b := by
  obtain ⟨subs,hsubs⟩ := exists_forall₂ hids
  have hlen := hsubs.length_eq
  have hmap := mapM_eq_some_iff.mpr hsubs
  have hparts := h.parts
  cases hk : p.kind <;> simp only [hk,FormSketch.countFits,decide_eq_true_eq] at hparts
  · obtain ⟨m,hm⟩ := Option.isSome_iff_exists.mp (h.module hk)
    exact ⟨.simple m,by simp [body?,hmap,hk,hm]⟩
  · exact ⟨.limit subs,by simp [body?,hmap,hk]⟩
  · exact ⟨.colimit subs,by simp [body?,hmap,hk]⟩
  all_goals
    obtain ⟨id,rfl⟩ := List.length_eq_one_iff.mp (hlen.symm.trans hparts)
    simp [body?,hmap,hk]

/-- A plan that fits becomes a form, when its parts are planned or issued already. -/
theorem Fit.becomes (h : p.Fit) {ps : List FormPlan} (hids : ∀ q ∈ ps, ids.contains q.name)
    (hs : ∀ t ∈ p.parts, (∃ q ∈ ps, t = .sketched q.name) ∨
      ∃ id, t = .catalogued id ∧ g.contains id) :
    ∃ f, FormExtension.Becomes g ids ps p f := by
  obtain ⟨body,hb⟩ := h.exists_body? fun t ht => by
    rcases hs t ht with ⟨q,hq,rfl⟩ | ⟨id,rfl,-⟩
    · exact Table.exists_of_contains (hids q hq)
    · exact ⟨id,rfl⟩
  obtain ⟨hkind,-,hsubs⟩ := h.bodyOf hb
  obtain ⟨ls,hlabels,hfits⟩ := h.labels
  have hlen (hk : p.kind ≠ .simple) : body.subForms.length = p.parts.length := by
    rw [if_neg hk] at hsubs
    exact hsubs.length_eq.symm
  refine ⟨⟨p.name,body,ls,false⟩,rfl,hkind,hb,?_,rfl,fun hnil => ?_,fun sub hsub => ?_⟩
  · rw [hlabels]
    refine FormGraph.labelsFor?_of_fits fun l hl => ?_
    obtain ⟨hk,hcount⟩ := hfits l hl
    exact ⟨hkind ▸ hk,hcount.trans (hlen (by rcases hk with hk | hk <;> simp [hk])).symm⟩
  · by_contra hk
    have hk : p.kind ≠ .simple := hkind ▸ hk
    have hzero := hlen hk
    have hparts := h.parts
    rw [show body.subForms = [] from hnil,List.length_nil] at hzero
    rw [← hzero] at hparts
    cases hp : p.kind <;> simp_all [FormSketch.countFits]
  · obtain ⟨t,ht,hid⟩ := exists_of_forall₂_right hsubs hsub
    have ht : t ∈ p.parts := by
      split at ht
      · simp at ht
      · exact ht
    rcases hs t ht with ⟨q,hq,rfl⟩ | ⟨id,rfl,hc⟩
    · exact .inl ⟨q,hq,hid⟩
    · cases hid
      exact .inr hc

theorem Plans.fit (h : Plans g f p) (hne : f.subForms = [] → f.kind = .simple)
    (hl : ∀ l, f.labels = some l → (f.kind = .limit ∨ f.kind = .colimit) ∧
      l.names.length = f.count) : p.Fit := by
  have hlen : f.count = p.parts.length := h.parts.length_eq
  refine ⟨fun hk => ?_,?_,f.labels,h.labels,fun l hlab => ?_⟩
  · rw [h.kind] at hk
    rw [h.module]
    obtain ⟨name,c,labels,registered⟩ := f
    cases c <;> first | rfl | cases hk
  · rw [h.kind,← hlen]
    clear hlen h hl
    obtain ⟨name,c,labels,registered⟩ := f
    cases c <;> simp_all [Form.kind,Form.count,Form.subForms,Body.kind,Body.subForms,
      FormSketch.countFits]
  · rw [h.kind,← hlen]
    exact hl l hlab

theorem Plans.becomes (h : Plans g f p) {ps : List FormPlan}
    (hids : ∀ q ∈ ps, ids.contains q.name)
    (hs : ∀ sub ∈ f.subForms, ∃ q ∈ ps, g.name? sub = some q.name)
    (hne : f.subForms = [] → f.kind = .simple)
    (hl : ∀ l, f.labels = some l → (f.kind = .limit ∨ f.kind = .colimit) ∧
      l.names.length = f.count) :
    ∃ f', FormExtension.Becomes g ids ps p f' := by
  refine (h.fit hne hl).becomes hids fun t ht => .inl ?_
  obtain ⟨sub,hsub,k,hk,rfl⟩ := exists_of_forall₂_right h.parts ht
  obtain ⟨q,hq,hname⟩ := hs sub hsub
  rw [hk,Option.some.injEq] at hname
  exact ⟨q,hq,by rw [hname]⟩

theorem prune_eq_self {ps : List FormPlan}
    (h : ∀ p ∈ ps, p.isComplete (ps.map FormPlan.name)) : prune ps = ps := by
  have hs : sift ps = ps := List.filter_eq_self.mpr h
  rw [prune,hs,if_neg (Nat.lt_irrefl _)]

theorem Plans.labels_eq (h : Plans g f p) {ps : List FormPlan} {f' : Form}
    (hb : FormExtension.Becomes g ids ps p f') : f'.labels = f.labels := by
  have hnames := (FormGraph.labelsFor?_eq_ok hb.labels).1
  rw [h.labels] at hnames
  exact Option.map_injective (fun _ _ => Labels.ext_names) hnames

end FormPlan
end AddressedForms
