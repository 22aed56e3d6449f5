import AddressedForms.Proofs.Document.Attempt
import AddressedForms.Document.Assembly
import AddressedForms.Proofs.Denotator.Construct
import AddressedForms.Proofs.Document.Node
set_option autoImplicit false

/-!
Denotators that have been assembled. Each has the name, the kind and the address that its node
gives, and the form that the node names.
-/

namespace AddressedForms

namespace Node

theorem value?_require (n : Node) (key : String) : (n.require key).value? = n.attr? key := by
  unfold require
  cases n.attr? key <;> rfl

end Node

namespace DenotatorSketch
open Denotator
variable {env : Surroundings} {n : Node} {kind : Kind} {form : FormId} {a : Module}
  {parts : List (Attempt Denotator)} {d e x : Denotator}

theorem checkedAt_eq_some {r : Except DenotatorError Denotator}
    (h : (checkedAt n r).value? = some d) : r = .ok d := by
  cases r with
  | ok e =>
    cases h
    rfl
  | error e => cases h

/-- The value of a node is made by the constructor of its kind. -/
inductive Constructs (env : Surroundings) (n : Node) (form : FormId) (a : Module)
    (parts : List (Attempt Denotator)) : Kind → Denotator → Prop
  | simple {c : Node} {f : Morphism} {d : Denotator} (hc : n.child? "Map" = some c)
    (hf : (Morphism.ofCoordinate env.leaves a c).value? = some f)
    (hd : ofMorphism env.graph form f = .ok d) : Constructs env n form a parts .simple d
  | limit {ds : List Denotator} {d : Denotator} (hds : (Attempt.all parts).value? = some ds)
    (hd : ofLimit env.graph form ds = .ok d) : Constructs env n form a parts .limit d
  | colimit {i : Nat} {part : Attempt Denotator} {rest : List (Attempt Denotator)}
    {d e : Denotator} (hp : parts = part :: rest) (he : part.value? = some e)
    (hd : ofVariant env.graph form i e = .ok d) : Constructs env n form a parts .colimit d
  | power {ds : List Denotator} {d : Denotator} (hds : (Attempt.all parts).value? = some ds)
    (hd : ofSet env.graph form ds = .ok d) : Constructs env n form a parts .power d
  | list {ds : List Denotator} {d : Denotator} (hds : (Attempt.all parts).value? = some ds)
    (hd : ofList env.graph form ds = .ok d) : Constructs env n form a parts .list d

theorem constructs_of_valueOf (h : (valueOf env n kind form a parts).value? = some d) :
    Constructs env n form a parts kind d := by
  cases kind with
  | simple =>
    unfold valueOf at h
    cases hc : n.child? "Map" with
    | none =>
      rw [hc] at h
      cases h
    | some c =>
      simp only [hc,Attempt.value?_bind,Option.bind_eq_some_iff] at h
      obtain ⟨f,hf,h⟩ := h
      exact .simple hc hf (checkedAt_eq_some h)
  | colimit =>
    simp only [valueOf,Attempt.value?_bind,Option.bind_eq_some_iff] at h
    obtain ⟨i,-,h⟩ := h
    cases parts with
    | nil => cases h
    | cons part rest =>
      simp only [Attempt.value?_bind,Option.bind_eq_some_iff] at h
      obtain ⟨e,he,h⟩ := h
      exact .colimit rfl he (checkedAt_eq_some h)
  | limit =>
    simp only [valueOf,Attempt.value?_bind,Option.bind_eq_some_iff] at h
    obtain ⟨ds,hds,h⟩ := h
    exact .limit hds (checkedAt_eq_some h)
  | power =>
    simp only [valueOf,Attempt.value?_bind,Option.bind_eq_some_iff] at h
    obtain ⟨ds,hds,h⟩ := h
    exact .power hds (checkedAt_eq_some h)
  | list =>
    simp only [valueOf,Attempt.value?_bind,Option.bind_eq_some_iff] at h
    obtain ⟨ds,hds,h⟩ := h
    exact .list hds (checkedAt_eq_some h)

theorem Constructs.head (h : Constructs env n form a parts kind d) :
    d.kind = kind ∧ d.form = form ∧ d.name = none := by
  cases h with
  | simple hc hf hd =>
    obtain ⟨f,-,hd⟩ := Except.bind_eq_ok_iff.mp hd
    dsimp only at hd
    split at hd
    · cases hd
      exact ⟨rfl,rfl,rfl⟩
    · contradiction
  | limit hds hd =>
    obtain ⟨f,-,hd⟩ := Except.bind_eq_ok_iff.mp hd
    split at hd
    · contradiction
    · obtain ⟨-,hd⟩ := Except.check_eq_ok_iff.mp hd
      obtain ⟨s,-,hd⟩ := Except.bind_eq_ok_iff.mp hd
      cases hd
      exact ⟨rfl,rfl,rfl⟩
  | colimit hp he hd =>
    obtain ⟨f,-,hd⟩ := Except.bind_eq_ok_iff.mp hd
    obtain ⟨sub,-,hd⟩ := Except.bind_eq_ok_iff.mp hd
    obtain ⟨-,hd⟩ := Except.check_eq_ok_iff.mp hd
    cases hd
    exact ⟨rfl,rfl,rfl⟩
  | power hds hd | list hds hd =>
    obtain ⟨f,-,hd⟩ := Except.bind_eq_ok_iff.mp hd
    obtain ⟨base,-,hd⟩ := Except.bind_eq_ok_iff.mp hd
    obtain ⟨-,hd⟩ := Except.check_eq_ok_iff.mp hd
    obtain ⟨s,-,hd⟩ := Except.bind_eq_ok_iff.mp hd
    cases hd
    exact ⟨rfl,rfl,rfl⟩

theorem movedTo_eq_some (h : (movedTo n a d).value? = some e) :
    d.address = a ∧ e = d ∨ d.readdressTo? a = some e := by
  unfold movedTo at h
  split at h
  · cases h
    exact .inl ⟨‹_›,rfl⟩
  · split at h
    · cases h
      exact .inr ‹_›
    · cases h

/-- A node gives a value, which is moved to the address and given the name. -/
structure Assembles (env : Surroundings) (n : Node) (parts : List (Attempt Denotator))
    (kind : Kind) (form : FormId) (a : Module) (d e x : Denotator) : Prop where
  ofKind : (n.attr? "type").bind Kind.ofText? = some kind
  ofForm : (n.attr? "form").bind env.form? = some form
  fits : env.graph.kind? form = some kind
  atAddress : (addressOf env n).value? = some a
  value : Constructs env n form a parts kind d
  moved : d.address = a ∧ e = d ∨ d.readdressTo? a = some e
  named : x = match n.name? with
    | some name => e.named name
    | none => e

theorem exists_assembles (h : (assemble env n parts).value? = some x) :
    ∃ kind form a d e, Assembles env n parts kind form a d e x := by
  simp only [assemble,kindOf,formOf,Attempt.value?_bind,Option.bind_eq_some_iff,
    Node.value?_require,Attempt.value?_ofOption] at h
  obtain ⟨kind,⟨tag,htag,hkind⟩,form,⟨name,hname,id,hid,hform⟩,a,ha,d,hd,e,he,hx⟩ := h
  split at hkind <;> cases hkind
  split at hform <;> rename_i hk <;> cases hform
  refine ⟨_,_,a,d,e,?_,?_,hk,ha,constructs_of_valueOf hd,movedTo_eq_some he,
    (Option.some.inj hx).symm⟩
  · rw [htag]
    assumption
  · rw [hname]
    exact hid

structure Told (env : Surroundings) (n : Node) (x : Denotator) : Prop where
  kind : (n.attr? "type").bind Kind.ofText? = some x.kind
  form : (n.attr? "form").bind env.form? = some x.form
  address : (addressOf env n).value? = some x.address
  name : x.name = n.name?

theorem told_of_assemble (h : (assemble env n parts).value? = some x) : Told env n x := by
  obtain ⟨kind,form,a,d,e,h⟩ := exists_assembles h
  obtain ⟨hdkind,hdform,hdname⟩ := h.value.head
  have hmoved : e.head = ⟨form,none,a⟩ ∧ e.kind = kind := by
    have hhead : d.head = ⟨form,none,d.address⟩ := by
      rw [← hdform,← hdname]
      rfl
    rcases h.moved with ⟨ha,rfl⟩ | hm
    · exact ⟨ha ▸ hhead,hdkind⟩
    · by_cases ha : d.address = a
      · rw [readdressTo?,if_pos ha,Option.some.injEq] at hm
        exact hm ▸ ⟨ha ▸ hhead,hdkind⟩
      · have hm := moved_of_readdressTo? hm ha
        exact ⟨by rw [hm.head,hhead],hm.kind.trans hdkind⟩
  obtain ⟨hhead,hkind⟩ := hmoved
  have hx : x.head = ⟨form,n.name?,a⟩ ∧ x.kind = kind := by
    rw [h.named]
    cases n.name? with
    | none => exact ⟨hhead,hkind⟩
    | some name => exact ⟨by simp [named,hhead],by simp [named,hkind]⟩
  obtain ⟨hxhead,hxkind⟩ := hx
  refine ⟨hxkind ▸ h.ofKind,?_,?_,?_⟩
  · rw [Denotator.form,hxhead]
    exact h.ofForm
  · rw [Denotator.address,hxhead]
    exact h.atAddress
  · rw [Denotator.name,hxhead]

end DenotatorSketch
end AddressedForms
