import AddressedForms.Proofs.Address.Typing
import AddressedForms.Proofs.Document.Resolution
import AddressedForms.Proofs.Document.Settling
import AddressedForms.Document.LeafResolution
set_option autoImplicit false

/-!
The leaves of any document. Whatever is wrong with it, all moduli in what is read of it are in
range.
-/

namespace AddressedForms

namespace Attempt
variable {α β : Type} {P : α → Prop} {Q : β → Prop} {a : Attempt α}

def Ensures (a : Attempt α) (P : α → Prop) : Prop := ∀ x, a.value? = some x → P x

theorem ensures_success {x : α} (h : P x) : (success x).Ensures P := by
  rintro _ ⟨⟩
  exact h

theorem ensures_silent : (silent : Attempt α).Ensures P := nofun

theorem ensures_malformed (tag message : String) : (malformed tag message : Attempt α).Ensures P :=
  nofun

theorem Ensures.bind {f : α → Attempt β} (ha : a.Ensures P) (hf : ∀ x, P x → (f x).Ensures Q) :
    (a >>= f).Ensures Q := by
  intro y hy
  rw [value?_bind,Option.bind_eq_some_iff] at hy
  obtain ⟨x,hx,hy⟩ := hy
  exact hf x (ha x hx) y hy

theorem ensures_bind {f : α → Attempt β} (hf : ∀ x, (f x).Ensures Q) : (a >>= f).Ensures Q :=
  Ensures.bind (P := fun _ => True) (fun _ _ => trivial) fun x _ => hf x

theorem Ensures.cons {as : Attempt (List α)} {R : List α → Prop} (ha : a.Ensures P)
    (has : as.Ensures R) : (cons a as).Ensures fun xs => ∃ y ys, xs = y :: ys ∧ P y ∧ R ys := by
  intro xs hxs
  obtain ⟨v,es⟩ := a
  obtain ⟨vs,fs⟩ := as
  cases v with
  | none => cases hxs
  | some y =>
    cases vs with
    | none => cases hxs
    | some ys =>
      cases hxs
      exact ⟨y,ys,rfl,ha y rfl,has ys rfl⟩

theorem ensures_all {as : List (Attempt α)} (h : ∀ a ∈ as, a.Ensures P) :
    (all as).Ensures fun xs => ∀ x ∈ xs, P x := by
  induction as with
  | nil => exact ensures_success (by simp)
  | cons a as ih =>
    rintro xs hxs
    obtain ⟨y,ys,rfl,hy,hys⟩ := (h a (by simp)).cons (ih fun b hb => h b (by simp [hb])) xs hxs
    exact List.forall_mem_cons.mpr ⟨hy,hys⟩

end Attempt

structure LeafMeanings.InRange (l : LeafMeanings) : Prop where
  module : ∀ name, (l.module name).Ensures fun m => m.isProper
  element : ∀ name, (l.element name).Ensures fun x => x.module.isProper
  morphism : ∀ name, (l.morphism name).Ensures fun f => f.modulesProper

def LeafScope.InRange (s : LeafScope) : Prop := ∀ l, s.meanings = some l → l.InRange

/-- A node stands for a name, or is read. -/
theorem LeafScope.ensures_nested {α : Type} {P : α → Prop} {s : LeafScope} {n : Node}
    {look : LeafMeanings → String → Attempt α} {read : Attempt α}
    (hl : ∀ l, s.meanings = some l → ∀ name, (look l name).Ensures P) (hr : read.Ensures P) :
    (match s.nameIn n with
      | some (l,name) => look l name
      | none => read).Ensures P := by
  cases hn : s.nameIn n with
  | none => exact hr
  | some e =>
    obtain ⟨l,hmeanings,hn⟩ := Option.bind_eq_some_iff.mp hn
    obtain ⟨name,-,hn⟩ := Option.bind_eq_some_iff.mp hn
    cases hn
    exact hl l hmeanings name

namespace Node

theorem ensures_modulus (n : Node) : n.modulus.Ensures fun m => (Module.zn m).isProper := by
  refine Attempt.ensures_bind fun m => ?_
  split_ifs with hzero hmax
  · exact Attempt.ensures_malformed _ _
  · exact Attempt.ensures_malformed _ _
  · refine Attempt.ensures_success ?_
    simp [Module.isProper,hzero,UInt64.not_lt.mp hmax]

end Node

section
variable {s : LeafScope} (hs : s.InRange)
include hs

namespace Module

theorem ensures_ofNode (n : Node) : (ofNode s n).Ensures fun m => m.isProper := by
  induction n using Node.rec (motive_2 := fun ns =>
    (ofNodes s ns).Ensures fun ms => allProper ms) with
  | mk tag attrs children ih =>
    rw [ofNode]
    refine Attempt.ensures_bind fun shape => ?_
    cases shape with
    | null | z | q | r => exact Attempt.ensures_success rfl
    | zn => exact (Node.ensures_modulus _).bind fun n hn => Attempt.ensures_success hn
    | product => exact ih.bind fun fs hfs => Attempt.ensures_success hfs
  | nil => exact Attempt.ensures_success rfl
  | cons n ns ih ihs =>
    rw [ofNodes]
    split
    · intro ms hms
      obtain ⟨m,ms,rfl,hm,hms⟩ :=
        (LeafScope.ensures_nested (fun l hl name => (hs l hl).module name) ih).cons ihs ms hms
      simp [allProper,hm,hms]
    · exact ihs

theorem ensures_ofNested (n : Node) : (ofNested s n).Ensures fun m => m.isProper :=
  LeafScope.ensures_nested (fun l hl name => (hs l hl).module name) (ensures_ofNode hs n)

theorem ensures_ofChild (n : Node) (i : Nat) : (ofChild s n i).Ensures fun m => m.isProper :=
  Attempt.ensures_bind fun c => ensures_ofNested hs c

end Module

namespace Element

theorem ensures_ofNode (n : Node) : (ofNode s n).Ensures fun x => x.module.isProper := by
  induction n using Node.rec (motive_2 := fun ns =>
    (ofNodes s ns).Ensures fun xs => Module.allProper (modules xs)) with
  | mk tag attrs children ih =>
    rw [ofNode]
    refine Attempt.ensures_bind fun shape => ?_
    cases shape with
    | null => exact Attempt.ensures_success rfl
    | z | q | r => exact Attempt.ensures_bind fun v => Attempt.ensures_success rfl
    | zn =>
      refine Attempt.ensures_bind fun v => (Node.ensures_modulus _).bind fun n hn => ?_
      exact Attempt.ensures_success (by rwa [module_residue hn])
    | product => exact ih.bind fun xs hxs => Attempt.ensures_success hxs
  | nil => exact Attempt.ensures_success rfl
  | cons n ns ih ihs =>
    rw [ofNodes]
    split
    · intro xs hxs
      obtain ⟨x,xs,rfl,hx,hxs⟩ :=
        (LeafScope.ensures_nested (fun l hl name => (hs l hl).element name) ih).cons ihs xs hxs
      simp [modules,Module.allProper,hx,hxs]
    · exact ihs

theorem ensures_ofChild (n : Node) (i : Nat) :
    (ofChild s n i).Ensures fun x => x.module.isProper :=
  Attempt.ensures_bind fun c =>
    LeafScope.ensures_nested (fun l hl name => (hs l hl).element name) (ensures_ofNode hs c)

end Element

namespace Morphism

omit hs in
theorem ensures_checkedIn (n : Node) {r : Except MappingError Morphism} {P : Morphism → Prop}
    (h : ∀ f, r = .ok f → P f) : (checkedIn n r).Ensures P := by
  cases r with
  | error e => exact Attempt.ensures_malformed _ _
  | ok f => exact Attempt.ensures_success (h f rfl)

theorem ensures_ofChildren {ns : List Node}
    (hns : ∀ n ∈ ns, (ofNode s n).Ensures fun f => f.modulesProper) (parent : String)
    (position i : Nat) :
    (ofChildren s parent position i ns).Ensures fun f => f.modulesProper := by
  induction ns generalizing i with
  | nil =>
    rw [ofChildren]
    exact Attempt.ensures_malformed _ _
  | cons n ns ih =>
    have hrest (i : Nat) := ih (fun m hm => hns m (List.mem_cons_of_mem n hm)) i
    rw [ofChildren.eq_def]
    dsimp only
    split
    · split
      · exact LeafScope.ensures_nested (fun l hl name => (hs l hl).morphism name)
          (hns n List.mem_cons_self)
      · exact hrest _
    · exact hrest i

theorem ensures_ofNode (n : Node) : (ofNode s n).Ensures fun f => f.modulesProper := by
  induction n using Node.rec (motive_2 := fun ns => ∀ n ∈ ns,
    (ofNode s n).Ensures fun f => f.modulesProper) with
  | mk tag attrs children ih =>
    rw [ofNode]
    refine Attempt.ensures_bind fun shape => ?_
    cases shape with
    | constant =>
      refine (Module.ensures_ofChild hs _ 0).bind fun m hm => ?_
      refine (Element.ensures_ofChild hs _ 0).bind fun x hx => Attempt.ensures_success ?_
      simp [modulesProper,hm,hx]
    | identity =>
      exact (Module.ensures_ofChild hs _ 0).bind fun m hm => Attempt.ensures_success hm
    | affine =>
      refine (Module.ensures_ofChild hs _ 0).bind fun m hm => ?_
      refine (Element.ensures_ofChild hs _ 0).bind fun a ha => ?_
      refine (Element.ensures_ofChild hs _ 1).bind fun b hb => ensures_checkedIn _ fun f hf => ?_
      unfold affine? at hf
      split_ifs at hf
      cases hf
      simp [modulesProper,hm,ha,hb]
    | embedding =>
      refine (Module.ensures_ofChild hs _ 0).bind fun m hm => ?_
      refine (Module.ensures_ofChild hs _ 1).bind fun c hc => ensures_checkedIn _ fun f hf => ?_
      unfold embedding? at hf
      split_ifs at hf
      cases hf
      simp [modulesProper,hm,hc]
    | composition =>
      refine (ensures_ofChildren hs ih tag 0 0).bind fun f hf => ?_
      refine (ensures_ofChildren hs ih tag 1 1).bind fun g hg => ?_
      split
      · exact Attempt.ensures_success (by simp [modulesProper,hf,hg])
      · exact Attempt.ensures_malformed _ _
  | nil =>
    rename_i hn
    cases hn
  | cons n ns ih ihs =>
    rename_i m hm
    rcases List.mem_cons.mp hm with rfl | hm
    · exact ih
    · exact ihs m hm

theorem ensures_ofCoordinate {address : Module} (ha : address.isProper) (n : Node) :
    (ofCoordinate s address n).Ensures fun f => f.modulesProper := by
  refine Attempt.ensures_bind fun shape => ?_
  cases shape with
  | constant =>
    refine (Element.ensures_ofChild hs _ 0).bind fun x hx => Attempt.ensures_success ?_
    simp [modulesProper,ha,hx]
  | morphism => exact ensures_ofChildren hs (fun n _ => ensures_ofNode hs n) _ 0 0

end Morphism
end

namespace Resolution
variable {α : Type} {P : α → Prop} {t : Table (Resolution α)}

theorem ensures_lookup (s : Symbol) {outside : String → Option α}
    (ho : ∀ name x, outside name = some x → P x)
    (ht : ∀ name x, t.get? name = some (.value x) → P x) (name : String) :
    (lookup s outside t name).Ensures P := by
  intro x hx
  rcases of_value?_lookup hx with hx | ⟨-,hx⟩
  · exact ht name x hx
  · exact ho name x hx

end Resolution

namespace Leaves
variable {v : Vocabulary}

structure InRange (l : Leaves) : Prop where
  modules : ∀ name m, l.modules.get? name = some (.value m) → m.isProper
  elements : ∀ name x, l.elements.get? name = some (.value x) → x.module.isProper
  morphisms : ∀ name f, l.morphisms.get? name = some (.value f) → f.modulesProper

theorem InRange.meanings {l : Leaves} (h : l.InRange) : l.meanings.InRange where
  module := Resolution.ensures_lookup .module nofun h.modules
  element := Resolution.ensures_lookup .element nofun h.elements
  morphism := Resolution.ensures_lookup .morphism nofun h.morphisms

theorem InRange.scope {l : Leaves} (h : l.InRange) : LeafScope.InRange ⟨v,some l.meanings⟩ := by
  rintro _ ⟨⟩
  exact h.meanings

theorem ensures_build {α : Type} {P : α → Prop} {defs : Table Node} {look : String → Attempt α}
    {read : Node → Attempt α} (hl : ∀ name, (look name).Ensures P) (hr : ∀ n, (read n).Ensures P)
    (name : String) : (build defs look read name).Ensures P := by
  unfold build
  split
  · exact Attempt.ensures_silent
  · split
    · exact hl _
    · exact hr _

theorem inRange_resolve (v : Vocabulary) (d : Definitions) : (resolve v d).1.InRange := by
  have hmodules : ∀ name m, (resolveModules v d.modules).table.get? name = some (.value m) →
      m.isProper := by
    refine Resolution.values_settleAll .module fun t name _ ht => ?_
    have h : InRange ⟨t,.empty,.empty⟩ := ⟨ht,nofun,nofun⟩
    exact ensures_build h.meanings.module (Module.ensures_ofNode h.scope) name
  have helements : ∀ name x, (resolveElements v d.elements
      (resolveModules v d.modules).table).table.get? name = some (.value x) →
      x.module.isProper := by
    refine Resolution.values_settleAll .element fun t name _ ht => ?_
    have h : InRange ⟨_,t,.empty⟩ := ⟨hmodules,ht,nofun⟩
    exact ensures_build h.meanings.element (Element.ensures_ofNode h.scope) name
  refine ⟨hmodules,helements,Resolution.values_settleAll .morphism fun t name _ ht => ?_⟩
  have h : InRange ⟨_,_,t⟩ := ⟨hmodules,helements,ht⟩
  exact ensures_build h.meanings.morphism (Morphism.ensures_ofNode h.scope) name

end Leaves
end AddressedForms
