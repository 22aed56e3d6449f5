import AddressedForms.Document.Assembly
import AddressedForms.Proofs.Denotator.MatchingConstruct
import AddressedForms.Proofs.Document.Related
set_option autoImplicit false

/-!
Assembly in corresponding surroundings. The same sketches come to matching denotators there, and the
same errors are reported.
-/

namespace AddressedForms

/-- Surroundings with twin graphs, in which names of forms stand for corresponding ones. -/
structure Surroundings.Rel (R : FormId → FormId → Prop) (env env' : Surroundings) : Prop where
  twins : env.graph.Twins R env'.graph
  form? : ∀ name, Option.Rel R (env.form? name) (env'.form? name)
  leaves : env.leaves = env'.leaves

variable {R : FormId → FormId → Prop} {env env' : Surroundings} {n : Node} {kind : Kind}

namespace DenotatorSketch

section Nodes

theorem rel_checkedAt {r r' : Except DenotatorError Denotator}
    (hr : Except.Rel (Denotator.Matches R) r r') (n : Node) :
    Attempt.Rel (Denotator.Matches R) (checkedAt n r) (checkedAt n r') := by
  cases hr with
  | error e => exact Attempt.rel_failure _
  | ok hd => exact Attempt.rel_success hd

variable (h : env.Rel R env')
include h

theorem rel_formOf (n : Node) (kind : Kind) :
    Attempt.Rel R (formOf env n kind) (formOf env' n kind) := by
  refine (Attempt.rel_self (R := Eq) fun _ _ => rfl).bind fun name _ hname => ?_
  subst hname
  refine (Attempt.rel_ofOption (h.form? name)).bind fun x y hxy => ?_
  rw [h.twins.kind x y hxy]
  split
  · exact Attempt.rel_success hxy
  · exact Attempt.rel_failure _

theorem addressOf_eq (n : Node) : addressOf env n = addressOf env' n := by
  unfold addressOf
  rw [h.leaves]

theorem rel_movedTo {d e : Denotator} (hd : d.Matches R e) (n : Node) (a : Module) :
    Attempt.Rel (Denotator.Matches R) (movedTo n a d) (movedTo n a e) := by
  unfold movedTo
  rw [← hd.node.address]
  split
  · exact Attempt.rel_success hd
  · have hmoved := hd.readdressTo? h.twins.unique a
    generalize d.readdressTo? a = x, e.readdressTo? a = y at hmoved
    cases hmoved with
    | none => exact Attempt.rel_failure _
    | some hxy => exact Attempt.rel_success hxy

variable {parts parts' : List (Attempt Denotator)}
  (hp : List.Forall₂ (Attempt.Rel (Denotator.Matches R)) parts parts')
include hp

theorem rel_valueOf {x y : FormId} (hxy : R x y) (n : Node) (kind : Kind) (a : Module) :
    Attempt.Rel (Denotator.Matches R) (valueOf env n kind x a parts)
      (valueOf env' n kind y a parts') := by
  have hall := Attempt.rel_all hp
  cases kind with
  | simple =>
    unfold valueOf
    dsimp only
    split
    · exact Attempt.rel_failure _
    · rw [h.leaves]
      refine (Attempt.rel_self (R := Eq) fun _ _ => rfl).bind fun f _ hf => ?_
      subst hf
      exact rel_checkedAt (Denotator.rel_ofMorphism h.twins hxy f) n
  | colimit =>
    refine (Attempt.rel_self (R := Eq) fun _ _ => rfl).bind fun i _ hi => ?_
    subst hi
    cases hp with
    | nil => exact Attempt.rel_failure _
    | cons hpart _ =>
      exact hpart.bind fun d e hde =>
        rel_checkedAt (Denotator.rel_ofVariant h.twins hxy i hde) n
  | limit =>
    exact hall.bind fun ds es hd => rel_checkedAt (Denotator.rel_ofLimit h.twins hxy hd) n
  | power =>
    exact hall.bind fun ds es hd => rel_checkedAt (Denotator.rel_ofSet h.twins hxy hd) n
  | list =>
    exact hall.bind fun ds es hd => rel_checkedAt (Denotator.rel_ofList h.twins hxy hd) n

theorem rel_assemble (n : Node) :
    Attempt.Rel (Denotator.Matches R) (assemble env n parts) (assemble env' n parts') := by
  refine (Attempt.rel_self (R := Eq) fun _ _ => rfl).bind fun kind _ hk => ?_
  subst hk
  refine (rel_formOf h n kind).bind fun x y hxy => ?_
  rw [addressOf_eq h]
  refine (Attempt.rel_self (R := Eq) fun _ _ => rfl).bind fun a _ ha => ?_
  subst ha
  refine (rel_valueOf h hp hxy n kind a).bind fun d e hde => ?_
  refine (rel_movedTo h hde n a).bind fun d' e' hmatch => Attempt.rel_success ?_
  split
  · exact hmatch.named _
  · exact hmatch

end Nodes

section Build
variable (h : env.Rel R env') {look look' : String → Attempt Denotator}
  (hl : ∀ name, Attempt.Rel (Denotator.Matches R) (look name) (look' name))
include h hl

theorem rel_build (s : DenotatorSketch) :
    Attempt.Rel (Denotator.Matches R) (s.build env look) (s.build env' look') := by
  induction s using DenotatorSketch.rec (motive_2 := fun ss => List.Forall₂
    (Attempt.Rel (Denotator.Matches R)) (buildAll env look ss) (buildAll env' look' ss)) with
  | use name | define name => exact hl name
  | inline n parts ih => exact rel_assemble h ih n
  | nil => exact .nil
  | cons s ss ihs ihss => exact .cons ihs ihss

theorem rel_buildAll (ss : List DenotatorSketch) : List.Forall₂
    (Attempt.Rel (Denotator.Matches R)) (buildAll env look ss) (buildAll env' look' ss) := by
  induction ss with
  | nil => exact .nil
  | cons s ss ih => exact .cons (rel_build h hl s) ih

end Build
end DenotatorSketch

namespace DenotatorDefinition
variable (h : env.Rel R env') {outside outside' : String → Option Denotator}
  (ho : ∀ name, Option.Rel (Denotator.Matches R) (outside name) (outside' name))
include h

theorem rel_build {look look' : String → Attempt Denotator}
    (hl : ∀ name, Attempt.Rel (Denotator.Matches R) (look name) (look' name))
    (defs : Table DenotatorDefinition) (name : String) :
    Attempt.Rel (Denotator.Matches R) (build env look defs name) (build env' look' defs name) := by
  unfold build
  split
  · exact DenotatorSketch.rel_assemble h (DenotatorSketch.rel_buildAll h hl _) _
  · exact Attempt.rel_silent

include ho in
theorem rel_resolve (defs : Table DenotatorDefinition) :
    (resolve env outside defs).Rel (Denotator.Matches R) (resolve env' outside' defs) :=
  Resolution.rel_settleAll (fun _ _ name htu =>
    rel_build h (Resolution.rel_lookup htu .denotator ho) defs name) _ _ _

end DenotatorDefinition
end AddressedForms
