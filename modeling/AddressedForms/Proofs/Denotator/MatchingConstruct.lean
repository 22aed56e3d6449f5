import AddressedForms.Proofs.Denotator.Matches
set_option autoImplicit false

/-!
Checked construction in twin graphs. Of matching factors the constructors make matching denotators,
or refuse them for the same reason.
-/

namespace AddressedForms
namespace Denotator
variable {R : FormId → FormId → Prop} {g h : FormGraph} (ht : g.Twins R h) {x y : FormId}
  {d e : Denotator} {ds es : List Denotator}

theorem sharedAddress_eq (hd : List.Forall₂ (Matches R) ds es) :
    sharedAddress ds = sharedAddress es := by
  suffices hfrom : ∀ found, sharedAddressFrom found ds = sharedAddressFrom found es from
    hfrom .null
  induction hd with
  | nil => exact fun _ => rfl
  | @cons d e ds es hde _ ih =>
    intro found
    rw [sharedAddressFrom,sharedAddressFrom,hde.node.address,ih,ih]

section Twins
include ht

theorem rel_requireForm (hxy : R x y) :
    Except.Rel (fun f e => f.name = e.name ∧ f.body.Related R e.body)
      (requireForm g x) (requireForm h y) := by
  have hform := ht.form x y hxy
  have hundefined := ht.undefined x y hxy
  unfold requireForm
  generalize g.get? x = f, h.get? y = e at hform hundefined
  cases hform with
  | none =>
    cases hundefined rfl
    exact .error _
  | some hfe => exact .ok hfe

theorem rel_requireKind (hxy : R x y) (kind : Kind) :
    Except.Rel (fun f e => f.name = e.name ∧ f.body.Related R e.body)
      (requireKind g x kind) (requireKind h y kind) := by
  refine (rel_requireForm ht hxy).bind fun f e ⟨hn,hb⟩ => ?_
  have hk : f.kind = e.kind := hb.kind_eq
  rw [hk,hn]
  split
  · exact .ok ⟨hn,hb⟩
  · exact .error _

theorem checkForm_eq (hxy : R x y) (hde : Matches R d e) : checkForm g x d = checkForm h y e := by
  unfold checkForm
  rw [ht.equal _ _ _ _ hxy hde.node.form,ht.name _ _ hxy,ht.name _ _ hde.node.form]

theorem checkForms_eq {xs ys : List FormId} (hxy : List.Forall₂ R xs ys)
    (hd : List.Forall₂ (Matches R) ds es) : checkForms g xs ds = checkForms h ys es := by
  induction hxy generalizing ds es with
  | nil => cases hd <;> rfl
  | cons hab _ ih =>
    cases hd with
    | nil => rfl
    | cons hde hd => rw [checkForms,checkForms,checkForm_eq ht hab hde,ih hd]

theorem checkAll_eq (hxy : R x y) (hd : List.Forall₂ (Matches R) ds es) :
    checkAll g x ds = checkAll h y es := by
  induction hd with
  | nil => rfl
  | cons hde _ ih => rw [checkAll,checkAll,checkForm_eq ht hxy hde,ih]

end Twins

theorem rel_subForm {f e : Form} (hb : f.body.Related R e.body) (i : Nat) :
    Except.Rel R (fromPath (f.subForm i)) (fromPath (e.subForm i)) := by
  refine Except.Rel.mapError ?_ _
  obtain ⟨name,b,labels,registered⟩ := f
  obtain ⟨name',c,labels',registered'⟩ := e
  have hcase {xs ys : List FormId} (hxy : List.Forall₂ R xs ys) :
      Except.Rel R (Form.subForm ⟨name,.limit xs,labels,registered⟩ i)
        (Form.subForm ⟨name',.limit ys,labels',registered'⟩ i) := by
    unfold Form.subForm
    dsimp only
    have hget := rel_getElem? hxy i
    rw [hxy.length_eq]
    generalize xs[i]? = v, ys[i]? = w at hget
    cases hget with
    | none => exact .error _
    | some hab => exact .ok hab
  cases b with
  | simple m =>
    obtain rfl := hb.simple_left
    exact .error _
  | limit subs =>
    obtain ⟨subs',rfl,hsubs⟩ := hb.limit_left
    exact hcase hsubs
  | colimit subs =>
    obtain ⟨subs',rfl,hsubs⟩ := hb.colimit_left
    exact hcase hsubs
  | power base =>
    obtain ⟨base',rfl,hbase⟩ := hb.power_left
    exact .ok hbase
  | list base =>
    obtain ⟨base',rfl,hbase⟩ := hb.list_left
    exact .ok hbase

section Twins
include ht

theorem rel_ofMorphism (hxy : R x y) (m : Morphism) :
    Except.Rel (Matches R) (ofMorphism g x m) (ofMorphism h y m) := by
  refine (rel_requireKind ht hxy .simple).bind fun f e ⟨_,hb⟩ => ?_
  have hm : f.module? = e.module? := hb.module_eq
  dsimp only
  rw [hm]
  split
  · exact .ok (.ordered ⟨hxy,rfl,rfl,rfl,rfl,rfl⟩ nofun .nil)
  · exact .error _

theorem rel_ofLimit (hxy : R x y) (hd : List.Forall₂ (Matches R) ds es) :
    Except.Rel (Matches R) (ofLimit g x ds) (ofLimit h y es) := by
  refine (rel_requireKind ht hxy .limit).bind fun f e ⟨hn,hb⟩ => ?_
  have hcount : f.count = e.count := hb.subForms.length_eq
  rw [hn,hcount,hd.length_eq]
  split
  · exact .error _
  · rw [Form.subForms,checkForms_eq ht hb.subForms hd,sharedAddress_eq hd]
    refine (Except.rel_self _).bind fun _ _ _ => (Except.rel_self _).bind fun a b hab => ?_
    exact .ok (.ordered ⟨hxy,rfl,hab,rfl,rfl,rfl⟩ nofun hd)

theorem rel_ofVariant (hxy : R x y) (i : Nat) (hde : Matches R d e) :
    Except.Rel (Matches R) (ofVariant g x i d) (ofVariant h y i e) := by
  refine (rel_requireKind ht hxy .colimit).bind fun f f' ⟨_,hb⟩ => ?_
  refine (rel_subForm hb i).bind fun sub sub' hsub => ?_
  rw [checkForm_eq ht hsub hde]
  refine (Except.rel_self _).bind fun _ _ _ => .ok ?_
  exact .ordered ⟨hxy,rfl,hde.node.address,rfl,rfl,rfl⟩ nofun (.cons hde .nil)

theorem rel_ofSet (hxy : R x y) (hd : List.Forall₂ (Matches R) ds es) :
    Except.Rel (Matches R) (ofSet g x ds) (ofSet h y es) := by
  refine (rel_requireKind ht hxy .power).bind fun f f' ⟨_,hb⟩ => ?_
  refine (rel_subForm hb 0).bind fun sub sub' hsub => ?_
  rw [checkAll_eq ht hsub hd,sharedAddress_eq hd]
  refine (Except.rel_self _).bind fun _ _ _ => (Except.rel_self _).bind fun a b hab => ?_
  exact .ok (matches_power ht.unique hxy rfl hab hd)

theorem rel_ofList (hxy : R x y) (hd : List.Forall₂ (Matches R) ds es) :
    Except.Rel (Matches R) (ofList g x ds) (ofList h y es) := by
  refine (rel_requireKind ht hxy .list).bind fun f f' ⟨_,hb⟩ => ?_
  refine (rel_subForm hb 0).bind fun sub sub' hsub => ?_
  rw [checkAll_eq ht hsub hd,sharedAddress_eq hd]
  refine (Except.rel_self _).bind fun _ _ _ => (Except.rel_self _).bind fun a b hab => ?_
  exact .ok (.ordered ⟨hxy,rfl,hab,rfl,rfl,rfl⟩ nofun hd)

end Twins
end Denotator
end AddressedForms
