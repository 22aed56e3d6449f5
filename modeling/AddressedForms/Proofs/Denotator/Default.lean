import AddressedForms.Denotator.Default
import AddressedForms.Proofs.Address.Typing
import AddressedForms.Proofs.Denotator.Construct
import AddressedForms.Proofs.Document.BuiltForms
import AddressedForms.Proofs.Form.Dependencies
set_option autoImplicit false

/-!
Default denotators exist for just those forms that have values at all. The search for one never
enters a form again that is still open, and loses nothing by that: within a value of least height no
form occurs inside of itself.
-/

namespace AddressedForms

theorem Module.module_zero {m : Module} (h : m.isProper) : m.zero.module = m := by
  induction m using Module.rec (motive_2 := fun ms => allProper ms →
    Element.modules (zeros ms) = ms) with
  | zn n => exact Element.module_residue h 0
  | product ms ih => exact congrArg Module.product (ih h)
  | nil => rfl
  | cons m ms ihm ihms =>
    rename_i h
    obtain ⟨hm,hms⟩ := Bool.and_eq_true_iff.mp h
    rw [zeros,Element.modules,ihm hm,ihms hms]
  | null | z | q | r => rfl

namespace FormGraph
variable {g : FormGraph} {id : FormId} {n k : Nat}

/-- Forms that have values: the least predicate that holds of simple forms, sets and lists, of
products of which it holds throughout and of sums of which it holds somewhere. -/
inductive Populated (g : FormGraph) : FormId → Prop
  | flat {id : FormId} {f : Form} (hf : g.get? id = some f)
    (hk : f.kind = .simple ∨ f.kind = .power ∨ f.kind = .list) : Populated g id
  | limit {id : FormId} {f : Form} (hf : g.get? id = some f) (hk : f.kind = .limit)
    (hs : ∀ sub ∈ f.subForms, Populated g sub) : Populated g id
  | colimit {id sub : FormId} {f : Form} (hf : g.get? id = some f) (hk : f.kind = .colimit)
    (hm : sub ∈ f.subForms) (hs : Populated g sub) : Populated g id

inductive PopulatedBelow (g : FormGraph) : Nat → FormId → Prop
  | flat {n : Nat} {id : FormId} {f : Form} (hf : g.get? id = some f)
    (hk : f.kind = .simple ∨ f.kind = .power ∨ f.kind = .list) : PopulatedBelow g (n+1) id
  | limit {n : Nat} {id : FormId} {f : Form} (hf : g.get? id = some f) (hk : f.kind = .limit)
    (hs : ∀ sub ∈ f.subForms, PopulatedBelow g n sub) : PopulatedBelow g (n+1) id
  | colimit {n : Nat} {id sub : FormId} {f : Form} (hf : g.get? id = some f)
    (hk : f.kind = .colimit) (hm : sub ∈ f.subForms) (hs : PopulatedBelow g n sub) :
    PopulatedBelow g (n+1) id

theorem PopulatedBelow.succ (h : g.PopulatedBelow n id) : g.PopulatedBelow (n+1) id := by
  induction h with
  | flat hf hk => exact .flat hf hk
  | limit hf hk _ ih => exact .limit hf hk ih
  | colimit hf hk hm _ ih => exact .colimit hf hk hm ih

theorem PopulatedBelow.mono (h : g.PopulatedBelow n id) (hnk : n ≤ k) : g.PopulatedBelow k id := by
  induction hnk with
  | refl => exact h
  | step _ ih => exact ih.succ

theorem Populated.exists_below (h : g.Populated id) : ∃ n, g.PopulatedBelow n id := by
  induction h with
  | flat hf hk => exact ⟨1,.flat hf hk⟩
  | @limit id f hf hk _ ih =>
    -- the greatest of the heights of the factors bounds them all
    have hall (subs : List FormId) (h : ∀ sub ∈ subs, ∃ n, g.PopulatedBelow n sub) :
        ∃ n, ∀ sub ∈ subs, g.PopulatedBelow n sub := by
      induction subs with
      | nil => exact ⟨0,by simp⟩
      | cons sub subs ihs =>
        obtain ⟨n,hn⟩ := h sub List.mem_cons_self
        obtain ⟨k,hk⟩ := ihs fun s hs => h s (List.mem_cons_of_mem _ hs)
        refine ⟨max n k,List.forall_mem_cons.mpr ⟨hn.mono (Nat.le_max_left n k),fun s hs => ?_⟩⟩
        exact (hk s hs).mono (Nat.le_max_right n k)
    obtain ⟨n,hn⟩ := hall f.subForms ih
    exact ⟨n+1,.limit hf hk hn⟩
  | colimit hf hk hm _ ih =>
    obtain ⟨n,hn⟩ := ih
    exact ⟨n+1,.colimit hf hk hm hn⟩

end FormGraph

namespace Denotator
variable {g : FormGraph} {a m : Module} {id sub base : FormId} {f : Form} {d e : Denotator}
  {subs opened : List FormId} {ds : List Denotator} {i n fuel : Nat}

structure IsDefault (g : FormGraph) (a : Module) (id : FormId) (d : Denotator) : Prop where
  form : d.form = id
  address : d.address = a
  valid : d.validate g = .ok ()

theorem isDefault_of_fits (hu : g.NamesUnique) (hf : g.get? id = some f)
    (hhead : d.head = ⟨id,none,a⟩) (hfit : Fits g f.body d)
    (hds : ∀ e ∈ d.factors, ∃ sub, IsDefault g a sub e) : IsDefault g a id d := by
  have hform : d.form = id := congrArg Head.form hhead
  have haddress : d.address = a := congrArg Head.address hhead
  refine ⟨hform,haddress,(validate_eq_ok_iff d).mpr
    ⟨(checkNode_eq_ok_iff hu).mpr ⟨f,hform ▸ hf,hfit⟩,fun e he => ?_⟩⟩
  obtain ⟨sub,hd⟩ := hds e he
  exact ⟨checkAddress_eq_ok_iff.mpr (.inr (hd.address.trans haddress.symm)),hd.valid⟩

section Made
variable {name : String} {labels : Option Labels} {registered : Bool} (hu : g.NamesUnique)
include hu

theorem exists_zero (hf : g.get? id = some ⟨name,.simple m,labels,registered⟩)
    (hm : m.isProper) :
    ∃ d, ofMorphism g id (.constant a m.zero) = .ok d ∧ IsDefault g a id d := by
  have hzero := Module.module_zero hm
  refine ⟨.simple ⟨id,none,a⟩ (.constant a m.zero),Except.bind_eq_ok_iff.mpr
    ⟨_,requireKind_eq_ok_iff.mpr ⟨hf,rfl⟩,if_pos hzero⟩,?_⟩
  refine isDefault_of_fits hu hf rfl ?_ (by simp [factors])
  have hfit := Fits.simple (g := g) (h := ⟨id,none,a⟩) (m := .constant a m.zero) rfl
  rwa [Morphism.codomain,hzero] at hfit

theorem exists_product (hf : g.get? id = some ⟨name,.limit subs,labels,registered⟩)
    (hne : subs ≠ []) (hds : List.Forall₂ (IsDefault g a) subs ds) :
    ∃ d, ofLimit g id ds = .ok d ∧ IsDefault g a id d := by
  have hforms : List.Forall₂ (fun sub d => g.Similar sub d.form) subs ds :=
    hds.imp fun sub d hd => hd.form ▸ .refl g sub
  have hfactors : ∀ d ∈ ds, ∃ sub, IsDefault g a sub d := fun d hd => by
    obtain ⟨sub,-,h⟩ := exists_of_forall₂_right hds hd
    exact ⟨sub,h⟩
  -- there is a factor to take the address from
  have hshared : sharedAddress ds = .ok a := by
    obtain ⟨sub,hsub⟩ := List.exists_mem_of_ne_nil subs hne
    obtain ⟨d,hd,h⟩ := exists_of_forall₂_left hds hsub
    refine sharedAddress_eq_ok_iff.mpr ⟨fun e he => ?_,.inr ⟨d,hd,h.address⟩⟩
    obtain ⟨sub',h'⟩ := hfactors e he
    exact .inr h'.address
  refine ⟨.limit ⟨id,none,a⟩ ds,Except.bind_eq_ok_iff.mpr
    ⟨_,requireKind_eq_ok_iff.mpr ⟨hf,rfl⟩,(if_neg (not_not_intro hds.length_eq.symm)).trans ?_⟩,
    isDefault_of_fits hu hf rfl (.limit hforms) hfactors⟩
  exact Except.check_eq_ok_iff.mpr ⟨(checkForms_eq_ok_iff hu hds.length_eq).mpr hforms,
    Except.bind_eq_ok_iff.mpr ⟨a,hshared,rfl⟩⟩

theorem exists_variant (hf : g.get? id = some ⟨name,.colimit subs,labels,registered⟩)
    (hi : subs[i]? = some sub) (he : IsDefault g a sub e) :
    ∃ d, ofVariant g id i e = .ok d ∧ IsDefault g a id d := by
  have hform : g.Similar sub e.form := he.form ▸ .refl g sub
  refine ⟨.colimit ⟨id,none,e.address⟩ i e,Except.bind_eq_ok_iff.mpr
    ⟨_,requireKind_eq_ok_iff.mpr ⟨hf,rfl⟩,Except.bind_eq_ok_iff.mpr
      ⟨sub,subForm_colimit_eq_ok_iff.mpr hi,Except.check_eq_ok_iff.mpr
        ⟨(checkForm_eq_ok_iff hu).mpr hform,rfl⟩⟩⟩,?_⟩
  rw [he.address]
  exact isDefault_of_fits hu hf rfl (.colimit hi hform) (by simpa [factors] using ⟨sub,he⟩)

theorem exists_empty (hf : g.get? id = some f) (hhead : d.head = ⟨id,none,.null⟩)
    (hfactors : d.factors = []) (hm : d.morphism? = none)
    (hfit : Fits g f.body (d.withHead ⟨id,none,a⟩)) :
    ∃ e, moveEmpty f a d = .ok e ∧ IsDefault g a id e := by
  have hmoved := readdressTo?_of_empty hfactors hm (congrArg Head.address hhead) a
  rw [hhead] at hmoved
  refine ⟨d.withHead ⟨id,none,a⟩,?_,isDefault_of_fits hu hf (head_withHead d _) hfit
    (by simp [hfactors])⟩
  rw [moveEmpty,hmoved]

end Made

/-- What the search for a default of a form comes to, by what it comes to for the sub-forms. -/
inductive Searched (g : FormGraph) (a : Module) (opened : List FormId) (id : FormId)
    (search : FormId → Except DenotatorError Denotator) : Except DenotatorError Denotator → Prop
  | unknown (hf : g.get? id = none) : Searched g a opened id search (.error (.unknownForm id))
  | opened {f : Form} (hf : g.get? id = some f) (ho : id ∈ opened) :
    Searched g a opened id search (.error (.noDefault f.name))
  | flat {f : Form} {d : Denotator} (hf : g.get? id = some f)
    (hk : f.kind = .simple ∨ f.kind = .power ∨ f.kind = .list) (hd : IsDefault g a id d) :
    Searched g a opened id search (.ok d)
  | limit {f : Form} {d : Denotator} (hf : g.get? id = some f) (hk : f.kind = .limit)
    (hs : ∀ sub ∈ f.subForms, ∃ e, search sub = .ok e) (hd : IsDefault g a id d) :
    Searched g a opened id search (.ok d)
  | factor {f : Form} {sub : FormId} {err : DenotatorError} (hf : g.get? id = some f)
    (hk : f.kind = .limit) (hm : sub ∈ f.subForms) (hs : search sub = .error err) :
    Searched g a opened id search (.error err)
  | colimit {f : Form} {sub : FormId} {d e : Denotator} (hf : g.get? id = some f)
    (hk : f.kind = .colimit) (hm : sub ∈ f.subForms) (hs : search sub = .ok e)
    (hd : IsDefault g a id d) : Searched g a opened id search (.ok d)
  | variants {f : Form} (hf : g.get? id = some f) (hk : f.kind = .colimit)
    (hs : ∀ sub ∈ f.subForms, ∃ err, search sub = .error err) :
    Searched g a opened id search (.error (.noDefault f.name))

section Search
variable (search : FormId → Except DenotatorError Denotator)

theorem mapM_cases (subs : List FormId) :
    (∃ ds, subs.mapM search = .ok ds ∧ List.Forall₂ (fun sub d => search sub = .ok d) subs ds) ∨
    ∃ sub ∈ subs, ∃ err, search sub = .error err ∧ subs.mapM search = .error err := by
  induction subs with
  | nil => exact .inl ⟨[],rfl,.nil⟩
  | cons sub subs ih =>
    rw [List.mapM_cons]
    cases hs : search sub with
    | error err => exact .inr ⟨sub,List.mem_cons_self,err,hs,rfl⟩
    | ok d =>
      rcases ih with ⟨ds,hds,hall⟩ | ⟨sub',hm,err,hs',herr⟩
      · rw [hds]
        exact .inl ⟨d :: ds,rfl,.cons hs hall⟩
      · rw [herr]
        exact .inr ⟨sub',List.mem_cons_of_mem _ hm,err,hs',rfl⟩

theorem firstDefault_cases (k : Nat) (subs : List FormId) :
    (∃ i sub d, firstDefault search k subs = some (k+i,d) ∧ subs[i]? = some sub ∧
      search sub = .ok d) ∨
    firstDefault search k subs = none ∧ ∀ sub ∈ subs, ∃ err, search sub = .error err := by
  induction subs generalizing k with
  | nil => exact .inr ⟨rfl,by simp⟩
  | cons sub subs ih =>
    rw [firstDefault]
    cases hs : search sub with
    | ok d => exact .inl ⟨0,sub,d,rfl,rfl,hs⟩
    | error err =>
      rcases ih (k+1) with ⟨i,sub',d,hfirst,hi,hd⟩ | ⟨hnone,hall⟩
      · refine .inl ⟨i+1,sub',d,?_,by simpa using hi,hd⟩
        rw [show k+(i+1) = k+1+i by omega]
        exact hfirst
      · exact .inr ⟨hnone,List.forall_mem_cons.mpr ⟨⟨err,hs⟩,hall⟩⟩

end Search

section Kinds
variable {search : FormId → Except DenotatorError Denotator} {name : String}
  {labels : Option Labels} {registered : Bool} (hu : g.NamesUnique)
  (h : ∀ sub d, search sub = .ok d → IsDefault g a sub d)
include hu

theorem searched_simple (hf : g.get? id = some ⟨name,.simple m,labels,registered⟩)
    (hm : m.isProper) :
    Searched g a opened id search (ofMorphism g id (.constant a m.zero)) := by
  obtain ⟨d,hd,hdefault⟩ := exists_zero hu hf hm
  rw [hd]
  exact .flat hf (.inl rfl) hdefault

theorem searched_empty (hf : g.get? id = some f) (hk : f.kind = .power ∨ f.kind = .list)
    {made : Except DenotatorError Denotator} (hmade : made = .ok d)
    (hhead : d.head = ⟨id,none,.null⟩) (hfactors : d.factors = []) (hm : d.morphism? = none)
    (hfit : Fits g f.body (d.withHead ⟨id,none,a⟩)) :
    Searched g a opened id search (do moveEmpty f a (← made)) := by
  obtain ⟨e,he,hdefault⟩ := exists_empty hu hf hhead hfactors hm hfit
  rw [hmade]
  show Searched g a opened id search (moveEmpty f a d)
  rw [he]
  exact .flat hf (.inr hk) hdefault

include h

theorem searched_limit (hf : g.get? id = some ⟨name,.limit subs,labels,registered⟩)
    (hne : subs ≠ []) :
    Searched g a opened id search (do ofLimit g id (← subs.mapM search)) := by
  rcases mapM_cases search subs with ⟨ds,hds,hall⟩ | ⟨sub,hsub,err,herr,hds⟩
  · obtain ⟨d,hd,hdefault⟩ := exists_product hu hf hne (hall.imp fun sub d => h sub d)
    rw [hds]
    show Searched g a opened id search (ofLimit g id ds)
    rw [hd]
    refine .limit hf rfl (fun sub hsub => ?_) hdefault
    obtain ⟨d,-,hd⟩ := exists_of_forall₂_left hall hsub
    exact ⟨d,hd⟩
  · rw [hds]
    exact .factor hf rfl hsub herr

theorem searched_colimit (hf : g.get? id = some ⟨name,.colimit subs,labels,registered⟩) :
    Searched g a opened id search (match firstDefault search 0 subs with
      | some (i,d) => ofVariant g id i d
      | none => .error (.noDefault name)) := by
  rcases firstDefault_cases search 0 subs with ⟨i,sub,e,hfirst,hi,he⟩ | ⟨hnone,hall⟩
  · obtain ⟨d,hd,hdefault⟩ := exists_variant hu hf hi (h sub e he)
    rw [hfirst]
    dsimp only
    rw [Nat.zero_add,hd]
    exact .colimit hf rfl (List.mem_of_getElem? hi) he hdefault
  · rw [hnone]
    exact .variants hf rfl hall

end Kinds

theorem searched_of_defaults (hs : g.Sound) (hm : g.ModulesProper)
    (h : ∀ sub d, defaultWithin g a fuel (id :: opened) sub = .ok d → IsDefault g a sub d) :
    Searched g a opened id (defaultWithin g a fuel (id :: opened))
      (defaultWithin g a (fuel+1) opened id) := by
  have hu := hs.namesUnique
  rw [defaultWithin]
  cases hf : g.get? id with
  | none =>
    rw [requireForm,hf]
    exact .unknown hf
  | some f =>
    rw [requireForm_eq_ok_iff.mpr hf]
    show Searched g a opened id _ (if id ∈ opened then _ else _)
    split
    · exact .opened hf ‹_›
    · obtain ⟨name,body,labels,registered⟩ := f
      cases body with
      | simple m => exact searched_simple hu hf (hm id _ m hf rfl)
      | limit subs => exact searched_limit hu h hf fun he => by cases hs.nonempty id _ hf he
      | colimit subs => exact searched_colimit hu h hf
      | power base =>
        have hmade : ofSet g id [] = .ok (.power ⟨id,none,.null⟩ []) :=
          Except.bind_eq_ok_iff.mpr ⟨_,requireKind_eq_ok_iff.mpr ⟨hf,rfl⟩,rfl⟩
        exact searched_empty hu hf (.inl rfl) hmade rfl rfl rfl (.power (by simp))
      | list base =>
        have hmade : ofList g id [] = .ok (.list ⟨id,none,.null⟩ []) :=
          Except.bind_eq_ok_iff.mpr ⟨_,requireKind_eq_ok_iff.mpr ⟨hf,rfl⟩,rfl⟩
        exact searched_empty hu hf (.inr rfl) hmade rfl rfl rfl (.list (by simp))

section Search
variable {search : FormId → Except DenotatorError Denotator}
  {r : Except DenotatorError Denotator} {err : DenotatorError}

theorem Searched.isDefault (h : Searched g a opened id search (.ok d)) : IsDefault g a id d := by
  cases h with
  | flat _ _ hd | limit _ _ _ hd | colimit _ _ _ _ hd => exact hd

theorem Searched.populated (h : Searched g a opened id search (.ok d))
    (hp : ∀ sub e, search sub = .ok e → g.Populated sub) : g.Populated id := by
  cases h with
  | flat hf hk _ => exact .flat hf hk
  | limit hf hk hs _ =>
    refine .limit hf hk fun sub hsub => ?_
    obtain ⟨e,he⟩ := hs sub hsub
    exact hp sub e he
  | colimit hf hk hsub he _ => exact .colimit hf hk hsub (hp _ _ he)

theorem Searched.exists_ok (h : Searched g a opened id search r) (ho : id ∉ opened)
    (hid : g.PopulatedBelow (n+1) id)
    (hp : ∀ sub, g.PopulatedBelow n sub → ∃ e, search sub = .ok e) : ∃ d, r = .ok d := by
  cases h with
  | flat | limit | colimit => exact ⟨_,rfl⟩
  | opened _ hopen => exact absurd hopen ho
  | unknown hf => cases hid <;> simp_all
  | @factor f sub err hf hk hsub herr =>
    obtain ⟨e,he⟩ : ∃ e, search sub = .ok e := by
      cases hid with
      | limit hf' _ hs =>
        cases hf.symm.trans hf'
        exact hp sub (hs sub hsub)
      | flat hf' hk' | colimit hf' hk' =>
        cases hf.symm.trans hf'
        simp [hk] at hk'
    cases herr.symm.trans he
  | @variants f hf hk hall =>
    obtain ⟨sub,hsub,e,he⟩ : ∃ sub ∈ f.subForms, ∃ e, search sub = .ok e := by
      cases hid with
      | colimit hf' _ hsub hs =>
        cases hf.symm.trans hf'
        exact ⟨_,hsub,hp _ hs⟩
      | flat hf' hk' | limit hf' hk' =>
        cases hf.symm.trans hf'
        simp [hk] at hk'
    obtain ⟨err,herr⟩ := hall sub hsub
    cases herr.symm.trans he

/-- An error is about a form that is led to: it is not defined, or is found to have no default. -/
def BlamesBelow (g : FormGraph) (id : FormId) (err : DenotatorError) : Prop :=
  ∃ x, Walk.Leads g.subForms id x ∧
    ((g.get? x = none ∧ err = .unknownForm x) ∨ err = .noDefault (g.nameOrId x))

theorem blamesBelow_of_get? (hf : g.get? id = some f) : BlamesBelow g id (.noDefault f.name) := by
  refine ⟨id,.refl,.inr ?_⟩
  rw [FormGraph.nameOrId,FormGraph.name?_of_get? hf,Option.getD_some]

theorem Searched.blames (h : Searched g a opened id search (.error err))
    (hb : ∀ sub err, search sub = .error err → BlamesBelow g sub err) : BlamesBelow g id err := by
  cases h with
  | unknown hf => exact ⟨id,.refl,.inl ⟨hf,rfl⟩⟩
  | opened hf | variants hf => exact blamesBelow_of_get? hf
  | factor hf _ hsub herr =>
    obtain ⟨x,hx,hcase⟩ := hb _ _ herr
    exact ⟨x,.head (FormGraph.subForms_of_get? hf ▸ hsub) hx,hcase⟩

end Search

section Within
variable {err : DenotatorError} (hs : g.Sound) (hm : g.ModulesProper)
include hs hm

theorem isDefault_of_defaultWithin (h : defaultWithin g a fuel opened id = .ok d) :
    IsDefault g a id d := by
  induction fuel generalizing opened id d with
  | zero => contradiction
  | succ fuel ih =>
    have hstep : Searched g a opened id _ (defaultWithin g a (fuel+1) opened id) :=
      searched_of_defaults hs hm fun _ _ => ih
    rw [h] at hstep
    exact hstep.isDefault

theorem searched_defaultWithin (a : Module) (fuel : Nat) (opened : List FormId) (id : FormId) :
    Searched g a opened id (defaultWithin g a fuel (id :: opened))
      (defaultWithin g a (fuel+1) opened id) :=
  searched_of_defaults hs hm fun _ _ => isDefault_of_defaultWithin hs hm

theorem populated_of_defaultWithin (h : defaultWithin g a fuel opened id = .ok d) :
    g.Populated id := by
  induction fuel generalizing opened id d with
  | zero => contradiction
  | succ fuel ih =>
    have hstep := searched_defaultWithin hs hm a fuel opened id
    rw [h] at hstep
    exact hstep.populated fun _ _ => ih

/-- A form is only sought inside of forms that have no values of its height, so it is never open
already. -/
theorem exists_of_populatedBelow (h : g.PopulatedBelow n id)
    (ho : ∀ o ∈ opened, ¬ g.PopulatedBelow n o) (hn : n ≤ fuel) :
    ∃ d, defaultWithin g a fuel opened id = .ok d := by
  induction n generalizing opened id fuel with
  | zero => nomatch h
  | succ n ih =>
    have hbelow : ∀ o ∈ opened, ¬ g.PopulatedBelow n o := fun o hmem hb => ho o hmem hb.succ
    by_cases hid : g.PopulatedBelow n id
    · exact ih hid hbelow (by omega)
    · obtain ⟨fuel,rfl⟩ : ∃ k, fuel = k+1 := ⟨fuel-1,by omega⟩
      refine (searched_defaultWithin hs hm a fuel opened id).exists_ok (fun hmem => ho id hmem h) h
        fun sub hsub => ih hsub ?_ (by omega)
      exact List.forall_mem_cons.mpr ⟨hid,hbelow⟩

theorem blamesBelow_of_defaultWithin (h : defaultWithin g a fuel opened id = .error err) :
    BlamesBelow g id err := by
  induction fuel generalizing opened id err with
  | zero =>
    cases h
    exact ⟨id,.refl,.inr rfl⟩
  | succ fuel ih =>
    have hstep := searched_defaultWithin hs hm a fuel opened id
    rw [h] at hstep
    exact hstep.blames fun _ _ => ih

end Within

/-- The open forms are distinct and are in the graph, so the fuel that exceeds the number of forms
by those that are not open never runs out. -/
theorem defaultWithin_eq_defaultWithin {k : Nat} (hn : opened.Nodup)
    (hc : ∀ o ∈ opened, g.contains o) (hf : g.size < fuel+opened.length)
    (hk : g.size < k+opened.length) :
    defaultWithin g a fuel opened id = defaultWithin g a k opened id := by
  induction fuel generalizing opened id k with
  | zero =>
    have hlen := FormGraph.length_le_size hn hc
    omega
  | succ fuel ih =>
    obtain ⟨k,rfl⟩ : ∃ j, k = j+1 := by
      have hlen := FormGraph.length_le_size hn hc
      exact ⟨k-1,by omega⟩
    rw [defaultWithin,defaultWithin]
    cases hid : g.get? id with
    | none => rw [requireForm,hid]; rfl
    | some f =>
      rw [requireForm_eq_ok_iff.mpr hid]
      by_cases ho : id ∈ opened
      · simp only [ho,if_true]
      · have hn' : (id :: opened).Nodup := List.nodup_cons.mpr ⟨ho,hn⟩
        have hc' : ∀ o ∈ id :: opened, g.contains o :=
          List.forall_mem_cons.mpr ⟨FormGraph.contains_of_get? hid,hc⟩
        have hsame : defaultWithin g a fuel (id :: opened) = defaultWithin g a k (id :: opened) :=
          funext fun sub => ih hn' hc' (by simp only [List.length_cons]; omega)
            (by simp only [List.length_cons]; omega)
        rw [hsame]

/-- In a graph that the operations make, the search for a default ends on its own, and finds one for
just the forms that have values; it is a valid denotator of the form over the address. Where all
that the form leads to is defined, it is for want of a default alone that none is found. -/
theorem default_iff_populated (hr : g.Reachable) (hm : g.ModulesProper) (id : FormId) (a : Module) :
    (∀ fuel, g.size < fuel → defaultWithin g a fuel [] id = default g id a) ∧
    ((∃ d, default g id a = .ok d) ↔ g.Populated id) ∧
    (∀ d, default g id a = .ok d → d.form = id ∧ d.address = a ∧ d.validate g = .ok ()) ∧
    ((∀ x, Walk.Leads g.subForms id x → ∃ f, g.get? x = some f) →
      ∀ err, default g id a = .error err →
        ∃ x f, Walk.Leads g.subForms id x ∧ g.get? x = some f ∧ err = .noDefault f.name) := by
  have hs := hr.sound
  have hfuel (fuel : Nat) (h : g.size < fuel) :
      defaultWithin g a fuel [] id = default g id a :=
    defaultWithin_eq_defaultWithin .nil (by simp) h (by simp)
  refine ⟨hfuel,⟨fun ⟨d,hd⟩ => populated_of_defaultWithin hs hm hd,fun hp => ?_⟩,fun d hd => ?_,
    fun hdefined err herr => ?_⟩
  · obtain ⟨n,hn⟩ := hp.exists_below
    -- a height may exceed the fuel that is given, but not the fuel that the search may be given
    rw [← hfuel (max n (g.size+1)) (Nat.le_max_right _ _)]
    exact exists_of_populatedBelow hs hm hn (by simp) (Nat.le_max_left _ _)
  · obtain ⟨hform,haddress,hvalid⟩ := isDefault_of_defaultWithin hs hm hd
    exact ⟨hform,haddress,hvalid⟩
  · obtain ⟨x,hx,hcase⟩ := blamesBelow_of_defaultWithin hs hm herr
    obtain ⟨f,hf⟩ := hdefined x hx
    refine ⟨x,f,hx,hf,?_⟩
    rcases hcase with ⟨hnone,-⟩ | rfl
    · cases hnone.symm.trans hf
    · rw [FormGraph.nameOrId,FormGraph.name?_of_get? hf,Option.getD_some]

end Denotator

namespace FormGraph

/-- Trees with pitches for leaves, of which the sum tries to branch first, and lists of pitches that
never end. -/
def melodies : FormGraph :=
  ⟨[.defined ⟨"Pitch",.simple .z,none,false⟩,.defined ⟨"Tree",.colimit [⟨2⟩,⟨0⟩],none,false⟩,
    .defined ⟨"Branch",.limit [⟨1⟩,⟨1⟩],none,false⟩,
    .defined ⟨"Endless",.limit [⟨0⟩,⟨3⟩],none,false⟩],.empty⟩

theorem reachable_melodies : melodies.Reachable := by
  have declared := (((Reachable.empty.declare "Pitch" .simple).declare "Tree" .colimit).declare
    "Branch" .limit).declare "Endless" .limit
  have a := @Reachable.define _ _ declared ⟨0⟩ (.simple .z) none rfl
  have b := @Reachable.define _ _ a ⟨1⟩ (.colimit [⟨2⟩,⟨0⟩]) none rfl
  have c := @Reachable.define _ _ b ⟨2⟩ (.limit [⟨1⟩,⟨1⟩]) none rfl
  exact @Reachable.define _ _ c ⟨3⟩ (.limit [⟨0⟩,⟨3⟩]) none rfl

theorem modulesProper_melodies : melodies.ModulesProper := by
  refine modulesProper_of_slots fun f x hmem hx => ?_
  simp only [melodies,List.mem_cons,List.not_mem_nil,Slot.defined.injEq,or_false] at hmem
  rcases hmem with rfl | rfl | rfl | rfl <;> cases hx
  rfl

end FormGraph

namespace Denotator

/-- The default tree is a pitch, within a branch too. -/
theorem default_melodies : FormGraph.melodies.Reachable ∧ FormGraph.melodies.ModulesProper ∧
    FormGraph.melodies.Populated ⟨2⟩ ∧ ¬ FormGraph.melodies.Populated ⟨3⟩ ∧
    ∃ d, default .melodies ⟨2⟩ .z = .ok d ∧ d.form = ⟨2⟩ ∧ d.address = .z ∧
      d.validate .melodies = .ok () := by
  have hr := FormGraph.reachable_melodies
  have hm := FormGraph.modulesProper_melodies
  obtain ⟨-,hbranch,hvalid,-⟩ := default_iff_populated hr hm ⟨2⟩ .z
  have hpopulated : FormGraph.melodies.Populated ⟨2⟩ := by
    refine .limit rfl rfl fun sub hsub => ?_
    obtain rfl : sub = ⟨1⟩ := by simpa [Form.subForms,Body.subForms] using hsub
    have hpitch : FormGraph.melodies.Populated ⟨0⟩ := .flat rfl (.inl rfl)
    exact .colimit rfl rfl (by decide) hpitch
  obtain ⟨d,hd⟩ := hbranch.mpr hpopulated
  refine ⟨hr,hm,hpopulated,fun hp => ?_,d,hd,hvalid d hd⟩
  obtain ⟨e,he⟩ := (default_iff_populated hr hm ⟨3⟩ .z).2.1.mpr hp
  have hnone : default .melodies ⟨3⟩ .z = .error (.noDefault "Endless") := by cbv
  cases hnone.symm.trans he

end Denotator
end AddressedForms
