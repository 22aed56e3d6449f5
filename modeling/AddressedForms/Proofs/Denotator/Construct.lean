import AddressedForms.Denotator.Validate
import AddressedForms.Proofs.Address.Proper
import AddressedForms.Proofs.Denotator.Equality
set_option autoImplicit false

/-!
What the checked constructors need and what they make. A node can be made anew of factors like its
own: with the address that the factors share, which is its own address or is moved there if there
are no factors.
-/

namespace AddressedForms
namespace Denotator
variable {g : FormGraph}

/-- A factor of every sub-form, of the variant, or of the only sub-form; a coordinate over the
address in the module. -/
inductive Fits (g : FormGraph) : Body → Denotator → Prop
  | simple {h : Head} {m : Morphism} (hd : m.domain = h.address) :
    Fits g (.simple m.codomain) (.simple h m)
  | limit {subs : List FormId} {h : Head} {ds : List Denotator}
    (hf : List.Forall₂ (fun sub d => g.Similar sub d.form) subs ds) :
    Fits g (.limit subs) (.limit h ds)
  | colimit {subs : List FormId} {sub : FormId} {h : Head} {i : Nat} {d : Denotator}
    (hs : subs[i]? = some sub) (hf : g.Similar sub d.form) : Fits g (.colimit subs) (.colimit h i d)
  | power {base : FormId} {h : Head} {ds : List Denotator} (hf : ∀ d ∈ ds, g.Similar base d.form) :
    Fits g (.power base) (.power h ds)
  | list {base : FormId} {h : Head} {ds : List Denotator} (hf : ∀ d ∈ ds, g.Similar base d.form) :
    Fits g (.list base) (.list h ds)

theorem Fits.extend {ext : FormGraph} (he : g.Keeps ext) {b : Body} {d : Denotator}
    (h : Fits g b d) : Fits ext b d := by
  cases h with
  | simple hd => exact .simple hd
  | limit hf => exact .limit (hf.imp fun _ _ hs => hs.extend he)
  | colimit hs hf => exact .colimit hs (hf.extend he)
  | power hf => exact .power fun d hd => (hf d hd).extend he
  | list hf => exact .list fun d hd => (hf d hd).extend he

theorem Fits.kind_eq {b : Body} {d : Denotator} (h : Fits g b d) : b.kind = d.kind := by
  cases h <;> rfl

theorem checkForm_eq_ok_iff (hu : g.NamesUnique) {sub : FormId} {d : Denotator} :
    checkForm g sub d = .ok () ↔ g.Similar sub d.form := by
  rw [checkForm,← FormGraph.equalForms_iff_similar hu]
  split <;> simp_all

theorem checkForms_eq_ok_iff (hu : g.NamesUnique) {subs : List FormId} {ds : List Denotator}
    (hl : subs.length = ds.length) : checkForms g subs ds = .ok () ↔
      List.Forall₂ (fun sub d => g.Similar sub d.form) subs ds := by
  induction subs generalizing ds with
  | nil =>
    cases List.length_eq_zero_iff.mp hl.symm
    simp [checkForms]
  | cons sub subs ih =>
    cases ds with
    | nil => simp at hl
    | cons d ds =>
      rw [checkForms,Except.check_eq_ok_iff,List.forall₂_cons,← ih (Nat.succ.inj hl),
        checkForm_eq_ok_iff hu]

theorem checkAll_eq_ok_iff_forall {base : FormId} {ds : List Denotator} :
    checkAll g base ds = .ok () ↔ ∀ d ∈ ds, checkForm g base d = .ok () := by
  induction ds with
  | nil => simp [checkAll]
  | cons d ds ih => rw [checkAll,Except.check_eq_ok_iff,List.forall_mem_cons,ih]

theorem checkAll_eq_ok_iff (hu : g.NamesUnique) {base : FormId} {ds : List Denotator} :
    checkAll g base ds = .ok () ↔ ∀ d ∈ ds, g.Similar base d.form := by
  simp only [checkAll_eq_ok_iff_forall,checkForm_eq_ok_iff hu]

theorem requireForm_eq_ok_iff {id : FormId} {f : Form} :
    requireForm g id = .ok f ↔ g.get? id = some f := by
  unfold requireForm
  split <;> simp_all

theorem requireKind_eq_ok_iff {id : FormId} {k : Kind} {f : Form} :
    requireKind g id k = .ok f ↔ g.get? id = some f ∧ f.kind = k := by
  rw [requireKind,Except.bind_eq_ok_iff]
  constructor
  · rintro ⟨e,he,h⟩
    split at h
    · cases h
      exact ⟨requireForm_eq_ok_iff.mp he,‹_›⟩
    · contradiction
  · rintro ⟨hf,hk⟩
    exact ⟨f,requireForm_eq_ok_iff.mpr hf,if_pos hk⟩

theorem checkMorphism_eq_ok_iff {address module : Module} {m : Morphism} :
    checkMorphism address module m = .ok () ↔ m.domain = address ∧ m.codomain = module := by
  unfold checkMorphism
  split
  · simp_all
  · split <;> simp_all

theorem subForm_colimit_eq_ok_iff {name : String} {subs : List FormId} {labels : Option Labels}
    {registered : Bool} {i : Nat} {sub : FormId} :
    fromPath ((⟨name,.colimit subs,labels,registered⟩ : Form).subForm i) = .ok sub ↔
      subs[i]? = some sub := by
  cases h : subs[i]? <;> simp [Form.subForm,h,fromPath,Except.mapError]

theorem checkNode_eq_ok_iff (hu : g.NamesUnique) {d : Denotator} :
    d.checkNode g = .ok () ↔ ∃ f, g.get? d.form = some f ∧ Fits g f.body d := by
  rw [checkNode,Except.bind_eq_ok_iff]
  refine exists_congr fun f => ?_
  rw [requireForm_eq_ok_iff]
  refine and_congr_right fun hget => ?_
  clear hget
  obtain ⟨name,body,labels,registered⟩ := f
  constructor
  · intro h
    split at h <;> rename_i hb
    · cases hb
      obtain ⟨hd,rfl⟩ := checkMorphism_eq_ok_iff.mp h
      exact .simple hd
    · cases hb
      split at h
      · contradiction
      · exact .limit ((checkForms_eq_ok_iff hu (by simp_all)).mp h)
    · cases hb
      obtain ⟨sub,hsub,hf⟩ := Except.bind_eq_ok_iff.mp h
      exact .colimit (subForm_colimit_eq_ok_iff.mp hsub) ((checkForm_eq_ok_iff hu).mp hf)
    · cases hb
      exact .power ((checkAll_eq_ok_iff hu).mp h)
    · cases hb
      exact .list ((checkAll_eq_ok_iff hu).mp h)
    · contradiction
  · intro h
    generalize body = b at h
    cases h with
    | simple hd => exact checkMorphism_eq_ok_iff.mpr ⟨hd,rfl⟩
    | limit hf =>
      have hl := hf.length_eq
      simpa [hl] using (checkForms_eq_ok_iff hu hl).mpr hf
    | colimit hs hf =>
      exact Except.bind_eq_ok_iff.mpr ⟨_,subForm_colimit_eq_ok_iff.mpr hs,
        (checkForm_eq_ok_iff hu).mpr hf⟩
    | power hf => exact (checkAll_eq_ok_iff hu).mpr hf
    | list hf => exact (checkAll_eq_ok_iff hu).mpr hf

theorem validate_eq_ok_iff (d : Denotator) : d.validate g = .ok () ↔ d.checkNode g = .ok () ∧
    ∀ f ∈ d.factors, checkAddress d.address f = .ok () ∧ f.validate g = .ok () := by
  have hall (address : Module) (ds : List Denotator) : validateAll g address ds = .ok () ↔
      ∀ f ∈ ds, checkAddress address f = .ok () ∧ f.validate g = .ok () := by
    induction ds with
    | nil => simp [validateAll]
    | cons d ds ih =>
      rw [validateAll,Except.check_eq_ok_iff,Except.check_eq_ok_iff,List.forall_mem_cons,ih,
        and_assoc]
  cases d with
  | simple h m => simp [validate,factors]
  | colimit h i d =>
    simp only [validate,Except.check_eq_ok_iff,factors,List.mem_singleton,forall_eq,address,head]
  | limit h ds | power h ds | list h ds =>
    simp only [validate,Except.check_eq_ok_iff,factors,hall,address,head]

theorem checkAddress_eq_ok_iff {parent : Module} {d : Denotator} :
    checkAddress parent d = .ok () ↔ d.address = .null ∨ d.address = parent := by
  simp only [checkAddress,Module.isNull_iff]
  split <;> simp_all

theorem validate_of_mem_factors {d f : Denotator} (h : d.validate g = .ok ())
    (hf : f ∈ d.factors) : f.validate g = .ok () ∧ (f.address = .null ∨ f.address = d.address) :=
  have ⟨haddress,hvalid⟩ := ((validate_eq_ok_iff d).mp h).2 f hf
  ⟨hvalid,checkAddress_eq_ok_iff.mp haddress⟩

theorem Fits.alike {b c : Body} {x y : Denotator} (h : Fits g b x) (hb : b.Related g.Similar c)
    (hxy : Alike g x y) : Fits g c y := by
  obtain ⟨-,-,haddress,hkind,hindex,hmorphism⟩ := hxy.sameNode
  cases h with
  | @simple k m hd =>
    rw [hb.simple_left]
    cases y <;> cases hkind
    cases hmorphism
    exact .simple (hd.trans haddress)
  | limit hf =>
    obtain ⟨subs,rfl,hsubs⟩ := hb.limit_left
    cases y <;> cases hkind
    have hds := hxy.factors_of_ne fun hk => by cases hk
    refine .limit ((forall₂_comp hsubs.flip (forall₂_comp hf hds)).imp ?_)
    rintro sub e ⟨sub',hsub,d,hd,hde⟩
    exact (FormGraph.Similar.symm hsub).trans (hd.trans hde.sameNode.form)
  | colimit hs hf =>
    obtain ⟨subs,rfl,hsubs⟩ := hb.colimit_left
    cases y <;> cases hkind
    cases hindex
    obtain ⟨sub,hsub,hss⟩ := getElem?_of_forall₂ hsubs.flip hs
    obtain ⟨d,hd,hde⟩ := hxy.exists_factor List.mem_cons_self
    cases List.mem_singleton.mp hd
    exact .colimit hsub ((FormGraph.Similar.symm hss).trans (hf.trans hde.sameNode.form))
  | power hf =>
    obtain ⟨base,rfl,hbase⟩ := hb.power_left
    cases y <;> cases hkind
    refine .power fun e he => ?_
    obtain ⟨d,hd,hde⟩ := hxy.exists_factor he
    exact hbase.symm.trans ((hf d hd).trans hde.sameNode.form)
  | list hf =>
    obtain ⟨base,rfl,hbase⟩ := hb.list_left
    cases y <;> cases hkind
    refine .list fun e he => ?_
    obtain ⟨d,hd,hde⟩ := hxy.exists_factor he
    exact hbase.symm.trans ((hf d hd).trans hde.sameNode.form)

theorem Alike.validate (hu : g.NamesUnique) {x y : Denotator} (h : Alike g x y)
    (hx : x.validate g = .ok ()) : y.validate g = .ok () := by
  induction x using factor_induction generalizing y with
  | h x ih =>
    obtain ⟨hnode,hfactors⟩ := (validate_eq_ok_iff x).mp hx
    obtain ⟨f,hf,hfit⟩ := (checkNode_eq_ok_iff hu).mp hnode
    obtain ⟨e,he,-,hbody⟩ := h.sameNode.form.exists_form hf
    refine (validate_eq_ok_iff y).mpr
      ⟨(checkNode_eq_ok_iff hu).mpr ⟨e,he,hfit.alike hbody h⟩,fun k hk => ?_⟩
    obtain ⟨j,hj,hjk⟩ := h.exists_factor hk
    refine ⟨?_,ih j hj hjk (hfactors j hj).2⟩
    rw [← h.sameNode.address,checkAddress_eq_ok_iff,← hjk.sameNode.address]
    exact checkAddress_eq_ok_iff.mp (hfactors j hj).1

/-- In a valid denotator every node is in order, and every factor has the address of its node or
none. -/
structure Valid (g : FormGraph) (d : Denotator) : Prop where
  node : ∃ f, g.get? d.form = some f ∧ Fits g f.body d
  address : ∀ f ∈ d.factors, f.address = .null ∨ f.address = d.address

theorem valid_of_validate (hu : g.NamesUnique) {d : Denotator} (h : d.validate g = .ok ()) :
    ∀ n ∈ d.nodes, Valid g n := by
  induction d using factor_induction with
  | h d ih =>
    obtain ⟨hnode,hfactors⟩ := (validate_eq_ok_iff d).mp h
    intro n hn
    rw [nodes_eq,List.mem_cons,mem_allNodes] at hn
    rcases hn with rfl | ⟨f,hf,hn⟩
    · exact ⟨(checkNode_eq_ok_iff hu).mp hnode,fun f hf =>
        checkAddress_eq_ok_iff.mp (hfactors f hf).1⟩
    · exact ih f hf (hfactors f hf).2 n hn

section Address

theorem sharedAddressFrom_eq_ok_iff {found s : Module} {ds : List Denotator} :
    sharedAddressFrom found ds = .ok s ↔ (∀ d ∈ ds, d.address = .null ∨ d.address = s) ∧
      (found = .null ∨ found = s) ∧ (found = s ∨ ∃ d ∈ ds, d.address = s) := by
  induction ds generalizing found with
  | nil =>
    simp only [sharedAddressFrom,Except.ok.injEq]
    exact ⟨fun h => ⟨by simp,.inr h,.inl h⟩,fun ⟨_,_,h⟩ => h.resolve_right (by simp)⟩
  | cons d ds ih =>
    simp only [sharedAddressFrom,Module.isNull_iff,List.forall_mem_cons]
    by_cases hd : d.address = .null
    · rw [if_pos hd,ih]
      grind
    · rw [if_neg hd]
      by_cases hf : found = .null
      · rw [if_pos hf,ih]
        grind
      · rw [if_neg hf]
        by_cases he : found = d.address
        · rw [if_pos he,ih]
          grind
        · rw [if_neg he]
          grind

theorem sharedAddress_eq_ok_iff {s : Module} {ds : List Denotator} :
    sharedAddress ds = .ok s ↔ (∀ d ∈ ds, d.address = .null ∨ d.address = s) ∧
      (s = .null ∨ ∃ d ∈ ds, d.address = s) := by
  rw [sharedAddress,sharedAddressFrom_eq_ok_iff]
  simp [eq_comm]

theorem sharedAddress_congr {R : Denotator → Denotator → Prop} {ds es : List Denotator}
    (h : List.Forall₂ R es ds) (hr : ∀ e d, R e d → e.address = d.address) {s : Module} :
    sharedAddress es = .ok s ↔ sharedAddress ds = .ok s := by
  have hmap : es.map address = ds.map address := map_eq_of_forall₂ h hr
  have hall (xs : List Denotator) : (∀ d ∈ xs, d.address = .null ∨ d.address = s) ↔
      ∀ a ∈ xs.map address, a = .null ∨ a = s := by simp
  have hex (xs : List Denotator) : (∃ d ∈ xs, d.address = s) ↔ s ∈ xs.map address := by simp
  rw [sharedAddress_eq_ok_iff,sharedAddress_eq_ok_iff,hall,hall,hex,hex,hmap]

end Address

/-- The node of a denotator made anew of other factors, by the constructor of its kind. -/
def remake (g : FormGraph) (form : FormId) (d : Denotator) (es : List Denotator) :
    Except DenotatorError Denotator :=
  match d with
  | .simple _ m => ofMorphism g form m
  | .limit _ _ => ofLimit g form es
  | .colimit _ i _ => ofVariant g form i (es.headD Inhabited.default)
  | .power _ _ => ofSet g form es
  | .list _ _ => ofList g form es

structure Made (form : FormId) (d : Denotator) (es : List Denotator) (address : Module)
    (c : Denotator) : Prop where
  head : c.head = ⟨form,none,address⟩
  kind : c.kind = d.kind
  index : c.index? = d.index?
  morphism : c.morphism? = d.morphism?
  factors : c.factors = if d.kind = .power then asSet es else es

section Remake
variable {y : FormId} {d : Denotator} {es : List Denotator}

theorem made_of_remake {c : Denotator} (h : remake g y d es = .ok c)
    (hl : es.length = d.factors.length) : ∃ s, Made y d es s c ∧
      (∀ m, d.morphism? = some m → s = m.domain) ∧
      (d.morphism? = none → sharedAddress es = .ok s) := by
  cases d with
  | simple k m =>
    obtain rfl : es = [] := List.length_eq_zero_iff.mp hl
    obtain ⟨f,-,h⟩ := Except.bind_eq_ok_iff.mp h
    dsimp only at h
    split at h
    · cases h
      exact ⟨m.domain,⟨rfl,rfl,rfl,rfl,rfl⟩,by simp [morphism?],by simp [morphism?]⟩
    · contradiction
  | limit k ds =>
    obtain ⟨f,-,h⟩ := Except.bind_eq_ok_iff.mp h
    split at h
    · contradiction
    · obtain ⟨-,h⟩ := Except.check_eq_ok_iff.mp h
      obtain ⟨s,hs,h⟩ := Except.bind_eq_ok_iff.mp h
      cases h
      exact ⟨s,⟨rfl,rfl,rfl,rfl,rfl⟩,by simp [morphism?],fun _ => hs⟩
  | colimit k i e =>
    obtain ⟨e',rfl⟩ : ∃ e', es = [e'] := List.length_eq_one_iff.mp hl
    obtain ⟨f,-,h⟩ := Except.bind_eq_ok_iff.mp h
    obtain ⟨sub,-,h⟩ := Except.bind_eq_ok_iff.mp h
    obtain ⟨-,h⟩ := Except.check_eq_ok_iff.mp h
    cases h
    exact ⟨e'.address,⟨rfl,rfl,rfl,rfl,rfl⟩,by simp [morphism?],
      fun _ => sharedAddress_eq_ok_iff.mpr ⟨by simp,.inr ⟨e',by simp,rfl⟩⟩⟩
  | power k ds | list k ds =>
    obtain ⟨f,-,h⟩ := Except.bind_eq_ok_iff.mp h
    obtain ⟨base,-,h⟩ := Except.bind_eq_ok_iff.mp h
    obtain ⟨-,h⟩ := Except.check_eq_ok_iff.mp h
    obtain ⟨s,hs,h⟩ := Except.bind_eq_ok_iff.mp h
    cases h
    exact ⟨s,⟨rfl,rfl,rfl,rfl,rfl⟩,by simp [morphism?],fun _ => hs⟩

/-- A node that fits its form can be made anew under a similar form, of factors like its own that
share an address. -/
theorem exists_remake {ext : FormGraph} (hu : ext.NamesUnique) {b : Body} {f : Form}
    (hfit : Fits ext b d) (hf : ext.get? y = some f) (hr : b.Related ext.Similar f.body)
    (hes : List.Forall₂ (SameNode ext) es d.factors) {s : Module} (hs : sharedAddress es = .ok s) :
    ∃ c, remake ext y d es = .ok c := by
  obtain ⟨name,body,labels,registered⟩ := f
  have hform {sub sub' : FormId} {e d : Denotator} (h : ext.Similar sub sub')
      (hd : ext.Similar sub d.form) (he : SameNode ext e d) : ext.Similar sub' e.form :=
    h.symm.trans (hd.trans he.form.symm)
  have hall {base base' : FormId} {ds : List Denotator} (h : ext.Similar base base')
      (hds : ∀ d ∈ ds, ext.Similar base d.form) (hes : List.Forall₂ (SameNode ext) es ds) :
      ∀ e ∈ es, ext.Similar base' e.form := by
    intro e he
    obtain ⟨d,hd,hed⟩ := exists_of_forall₂_left hes he
    exact hform h (hds d hd) hed
  cases hfit with
  | @simple k m hd =>
    obtain rfl := hr.simple_left
    exact ⟨.simple ⟨y,none,m.domain⟩ m,Except.bind_eq_ok_iff.mpr
      ⟨_,requireKind_eq_ok_iff.mpr ⟨hf,rfl⟩,if_pos rfl⟩⟩
  | @limit subs k ds hds =>
    obtain ⟨subs',rfl,hsubs⟩ := hr.limit_left
    have hlen : es.length = subs'.length :=
      hes.length_eq.trans (hds.length_eq.symm.trans hsubs.length_eq)
    have hforms : List.Forall₂ (fun sub e => ext.Similar sub e.form) subs' es := by
      refine (forall₂_comp (forall₂_comp hsubs.flip hds) hes.flip).imp ?_
      rintro sub' e ⟨d,⟨sub,hss,hd⟩,he⟩
      exact hform hss hd he
    refine ⟨.limit ⟨y,none,s⟩ es,Except.bind_eq_ok_iff.mpr
      ⟨_,requireKind_eq_ok_iff.mpr ⟨hf,rfl⟩,(if_neg (not_not_intro hlen)).trans ?_⟩⟩
    exact Except.check_eq_ok_iff.mpr ⟨(checkForms_eq_ok_iff hu hlen.symm).mpr hforms,
      Except.bind_eq_ok_iff.mpr ⟨s,hs,rfl⟩⟩
  | @colimit subs sub k i e hi hsub =>
    obtain ⟨subs',rfl,hsubs⟩ := hr.colimit_left
    obtain ⟨e',rfl⟩ : ∃ e', es = [e'] := List.length_eq_one_iff.mp hes.length_eq
    obtain ⟨sub',hi',hss⟩ := getElem?_of_forall₂ hsubs.flip hi
    have he : SameNode ext e' e := (List.forall₂_cons.mp hes).1
    exact ⟨.colimit ⟨y,none,e'.address⟩ i e',Except.bind_eq_ok_iff.mpr
      ⟨_,requireKind_eq_ok_iff.mpr ⟨hf,rfl⟩,Except.bind_eq_ok_iff.mpr
        ⟨sub',subForm_colimit_eq_ok_iff.mpr hi',Except.check_eq_ok_iff.mpr
          ⟨(checkForm_eq_ok_iff hu).mpr (hform hss hsub he),rfl⟩⟩⟩⟩
  | @power base k ds hds =>
    obtain ⟨base',rfl,hbase⟩ := hr.power_left
    refine ⟨.power ⟨y,none,s⟩ (asSet es),Except.bind_eq_ok_iff.mpr
      ⟨_,requireKind_eq_ok_iff.mpr ⟨hf,rfl⟩,Except.bind_eq_ok_iff.mpr ⟨base',rfl,?_⟩⟩⟩
    exact Except.check_eq_ok_iff.mpr ⟨(checkAll_eq_ok_iff hu).mpr (hall hbase hds hes),
      Except.bind_eq_ok_iff.mpr ⟨s,hs,rfl⟩⟩
  | @list base k ds hds =>
    obtain ⟨base',rfl,hbase⟩ := hr.list_left
    refine ⟨.list ⟨y,none,s⟩ es,Except.bind_eq_ok_iff.mpr
      ⟨_,requireKind_eq_ok_iff.mpr ⟨hf,rfl⟩,Except.bind_eq_ok_iff.mpr ⟨base',rfl,?_⟩⟩⟩
    exact Except.check_eq_ok_iff.mpr ⟨(checkAll_eq_ok_iff hu).mpr (hall hbase hds hes),
      Except.bind_eq_ok_iff.mpr ⟨s,hs,rfl⟩⟩

end Remake

section Move

@[simp] theorem index?_withHead (d : Denotator) (h : Head) : (d.withHead h).index? = d.index? := by
  cases d <;> rfl

@[simp] theorem morphism?_withHead (d : Denotator) (h : Head) :
    (d.withHead h).morphism? = d.morphism? := by cases d <;> rfl

theorem insertFactor_perm {x : Denotator} {ys : List Denotator} (h : x ∉ ys) :
    (insertFactor x ys).Perm (x :: ys) := by
  induction ys with
  | nil => exact .refl _
  | cons y ys ih =>
    rw [List.mem_cons,not_or] at h
    rw [insertFactor]
    split
    · exact .refl _
    · exact absurd ((compare_eq_iff x y).mp ‹_›) h.1
    · exact ((ih h.2).cons y).trans (.swap x y ys)

theorem asSet_perm {xs : List Denotator} (h : xs.Nodup) : (asSet xs).Perm xs := by
  induction xs with
  | nil => exact .refl _
  | cons x xs ih =>
    obtain ⟨hx,hxs⟩ := List.nodup_cons.mp h
    exact (insertFactor_perm (mt (mem_asSet x xs).mp hx)).trans ((ih hxs).cons x)

theorem address_of_readdress {old new : Module} {m : Morphism} {d e : Denotator}
    (h : d.readdress old new m = .ok e) : e.address = new := by
  cases d with
  | simple k f | limit k ds | power k ds | list k ds =>
    rw [readdress] at h
    obtain ⟨x,-,h⟩ := Except.bind_eq_ok_iff.mp h
    cases h
    rfl
  | colimit k i f =>
    rw [readdress] at h
    split at h <;> obtain ⟨x,-,h⟩ := Except.bind_eq_ok_iff.mp h <;> cases h <;> rfl

theorem morphism?_eq_of_kind {d e : Denotator} (h : e.kind = d.kind) (hd : d.morphism? = none) :
    e.morphism? = d.morphism? := by
  cases d <;> cases e <;> simp_all [kind,morphism?]

theorem readdressAll_eq_ok_iff {old new : Module} {m : Morphism} {ds es : List Denotator} :
    readdressAll old new m ds = .ok es ↔ List.Forall₂ (fun d e =>
      (if d.address = old then d.readdress old new m else .ok d) = .ok e) ds es := by
  induction ds generalizing es with
  | nil => cases es <;> simp [readdressAll]
  | cons d ds ih =>
    have hcons : readdressAll old new m (d :: ds) =
        ((if d.address = old then d.readdress old new m else .ok d) >>= fun e =>
          readdressAll old new m ds >>= fun es => .ok (e :: es)) := by
      rw [readdressAll]
      split <;> rfl
    rw [hcons,Except.bind_eq_ok_iff]
    constructor
    · rintro ⟨e,he,h⟩
      obtain ⟨es',hes,h⟩ := Except.bind_eq_ok_iff.mp h
      cases h
      exact .cons he (ih.mp hes)
    · intro h
      cases h with
      | cons he hes => exact ⟨_,he,Except.bind_eq_ok_iff.mpr ⟨_,ih.mpr hes,rfl⟩⟩

/-- What is moved keeps its head but for the address; its factors move along if they have the same
address as the node. -/
structure Moved (old new : Module) (d e : Denotator) : Prop where
  head : e.head = {d.head with address := new}
  kind : e.kind = d.kind
  index : e.index? = d.index?
  factors : d.kind ≠ .power →
    List.Forall₂ (fun f e => f.address = old → e.address = new) d.factors e.factors

theorem moved_of_readdress {old new : Module} {m : Morphism} {d e : Denotator}
    (h : d.readdress old new m = .ok e) : Moved old new d e := by
  have hfactor {f e : Denotator}
      (h : (if f.address = old then f.readdress old new m else .ok f) = .ok e) :
      f.address = old → e.address = new := by
    intro ha
    rw [if_pos ha] at h
    exact address_of_readdress h
  cases d with
  | simple k f =>
    rw [readdress] at h
    obtain ⟨x,-,h⟩ := Except.bind_eq_ok_iff.mp h
    cases h
    exact ⟨rfl,rfl,rfl,fun _ => .nil⟩
  | colimit k i f =>
    rw [readdress] at h
    split at h <;> rename_i hf <;> obtain ⟨x,hx,h⟩ := Except.bind_eq_ok_iff.mp h <;> cases h
    · exact ⟨rfl,rfl,rfl,fun _ => .cons (fun _ => address_of_readdress hx) .nil⟩
    · exact ⟨rfl,rfl,rfl,fun _ => .cons (fun h => absurd h hf) .nil⟩
  | power k ds =>
    rw [readdress] at h
    obtain ⟨x,-,h⟩ := Except.bind_eq_ok_iff.mp h
    cases h
    exact ⟨rfl,rfl,rfl,fun hk => absurd rfl hk⟩
  | limit k ds | list k ds =>
    rw [readdress] at h
    obtain ⟨x,hx,h⟩ := Except.bind_eq_ok_iff.mp h
    cases h
    exact ⟨rfl,rfl,rfl,fun _ => (readdressAll_eq_ok_iff.mp hx).imp fun _ _ h => hfactor h⟩

theorem moved_of_readdressTo? {d e : Denotator} {a : Module} (h : d.readdressTo? a = some e)
    (ha : d.address ≠ a) : Moved d.address a d e := by
  rw [readdressTo?,if_neg ha] at h
  obtain ⟨m,-,h⟩ := Option.bind_eq_some_iff.mp h
  cases hr : d.readdress d.address a m with
  | error err => rw [hr] at h; cases h
  | ok e' =>
    rw [hr] at h
    cases h
    exact moved_of_readdress hr

/-- A node without factors or coordinate can be moved from the null address to any other. -/
theorem readdressTo?_of_empty {d : Denotator} (hf : d.factors = []) (hm : d.morphism? = none)
    (ha : d.address = .null) (a : Module) :
    d.readdressTo? a = some (d.withHead {d.head with address := a}) := by
  unfold readdressTo?
  split
  · rename_i he
    subst he
    exact congrArg some (withHead_head d).symm
  · rename_i hne
    have hc : Morphism.canonical? a .null = some (.constant a .null) := by
      have hne : a ≠ .null := fun he => hne (ha.trans he.symm)
      simp [Morphism.canonical?,hne,Module.isNull]
    rw [ha,hc,Option.bind_some]
    cases d with
    | simple k f => simp [morphism?] at hm
    | colimit k i f => simp [factors] at hf
    | limit k ds | power k ds | list k ds =>
      cases hf
      rfl

end Move

end Denotator
end AddressedForms
