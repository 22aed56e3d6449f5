import AddressedForms.Proofs.Denotator.Operations
set_option autoImplicit false

/-!
Grafts: denotators with another one at the end of a path, and with other addresses above it. What
is found in a graft is what was put there, and off the path what was there before; evaluation and
change of address act on a graft as they do on the part that is new.
-/

namespace AddressedForms
namespace Denotator
variable {g : FormGraph} {d e f n new u v w : Denotator} {a b old : Module} {m : Morphism}
  {x : Element} {i j k : Nat} {path q : List Nat} {φ : Module → Module}

section Factors

theorem head_withFactor (d : Denotator) (i : Nat) (a : Module) (f : Denotator) :
    (d.withFactor i a f).head = movedTo d.head a := by cases d <;> rfl

theorem address_withFactor (d : Denotator) (i : Nat) (a : Module) (f : Denotator) :
    (d.withFactor i a f).address = a := congrArg Head.address (head_withFactor d i a f)

theorem kind_withFactor (d : Denotator) (i : Nat) (a : Module) (f : Denotator) :
    (d.withFactor i a f).kind = d.kind := by cases d <;> rfl

theorem index?_withFactor (d : Denotator) (i : Nat) (a : Module) (f : Denotator) :
    (d.withFactor i a f).index? = d.index?.map fun _ => i := by cases d <;> rfl

theorem morphism?_withFactor (d : Denotator) (i : Nat) (a : Module) (f : Denotator) :
    (d.withFactor i a f).morphism? = d.morphism? := by cases d <;> rfl

theorem step_withFactor (hk : d.kind ≠ .power) (hf : d.step i 0 = .ok f) (a : Module)
    (new : Denotator) (k : Nat) : (d.withFactor i a new).step i k = .ok new := by
  cases d with
  | simple h c => cases hf
  | colimit h active c => exact if_pos rfl
  | power h ds => exact absurd rfl hk
  | limit h ds | list h ds =>
    obtain ⟨j,hj,hplace⟩ := step_eq_ok_iff.mp hf
    obtain rfl : j = i := by simpa [index?] using hplace
    have hlt := (List.getElem?_eq_some_iff.mp hj).1
    refine step_eq_ok_iff.mpr ⟨j,?_,.inl ⟨rfl,rfl⟩⟩
    exact List.getElem?_set_self hlt

theorem step_withFactor_of_ne (hk : d.kind ≠ .power) (hf : d.step i 0 = .ok f) (hj : j ≠ i)
    (he : d.step j k = .ok e) (a : Module) (new : Denotator) :
    (d.withFactor i a new).step j k = .ok e := by
  cases d with
  | simple h c => cases hf
  | colimit h active c =>
    have hactive {l k : Nat} {e : Denotator} (he : (colimit h active c).step l k = .ok e) :
        l = active := by
      by_contra hne
      simp [step,hne] at he
    exact absurd ((hactive he).trans (hactive hf).symm) hj
  | power h ds => exact absurd rfl hk
  | limit h ds | list h ds =>
    obtain ⟨l,hl,hplace⟩ := step_eq_ok_iff.mp he
    obtain rfl : l = j := by simpa [index?] using hplace
    refine step_eq_ok_iff.mpr ⟨l,?_,.inl ⟨rfl,rfl⟩⟩
    exact (List.getElem?_set_ne hj.symm).trans hl

theorem withFactor_self (hs : d.kind = .power → StrictlySorted d.factors)
    (hf : d.step i k = .ok f) : d.withFactor i d.address f = d := by
  obtain ⟨j,hj,hplace⟩ := step_eq_ok_iff.mp hf
  have hset (ds : List Denotator) (h : ds[j]? = some f) : ds.set j f = ds := by
    obtain ⟨hlt,rfl⟩ := List.getElem?_eq_some_iff.mp h
    exact List.set_getElem_self hlt
  cases d with
  | simple h c => cases hf
  | colimit h active c =>
    obtain ⟨rfl,rfl⟩ : active = i ∧ j = 0 := by simpa [index?] using hplace
    cases hj
    rfl
  | limit h ds | list h ds =>
    obtain rfl : j = i := by simpa [index?] using hplace
    rw [withFactor,hset ds hj]
    rfl
  | power h ds =>
    obtain rfl : j = i := by simpa [index?] using hplace
    have hsame : asSet ds = ds :=
      (strictlySorted_asSet ds).eq_of_mem_iff (hs rfl) fun x => mem_asSet x ds
    rw [withFactor,hset ds hj,hsame]
    rfl

end Factors

/-- The denotator with another one at the end of a path, and with other addresses of the nodes on
the way. -/
def graft (φ : Module → Module) (new : Denotator) : List Nat → Denotator → Denotator
  | [], _ => new
  | i :: path, d =>
    match d.step i 0 with
    | .ok f => d.withFactor i (φ d.address) (graft φ new path f)
    | .error _ => d

theorem withFactor_withHead (d : Denotator) (i : Nat) (a b : Module) (f : Denotator) :
    (d.withHead (movedTo d.head b)).withFactor i a f = d.withFactor i a f := by cases d <;> rfl

theorem graft_cons (h : d.step i 0 = .ok f) :
    graft φ new (i :: path) d = d.withFactor i (φ d.address) (graft φ new path f) := by
  rw [graft,h]

/-- Whether no set has to be entered along a path. -/
def AvoidsSets (d : Denotator) (path : List Nat) : Prop :=
  ∀ q, q <+: path → q ≠ path → ∀ a, d.get q = .ok a → a.kind ≠ .power

theorem avoidsSets_nil (d : Denotator) : d.AvoidsSets [] :=
  fun _ hq hne => absurd (List.prefix_nil.mp hq) hne

theorem avoidsSets_cons_iff (h : d.step i 0 = .ok f) :
    d.AvoidsSets (i :: path) ↔ d.kind ≠ .power ∧ f.AvoidsSets path := by
  constructor
  · intro hd
    refine ⟨hd [] List.nil_prefix (List.cons_ne_nil i path).symm d rfl,fun q hq hne a ha => ?_⟩
    exact hd (i :: q) (List.cons_prefix_cons.mpr ⟨rfl,hq⟩) (mt (List.tail_eq_of_cons_eq) hne) a
      (get_cons_eq_ok_iff.mpr ⟨f,h,ha⟩)
  · rintro ⟨hk,hf⟩ q hq hne a ha
    cases q with
    | nil =>
      cases ha
      exact hk
    | cons j q =>
      obtain ⟨rfl,hq'⟩ := List.cons_prefix_cons.mp hq
      obtain ⟨f',hf',ha'⟩ := get_cons_eq_ok_iff.mp ha
      cases h.symm.trans hf'
      exact hf q hq' (mt (congrArg (j :: ·)) hne) a ha'

theorem address_graft (ha : new.address = a) (hn : d.get path = .ok n) :
    (graft (fun _ => a) new path d).address = a := by
  cases path with
  | nil => exact ha
  | cons i path =>
    obtain ⟨f,hf,-⟩ := get_cons_eq_ok_iff.mp hn
    rw [graft_cons hf,address_withFactor]

theorem address_graft_id (ha : new.address = .null ∨ new.address = n.address)
    (hn : d.get path = .ok n) :
    (graft id new path d).address = .null ∨ (graft id new path d).address = d.address := by
  cases path with
  | nil =>
    cases hn
    exact ha
  | cons i path =>
    obtain ⟨f,hf,-⟩ := get_cons_eq_ok_iff.mp hn
    rw [graft_cons hf,address_withFactor]
    exact .inr rfl

theorem get_graft (hp : d.AvoidsSets path) (hn : d.get path = .ok n) :
    (graft φ new path d).get path = .ok new := by
  induction path generalizing d with
  | nil => rfl
  | cons i path ih =>
    obtain ⟨f,hf,hn⟩ := get_cons_eq_ok_iff.mp hn
    obtain ⟨hk,hp⟩ := (avoidsSets_cons_iff hf).mp hp
    rw [graft_cons hf]
    exact get_cons_eq_ok_iff.mpr ⟨_,step_withFactor hk hf _ _ 0,ih hp hn⟩

theorem get_graft_of_apart (hp : d.AvoidsSets path) (hn : d.get path = .ok n)
    (hpq : ¬ path <+: q) (hqp : ¬ q <+: path) (he : d.get q = .ok e) :
    (graft φ new path d).get q = .ok e := by
  induction path generalizing d q with
  | nil => exact absurd List.nil_prefix hpq
  | cons i path ih =>
    cases q with
    | nil => exact absurd List.nil_prefix hqp
    | cons j q =>
      obtain ⟨f,hf,hnf⟩ := get_cons_eq_ok_iff.mp hn
      obtain ⟨f',hf',hef⟩ := get_cons_eq_ok_iff.mp he
      obtain ⟨hk,hpf⟩ := (avoidsSets_cons_iff hf).mp hp
      rw [graft_cons hf]
      by_cases hj : j = i
      · -- the paths part further below
        subst hj
        cases hf.symm.trans hf'
        rw [List.cons_prefix_cons,not_and] at hpq hqp
        exact get_cons_eq_ok_iff.mpr ⟨_,step_withFactor hk hf _ _ 0,
          ih hpf hnf (hpq rfl) (hqp rfl) hef⟩
      · exact get_cons_eq_ok_iff.mpr ⟨f',step_withFactor_of_ne hk hf hj hf' _ _,hef⟩

theorem graft_self (hs : d.IsSorted) (hn : d.get path = .ok n) : graft id n path d = d := by
  induction path generalizing d with
  | nil => exact (Except.ok.inj hn).symm
  | cons i path ih =>
    obtain ⟨f,hf,hn⟩ := get_cons_eq_ok_iff.mp hn
    rw [graft_cons hf,ih (hs.of_mem_factors (mem_factors_of_step hf)) hn]
    exact withFactor_self (hs d (self_mem_nodes d)) hf

section Reworking

theorem eq_set_of_forall₂ {Q : Denotator → Denotator → Prop} {ds ws us : List Denotator}
    (hq : ∀ f v w, Q f v → Q f w → v = w) (hw : List.Forall₂ Q ds ws)
    (hu : List.Forall₂ Q (ds.set i new) us) (hi : i < ds.length) :
    ∃ r, Q new r ∧ us = ws.set i r := by
  induction hw generalizing i us with
  | nil => simp at hi
  | @cons f w ds ws hf hw ih =>
    cases i with
    | zero =>
      cases hu with
      | @cons _ r _ us hr hu =>
        have hsame : us = ws := by
          rw [← List.forall₂_eq_eq_eq]
          refine (forall₂_comp (R := flip Q) hu.flip hw).imp ?_
          rintro u w ⟨f,hu,hw⟩
          exact hq f u w hu hw
        exact ⟨r,hr,by rw [hsame]; rfl⟩
    | succ i =>
      cases hu with
      | @cons _ v _ us hv hu =>
        obtain ⟨r,hr,rfl⟩ := ih hu (Nat.lt_of_succ_lt_succ hi)
        cases hq f v w hv hf
        exact ⟨r,hr,rfl⟩

theorem Reworked.withFactor {Q : Denotator → Denotator → Prop}
    (hq : ∀ f v w, Q f v → Q f w → v = w) (hk : d.kind ≠ .power) (hf : d.step i 0 = .ok f)
    (hw : Reworked Q a d w) (hu : Reworked Q a (d.withFactor i b new) u) :
    ∃ r, Q new r ∧ u = w.withFactor i a r := by
  obtain ⟨us,hus,hufactors⟩ := hu.factors
  obtain ⟨ws,hws,hwfactors⟩ := hw.factors
  rw [kind_withFactor,if_neg hk] at hufactors
  rw [if_neg hk] at hwfactors
  obtain ⟨r,hr,hset⟩ : ∃ r, Q new r ∧ u.factors = (w.withFactor i a r).factors := by
    rw [hufactors]
    have hkind := hw.kind
    cases d with
    | simple h c => cases hf
    | power h ds => exact absurd rfl hk
    | colimit h active c =>
      cases w <;> cases hkind
      cases hus with
      | cons hr hus =>
        cases hus
        exact ⟨_,hr,rfl⟩
    | limit h ds | list h ds =>
      cases w <;> cases hkind
      cases hwfactors
      obtain ⟨j,hj,hplace⟩ := step_eq_ok_iff.mp hf
      obtain rfl : j = i := by simpa [index?] using hplace
      exact eq_set_of_forall₂ hq hws hus (List.getElem?_eq_some_iff.mp hj).1
  have hkind : u.kind = (w.withFactor i a r).kind := by
    rw [hu.kind,kind_withFactor,kind_withFactor,hw.kind]
  refine ⟨r,hr,ext_head ?_ hkind ?_ (morphism?_eq_of_kind hkind ?_) hset⟩
  · rw [hu.head,head_withFactor,head_withFactor,hw.head]
    rfl
  · rw [hu.index,index?_withFactor,index?_withFactor,hw.index]
  · rw [morphism?_withFactor,hw.no_morphism]

theorem address_of_mem_nodes (hv : d.validate g = .ok ()) (ha : d.address = .null)
    (hn : n ∈ d.nodes) : n.address = .null := by
  induction d using factor_induction with
  | h d ih =>
    rw [nodes_eq,List.mem_cons,mem_allNodes] at hn
    rcases hn with rfl | ⟨f,hf,hn⟩
    · exact ha
    · obtain ⟨hvf,haddress⟩ := validate_of_mem_factors hv hf
      exact ih f hf hvf (haddress.elim id (·.trans ha)) hn

/-- Above a part that is new and has a new address there are no others of that address. -/
theorem readdress_graft (hv : d.validate g = .ok ()) (hnull : path ≠ [] → d.address = .null)
    (hold : new.address = old) (hne : old ≠ .null) (hp : d.AvoidsSets path)
    (hn : d.get path = .ok n)
    (he : (graft (fun _ => old) new path d).readdress old a m = .ok e) :
    ∃ r, new.readdress old a m = .ok r ∧ e = graft (fun _ => a) r path d := by
  induction path generalizing d e with
  | nil => exact ⟨e,he,rfl⟩
  | cons i path ih =>
    obtain ⟨f,hf,hnf⟩ := get_cons_eq_ok_iff.mp hn
    obtain ⟨hk,hpf⟩ := (avoidsSets_cons_iff hf).mp hp
    have ha := hnull (List.cons_ne_nil i path)
    have hmem := mem_factors_of_step hf
    have hvf := (validate_of_mem_factors hv hmem).1
    have hfactor (f : Denotator) (hf : f ∈ d.factors) : f.address ≠ old :=
      address_of_mem_nodes hv ha (mem_nodes_of_mem_factors hf) ▸ hne.symm
    have hc := morphism?_of_step hf
    rw [graft_cons hf] at he
    have hu := reworked_of_readdress he ((morphism?_withFactor d i old _).trans hc)
    have hsame : List.Forall₂ (fun f f' => (if f.address = old then f.readdress old a m
        else .ok f) = .ok f') d.factors d.factors :=
      List.forall₂_same.mpr fun f hf => if_neg (hfactor f hf)
    have hw : Reworked _ a d (d.withHead (movedTo d.head a)) :=
      ⟨hc,head_withHead d _,kind_withHead d _,index?_withHead d _,d.factors,hsame,
        (factors_withHead d _).trans (if_neg hk).symm⟩
    obtain ⟨r,hr,rfl⟩ := hw.withFactor (fun f v w hv hw => Except.ok.inj (hv.symm.trans hw))
      hk hf hu
    rw [if_pos (address_graft hold hnf)] at hr
    obtain ⟨moved,hmoved,rfl⟩ := ih hvf (fun _ => address_of_mem_nodes hv ha
      (mem_nodes_of_mem_factors hmem)) hpf hnf hr
    exact ⟨moved,hmoved,by rw [withFactor_withHead,graft_cons hf]⟩

/-- A value of a graft is a graft of values. -/
theorem evaluate_graft (hv : d.validate g = .ok ()) (hp : d.AvoidsSets path)
    (hn : d.get path = .ok n) (ha : new.address = n.address) (hw : d.evaluate x = .ok w)
    (hu : (graft id new path d).evaluate x = .ok u) :
    ∃ v r, n.evaluate x = .ok v ∧ new.evaluate x = .ok r ∧ w.get path = .ok v ∧
      w.AvoidsSets path ∧ u = graft id r path w := by
  induction path generalizing d w u with
  | nil =>
    cases hn
    exact ⟨w,u,hw,hu,rfl,avoidsSets_nil w,rfl⟩
  | cons i path ih =>
    by_cases hd : d.address = .null
    · -- neither is evaluated, and nothing below has an address either
      have hnull : n.address = .null := address_of_mem_nodes hv hd (mem_nodes_of_get hn)
      obtain ⟨f,hf,hnf⟩ := get_cons_eq_ok_iff.mp hn
      have hg : (graft id new (i :: path) d).address = .null := by
        rw [graft_cons hf,address_withFactor]
        exact hd
      rw [evaluate_of_null hd] at hw
      rw [evaluate_of_null hg] at hu
      cases hw
      cases hu
      exact ⟨n,new,evaluate_of_null hnull,evaluate_of_null (ha.trans hnull),hn,hp,rfl⟩
    · obtain ⟨f,hf,hnf⟩ := get_cons_eq_ok_iff.mp hn
      obtain ⟨hk,hpf⟩ := (avoidsSets_cons_iff hf).mp hp
      have hc := morphism?_of_step hf
      have hmem := mem_factors_of_step hf
      have hvf := (validate_of_mem_factors hv hmem).1
      rw [graft_cons hf] at hu
      have hrw := reworked_of_evaluate hw hc hd
      have hru := reworked_of_evaluate hu ((morphism?_withFactor d i _ _).trans hc)
        ((address_withFactor d i _ _).symm ▸ hd)
      obtain ⟨r,hr,rfl⟩ := hrw.withFactor (fun f v w hv hw => Except.ok.inj (hv.symm.trans hw))
        hk hf hru
      obtain ⟨ws,hws,hwfactors⟩ := hrw.factors
      rw [if_neg hk] at hwfactors
      obtain ⟨f',hf',he⟩ := exists_step_of_forall₂ hrw.index (hwfactors ▸ hws.flip) hf
      obtain ⟨v,value,hn',hvalue,hget,hpf',rfl⟩ := ih hvf hpf hnf he hr
      refine ⟨v,value,hn',hvalue,get_cons_eq_ok_iff.mpr ⟨f',hf',hget⟩,
        (avoidsSets_cons_iff hf').mpr ⟨hrw.kind ▸ hk,hpf'⟩,?_⟩
      rw [graft_cons hf',hrw.address]
      rfl

end Reworking

end Denotator
end AddressedForms
