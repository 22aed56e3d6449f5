import AddressedForms.Proofs.Form.Slots
import AddressedForms.Proofs.Lists
import Mathlib.Data.Finset.Prod
import Mathlib.Data.List.Dedup
set_option autoImplicit false

/-!
Equality of forms is the largest bisimulation. The pairs that a comparison assumes are a
bisimulation once it has run through, and pairs of a bisimulation never fail; no more pairs can be
assumed than there are pairs of slots, so the bound on them is never the reason for an answer.
-/

namespace AddressedForms

def Body.module? : Body → Option Module
  | .simple m => some m
  | _ => none

structure Body.Related (R : FormId → FormId → Prop) (c d : Body) : Prop where
  kind_eq : c.kind = d.kind
  module_eq : c.module? = d.module?
  subForms : List.Forall₂ R c.subForms d.subForms

namespace Body
variable {R S : FormId → FormId → Prop} {b c d : Body}

theorem Related.mono (h : Related R c d) (hs : ∀ a b, R a b → S a b) : Related S c d :=
  ⟨h.kind_eq,h.module_eq,h.subForms.imp hs⟩

theorem Related.symm (h : Related R c d) : Related (fun a b => R b a) d c :=
  ⟨h.kind_eq.symm,h.module_eq.symm,h.subForms.flip⟩

theorem Related.comp (h : Related R b c) (k : Related S c d) :
    Related (fun x z => ∃ y, R x y ∧ S y z) b d :=
  ⟨h.kind_eq.trans k.kind_eq,h.module_eq.trans k.module_eq,forall₂_comp h.subForms k.subForms⟩

theorem Related.simple_left {m : Module} (h : Related R (.simple m) d) : d = .simple m := by
  cases d with
  | simple x => exact congrArg simple (Option.some.inj h.module_eq).symm
  | limit | colimit | power | list => cases h.kind_eq

theorem Related.limit_left {subs : List FormId} (h : Related R (.limit subs) d) :
    ∃ subs', d = .limit subs' ∧ List.Forall₂ R subs subs' := by
  cases d with
  | limit subs' => exact ⟨subs',rfl,h.subForms⟩
  | simple | colimit | power | list => cases h.kind_eq

theorem Related.colimit_left {subs : List FormId} (h : Related R (.colimit subs) d) :
    ∃ subs', d = .colimit subs' ∧ List.Forall₂ R subs subs' := by
  cases d with
  | colimit subs' => exact ⟨subs',rfl,h.subForms⟩
  | simple | limit | power | list => cases h.kind_eq

theorem Related.power_left {base : FormId} (h : Related R (.power base) d) :
    ∃ base', d = .power base' ∧ R base base' := by
  cases d with
  | power base' => exact ⟨base',rfl,(List.forall₂_cons.mp h.subForms).1⟩
  | simple | limit | colimit | list => cases h.kind_eq

theorem Related.list_left {base : FormId} (h : Related R (.list base) d) :
    ∃ base', d = .list base' ∧ R base base' := by
  cases d with
  | list base' => exact ⟨base',rfl,(List.forall₂_cons.mp h.subForms).1⟩
  | simple | limit | colimit | power => cases h.kind_eq

end Body

namespace FormGraph

def Agree (g : FormGraph) (R : FormId → FormId → Prop) (a b : FormId) : Prop :=
  ∃ x y, g.get? a = some x ∧ g.get? b = some y ∧ x.name = y.name ∧ x.body.Related R y.body

def IsBisimulation (g : FormGraph) (R : FormId → FormId → Prop) : Prop :=
  ∀ a b, R a b → a = b ∨ g.Agree R a b

/-- Co-inductive equality of forms. -/
def Similar (g : FormGraph) (a b : FormId) : Prop := ∃ R, R a b ∧ g.IsBisimulation R

theorem Agree.mono {g : FormGraph} {R S : FormId → FormId → Prop} {a b : FormId}
    (h : g.Agree R a b) (hs : ∀ a b, R a b → S a b) : g.Agree S a b := by
  obtain ⟨x,y,hx,hy,hn,hb⟩ := h
  exact ⟨x,y,hx,hy,hn,hb.mono hs⟩

theorem Similar.refl (g : FormGraph) (a : FormId) : g.Similar a a :=
  ⟨Eq,rfl,fun _ _ h => .inl h⟩

theorem Similar.symm {g : FormGraph} {a b : FormId} (h : g.Similar a b) : g.Similar b a := by
  obtain ⟨R,hr,hb⟩ := h
  refine ⟨fun x y => R y x,hr,fun c d hcd => ?_⟩
  rcases hb d c hcd with rfl | ⟨x,y,hx,hy,hn,hbody⟩
  · exact .inl rfl
  · exact .inr ⟨y,x,hy,hx,hn.symm,hbody.symm⟩

theorem Similar.trans {g : FormGraph} {a b c : FormId} (h : g.Similar a b) (k : g.Similar b c) :
    g.Similar a c := by
  obtain ⟨R,hr,hR⟩ := h
  obtain ⟨S,hs,hS⟩ := k
  -- a pair may be identified by one of the two relations alone
  let T (x z : FormId) : Prop := R x z ∨ S x z ∨ ∃ y, R x y ∧ S y z
  refine ⟨T,.inr (.inr ⟨b,hr,hs⟩),?_⟩
  rintro x z (h | h | ⟨y,hxy,hyz⟩)
  · exact (hR x z h).imp_right fun h => h.mono fun _ _ => .inl
  · exact (hS x z h).imp_right fun h => h.mono fun _ _ h => .inr (.inl h)
  · rcases hR x y hxy with rfl | ⟨f,e,hf,he,hn,hb⟩
    · exact (hS x z hyz).imp_right fun h => h.mono fun _ _ h => .inr (.inl h)
    · rcases hS y z hyz with rfl | ⟨e',d,he',hd,hm,hc⟩
      · exact .inr (Agree.mono ⟨f,e,hf,he,hn,hb⟩ fun _ _ => .inl)
      · cases he.symm.trans he'
        exact .inr ⟨f,d,hf,hd,hn.trans hm,(hb.comp hc).mono fun _ _ h => .inr (.inr h)⟩

theorem Similar.agree {g : FormGraph} {a b : FormId} (h : g.Similar a b) :
    a = b ∨ g.Agree g.Similar a b := by
  obtain ⟨R,hr,hb⟩ := h
  exact (hb a b hr).imp_right fun h => h.mono fun c d hcd => ⟨R,hcd,hb⟩

theorem Similar.exists_form {g : FormGraph} {a b : FormId} (h : g.Similar a b) {f : Form}
    (hf : g.get? a = some f) :
    ∃ e, g.get? b = some e ∧ e.name = f.name ∧ f.body.Related g.Similar e.body := by
  rcases h.agree with rfl | ⟨f',e,hf',he,hn,hb⟩
  · exact ⟨f,hf,rfl,rfl,rfl,List.forall₂_same.mpr fun _ _ => .refl g _⟩
  · cases hf.symm.trans hf'
    exact ⟨e,he,hn.symm,hb⟩

theorem Similar.name?_eq {g : FormGraph} {a b : FormId} (h : g.Similar a b) :
    g.name? a = g.name? b := by
  rcases h.agree with rfl | ⟨x,y,hx,hy,hname,-⟩
  · rfl
  · rw [name?_of_get? hx,name?_of_get? hy,hname]

/-- To be similar it is enough to agree up to similarity and one's own relation. -/
theorem similar_of_agree {g : FormGraph} {R : FormId → FormId → Prop}
    (hr : ∀ a b, R a b → g.Similar a b ∨ g.Agree (fun x y => R x y ∨ g.Similar x y) a b)
    {a b : FormId} (h : R a b) : g.Similar a b := by
  refine ⟨fun x y => R x y ∨ g.Similar x y,.inl h,fun x y hxy => ?_⟩
  rcases hxy with hxy | hxy
  · rcases hr x y hxy with hs | ha
    · exact hs.agree.imp_right fun h => h.mono fun _ _ => .inr
    · exact .inr ha
  · exact hxy.agree.imp_right fun h => h.mono fun _ _ => .inr

/-- Some forms are similar to their copies, if the parts of a copy are copies of what is similar to
the parts of the form. -/
theorem similar_of_copies {g : FormGraph} {C : FormId → FormId → Prop}
    (hc : ∀ a b, C a b → g.Agree (fun x y => ∃ z, g.Similar x z ∧ C z y) a b) {a b : FormId}
    (h : C a b) : g.Similar a b := by
  let R (a b : FormId) : Prop := ∃ z, g.Similar a z ∧ C z b
  have hagree : ∀ a b, R a b → g.Similar a b ∨ g.Agree (fun x y => R x y ∨ g.Similar x y) a b := by
    rintro a b ⟨z,haz,hzb⟩
    obtain ⟨f,e,hf,he,hn,hb⟩ := hc z b hzb
    obtain ⟨d,hd,hdn,hdb⟩ := haz.symm.exists_form hf
    refine .inr ⟨d,e,hd,he,hdn.trans hn,(hdb.symm.comp hb).mono ?_⟩
    rintro p q ⟨s,hsp,w,hsw,hwq⟩
    exact .inl ⟨w,hsp.symm.trans hsw,hwq⟩
  exact similar_of_agree hagree ⟨a,.refl g a,h⟩

def Keeps (g ext : FormGraph) : Prop :=
  ∀ x f, g.get? x = some f → ∃ e, ext.get? x = some e ∧ e.name = f.name ∧ e.body = f.body

theorem keeps_of_get? {g ext : FormGraph} (h : ∀ x f, g.get? x = some f → ext.get? x = some f) :
    g.Keeps ext := fun x f hf => ⟨f,h x f hf,rfl,rfl⟩

theorem Similar.extend {g ext : FormGraph} (he : g.Keeps ext) {a b : FormId}
    (h : g.Similar a b) : ext.Similar a b := by
  obtain ⟨R,hab,hR⟩ := h
  refine ⟨R,hab,fun x y hxy => (hR x y hxy).imp id ?_⟩
  rintro ⟨e,f,hx,hy,hn,hb⟩
  obtain ⟨e',hx',hen,heb⟩ := he x e hx
  obtain ⟨f',hy',hfn,hfb⟩ := he y f hy
  exact ⟨e',f',hx',hy',hen.trans (hn.trans hfn.symm),by rwa [heb,hfb]⟩

def NamesUnique (g : FormGraph) : Prop :=
  ∀ a b x y, g.get? a = some x → g.get? b = some y → x.registered → y.registered →
    x.name = y.name → a = b

/-- For distinct forms of a graph whose registered names are unique, the obligations are met by a
relation exactly if the forms agree up to it. -/
theorem agree_iff_obligations {g : FormGraph} (hu : g.NamesUnique) {a b : FormId} (hab : a ≠ b)
    (R : FormId → FormId → Prop) :
    g.Agree R a b ↔ ∃ pairs, g.obligations? a b = some pairs ∧ ∀ p ∈ pairs, R p.1 p.2 := by
  have zipped {xs ys : List FormId} : List.Forall₂ R xs ys ↔
      xs.length = ys.length ∧ ∀ p ∈ xs.zip ys, R p.1 p.2 := by
    rw [List.forall₂_iff_zip]
    exact and_congr_right fun _ => ⟨fun h p hp => h hp,fun h x y hp => h (x,y) hp⟩
  have related (c d : Body) : c.Related R d ↔
      c.kind = d.kind ∧ c.module? = d.module? ∧ List.Forall₂ R c.subForms d.subForms :=
    ⟨fun h => ⟨h.1,h.2,h.3⟩,fun h => ⟨h.1,h.2.1,h.2.2⟩⟩
  have guarded {p : Prop} [Decidable p] (l : List (FormId × FormId)) :
      (∃ pairs, (if p then some l else none) = some pairs ∧ ∀ q ∈ pairs, R q.1 q.2) ↔
        p ∧ ∀ q ∈ l, R q.1 q.2 := by
    by_cases hp : p <;> simp [hp]
  cases hx : g.get? a with
  | none => simp [Agree,obligations?,hx]
  | some x =>
    cases hy : g.get? b with
    | none => simp [Agree,obligations?,hx,hy]
    | some y =>
      have hreg : x.name = y.name → (x.registered && y.registered) = false := by
        intro hn
        by_contra hc
        simp only [Bool.not_eq_false,Bool.and_eq_true] at hc
        exact hab (hu a b x y hx hy hc.1 hc.2 hn)
      have hag : g.Agree R a b ↔ x.name = y.name ∧ x.body.Related R y.body := by
        simp [Agree,hx,hy]
      rw [hag]
      simp only [obligations?,hx,hy,bind,Option.bind,ne_eq]
      by_cases hn : x.name = y.name
      · simp only [hn,not_true_eq_false,false_or,true_and,hreg hn,Bool.false_eq_true,if_false]
        cases hc : x.body <;> cases hd : y.body <;>
          simp [related,Form.kind,hc,hd,Body.kind,Body.module?,Body.subForms,zipped,
            -Prod.forall] <;>
          exact (guarded _).symm
      · simp [hn]

/-- A comparison that succeeds has assumed a set of pairs which lacks nothing. -/
theorem assumptions_of_allSame {g : FormGraph} {fuel : Nat} {assumed work : List (FormId × FormId)}
    (h : g.allSame fuel assumed work) :
    ∃ all : List (FormId × FormId), (∀ p ∈ assumed, p ∈ all) ∧
      (∀ p ∈ work, p.1 = p.2 ∨ p ∈ all) ∧
      ∀ p ∈ all, p ∈ assumed ∨ p.1 ≠ p.2 ∧
        ∃ pairs, g.obligations? p.1 p.2 = some pairs ∧ ∀ q ∈ pairs, q.1 = q.2 ∨ q ∈ all := by
  fun_induction allSame g fuel assumed work with
  | case1 fuel assumed => exact ⟨assumed,fun _ h => h,by simp,fun _ h => .inl h⟩
  | case2 fuel assumed a b work hab ih =>
    obtain ⟨all,hin,hwork,hall⟩ := ih h
    refine ⟨all,hin,fun p hp => ?_,hall⟩
    rcases List.mem_cons.mp hp with rfl | hp
    · exact hab.imp_right (hin _)
    · exact hwork p hp
  | case3 assumed a b work hab => simp at h
  | case4 assumed a b work hab fuel ho => simp at h
  | case5 assumed a b work hab fuel pairs ho ih =>
    obtain ⟨all,hin,hwork,hall⟩ := ih h
    refine ⟨all,fun p hp => hin p (List.mem_cons_of_mem _ hp),fun p hp => ?_,fun p hp => ?_⟩
    · rcases List.mem_cons.mp hp with rfl | hp
      · exact .inr (hin _ List.mem_cons_self)
      · exact hwork p (List.mem_append_right _ hp)
    · rcases hall p hp with hp | hp
      · rcases List.mem_cons.mp hp with rfl | hp
        · refine .inr ⟨fun he => hab (.inl he),pairs,ho,fun q hq => ?_⟩
          exact hwork q (List.mem_append_left _ hq)
        · exact .inl hp
      · exact .inr hp

theorem similar_of_allSame {g : FormGraph} (hu : g.NamesUnique) {fuel : Nat} {a b : FormId}
    (h : g.allSame fuel [] [(a,b)]) : g.Similar a b := by
  obtain ⟨all,-,hwork,hall⟩ := assumptions_of_allSame h
  refine ⟨fun x y => x = y ∨ (x,y) ∈ all,hwork (a,b) (by simp),?_⟩
  rintro x y (rfl | hxy)
  · exact .inl rfl
  · rcases hall _ hxy with hn | ⟨hne,pairs,ho,hp⟩
    · simp at hn
    · exact .inr ((agree_iff_obligations hu hne _).mpr ⟨pairs,ho,hp⟩)

theorem length_le_of_nodup (g : FormGraph) {pairs : List (FormId × FormId)} (hn : pairs.Nodup)
    (hp : ∀ p ∈ pairs, g.contains p.1 ∧ g.contains p.2) : pairs.length ≤ g.size*g.size := by
  let key (p : FormId × FormId) : Nat × Nat := (p.1.index,p.2.index)
  have hinj : Function.Injective key := fun p q h => by
    obtain ⟨⟨i⟩,⟨j⟩⟩ := p
    obtain ⟨⟨k⟩,⟨l⟩⟩ := q
    simp only [key,Prod.mk.injEq] at h
    rw [h.1,h.2]
  have hsub : (pairs.map key).toFinset ⊆ Finset.range g.size ×ˢ Finset.range g.size := by
    intro k hk
    obtain ⟨p,hm,rfl⟩ := List.mem_map.mp (List.mem_toFinset.mp hk)
    have := hp p hm
    simp only [contains,decide_eq_true_eq] at this
    simpa [key] using this
  have hcard := Finset.card_le_card hsub
  rw [List.toFinset_card_of_nodup (hn.map hinj)] at hcard
  simpa using hcard

theorem allSame_of_isBisimulation {g : FormGraph} (hu : g.NamesUnique)
    {R : FormId → FormId → Prop} (hR : g.IsBisimulation R) {fuel : Nat}
    {assumed work : List (FormId × FormId)} (hw : ∀ p ∈ work, R p.1 p.2) (hn : assumed.Nodup)
    (ha : ∀ p ∈ assumed, g.contains p.1 ∧ g.contains p.2)
    (hf : g.size*g.size < assumed.length+fuel) : g.allSame fuel assumed work := by
  fun_induction allSame g fuel assumed work with
  | case1 fuel assumed => rfl
  | case2 fuel assumed a b work hab ih =>
    exact ih (fun p hp => hw p (List.mem_cons_of_mem _ hp)) hn ha hf
  | case3 assumed a b work hab =>
    have := length_le_of_nodup g hn ha
    omega
  | case4 assumed a b work hab fuel ho =>
    have hne : a ≠ b := fun he => hab (.inl he)
    rcases hR a b (hw (a,b) List.mem_cons_self) with he | hag
    · exact absurd he hne
    · obtain ⟨pairs,hp,-⟩ := (agree_iff_obligations hu hne R).mp hag
      rw [ho] at hp
      contradiction
  | case5 assumed a b work hab fuel pairs ho ih =>
    have hne : a ≠ b := fun he => hab (.inl he)
    have hag : g.Agree R a b := (hR a b (hw (a,b) List.mem_cons_self)).resolve_left hne
    obtain ⟨pairs',hp,hrel⟩ := (agree_iff_obligations hu hne R).mp hag
    cases ho.symm.trans hp
    obtain ⟨x,y,hx,hy,-⟩ := hag
    refine ih (fun p hp => ?_) (List.nodup_cons.mpr ⟨fun hm => hab (.inr hm),hn⟩)
      (fun p hp => ?_) ?_
    · rcases List.mem_append.mp hp with hp | hp
      · exact hrel p hp
      · exact hw p (List.mem_cons_of_mem _ hp)
    · rcases List.mem_cons.mp hp with rfl | hp
      · exact ⟨contains_of_get? hx,contains_of_get? hy⟩
      · exact ha p hp
    · simp only [List.length_cons]; omega

/-- With room for all pairs of slots a comparison decides similarity. -/
theorem allSame_iff_similar {g : FormGraph} (hu : g.NamesUnique) {fuel : Nat}
    (hf : g.size*g.size < fuel) (a b : FormId) :
    g.allSame fuel [] [(a,b)] ↔ g.Similar a b := by
  constructor
  · exact similar_of_allSame hu
  · rintro ⟨R,hr,hR⟩
    exact allSame_of_isBisimulation hu hR (by simpa using hr) .nil (by simp) (by simpa using hf)

theorem sameForm_iff_similar {g : FormGraph} (hu : g.NamesUnique) (a b : FormId) :
    g.sameForm a b ↔ g.Similar a b := allSame_iff_similar hu (Nat.lt_succ_self _) a b

theorem equalForms_eq_sameForm {g : FormGraph} (hu : g.NamesUnique) (a b : FormId) :
    g.equalForms a b = g.sameForm a b := by
  unfold equalForms
  by_cases hab : a = b
  · subst hab
    rw [if_pos rfl,(sameForm_iff_similar hu a a).mpr (.refl g a)]
  · rw [if_neg hab]
    cases hx : g.get? a with
    | none => rfl
    | some x =>
      cases hy : g.get? b with
      | none => rfl
      | some y =>
        simp only
        split <;> rename_i hreg
        · rw [Bool.and_eq_true] at hreg
          have hne : x.name ≠ y.name := fun hn => hab (hu a b x y hx hy hreg.1 hreg.2 hn)
          have hsame : ¬ g.sameForm a b := by
            rw [sameForm_iff_similar hu]
            intro hs
            rcases hs.agree with he | ⟨x',y',hx',hy',hn,-⟩
            · exact hab he
            · cases hx.symm.trans hx'
              cases hy.symm.trans hy'
              exact hne hn
          simp [hne,hsame]
        · rfl

theorem equalForms_iff_similar {g : FormGraph} (hu : g.NamesUnique) (a b : FormId) :
    g.equalForms a b ↔ g.Similar a b := by
  rw [equalForms_eq_sameForm hu,sameForm_iff_similar hu]

end FormGraph
end AddressedForms
