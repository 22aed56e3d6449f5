import AddressedForms.Proofs.Denotator.Copies
import AddressedForms.Proofs.Denotator.Fingerprint
import AddressedForms.Proofs.Document.Soundness
set_option autoImplicit false

/-!
The members of sets in denotators that operations make or documents describe. A name stands for one
form throughout a document; so its own denotators never contain two copies of a form, and copies
come together only where a denotator of the catalogue is used.
-/

namespace AddressedForms

namespace DenotatorSketch
open Denotator
variable {env : Surroundings} {P : FormId → Prop} {n : Node} {kind : Kind} {form : FormId}
  {a : Module} {parts : List (Attempt Denotator)} {d : Denotator}

theorem Constructs.tidy (h : Constructs env n form a parts kind d) (hf : P form)
    (hp : ∀ part ∈ parts, part.Ensures (Tidy P)) : Tidy P d := by
  cases h with
  | simple _ _ hd => exact (gathers_ofMorphism hd).tidy_nil hf
  | limit hds hd => exact (gathers_ofLimit hd).tidy hf (Attempt.ensures_all hp _ hds)
  | colimit hparts he hd =>
    exact (gathers_ofVariant hd).tidy hf
      (List.forall_mem_singleton.mpr (hp _ (hparts ▸ List.mem_cons_self) _ he))
  | power hds hd => exact (gathers_ofSet hd).tidy hf (Attempt.ensures_all hp _ hds)
  | list hds hd => exact (gathers_ofList hd).tidy hf (Attempt.ensures_all hp _ hds)

theorem tidy_assemble (hf : ∀ k id, env.form? k = some id → P id) (n : Node)
    (hp : ∀ part ∈ parts, part.Ensures (Tidy P)) : (assemble env n parts).Ensures (Tidy P) := by
  intro x hx
  obtain ⟨kind,form,a,d,e,h⟩ := exists_assembles hx
  obtain ⟨k,-,hform⟩ := Option.bind_eq_some_iff.mp h.ofForm
  have hd : Tidy P d := h.value.tidy (hf k form hform) hp
  have he : Tidy P e := by
    rcases h.moved with ⟨-,rfl⟩ | hm
    · exact hd
    · exact hd.readdressTo? hm
  rw [h.named]
  split
  · exact he.withHead rfl
  · exact he

end DenotatorSketch

theorem Definitions.exists_form_of_form? {root : Node} {r : Repository} (hr : r.Reachable)
    (v : Vocabulary) (consulted : Bool) {k : String} {id : FormId}
    (h : ((Definitions.ofRoot root).surroundings v (.ofRepository r consulted) r.forms).form? k =
      some id) :
    ∃ f, ((Definitions.ofRoot root).surroundings v (.ofRepository r consulted)
      r.forms).graph.get? id = some f ∧ f.name = k := by
  rcases Resolution.of_value?_lookup h with hbuilt | ⟨-,hcat⟩
  · obtain ⟨p,-,hp,-,f,hf,hb⟩ := Definitions.exists_form (Definitions.drawn_ofRoot root)
      (Definitions.collects_ofRoot root).forms (hr.catalogue consulted).forms hbuilt
    exact ⟨f,hf,hb.name.trans hp⟩
  · obtain ⟨f,hf,-,rfl⟩ := (hr.forms.sound.held k id).mp (Catalogue.form?_of_ofRepository hcat)
    obtain ⟨e,he,hname,-⟩ := (FormExtension.follows_ofPlans r.forms _).grows.keeps id f hf
    exact ⟨e,he,hname⟩

namespace Reader
variable {r : Repository}

/-- The forms that a reader finds in denotators of the catalogue. -/
def Borrows (a : Reader) (r : Repository) (id : FormId) : Prop :=
  a.settings.catalogFallback ∧ ∃ name d, r.denotator? name = some d ∧ ∃ n ∈ d.nodes, n.form = id

theorem membersApart_of_read (hr : r.Reachable) (a : Reader) (root : Node) :
    let o := (a.readNode root r).1
    let s := (a.readNode root r).2.2
    (∀ d ∈ o.denotators, d.MembersApart s.forms fun p q => a.Borrows r p ∨ a.Borrows r q) ∧
    ∀ e ∈ o.symbols.denotators,
      e.2.MembersApart s.forms fun p q => a.Borrows r p ∨ a.Borrows r q := by
  intro o s
  obtain ⟨-,hdenotators,hsymbols⟩ := a.readNode_fields root r
  set c := Catalogue.ofRepository r a.settings.catalogFallback with hc
  set g := Reading.ofNode a.vocabulary c root r
  set env := (Definitions.ofRoot root).surroundings a.vocabulary c r.forms
  let P (id : FormId) : Prop :=
    (∃ f, env.graph.get? id = some f ∧ env.form? f.name = some id) ∨ a.Borrows r id
  have hcatalogue (name : String) (x : Denotator) (hx : c.denotators.get? name = some x) :
      x.Tidy P := by
    have hheld := Catalogue.denotator?_of_ofRepository hx
    have hfallback : a.settings.catalogFallback := by
      cases hf : a.settings.catalogFallback
      · rw [hc,hf] at hx
        cases hx
      · rfl
    exact fun n hn => ⟨.inr ⟨hfallback,name,x,hheld,n,hn,rfl⟩,hr.sorted name x hheld n hn⟩
  have hnamed (k : String) (id : FormId) (h : env.form? k = some id) : P id := by
    obtain ⟨f,hf,rfl⟩ := Definitions.exists_form_of_form? hr _ _ h
    exact .inl ⟨f,hf,h⟩
  obtain ⟨htop,hall⟩ : (∀ x ∈ g.denotators, x.Tidy P) ∧
      ∀ e ∈ g.symbols.denotators, e.2.Tidy P :=
    Reading.ensures_ofNode (fun n _ => DenotatorSketch.tidy_assemble hnamed n) hcatalogue
  have hfollows : g.repository.Follows s := a.follows_ofNode root r
  have hreachable : s.forms.Reachable :=
    ((Repository.follows_ofNode a.vocabulary c root r).trans hfollows).forms.reachable hr.forms
  have hcopies (p q : FormId) (hp : P p) (hq : P q) (hne : p ≠ q) (h : s.forms.equalForms p q) :
      a.Borrows r p ∨ a.Borrows r q := by
    rcases hp with ⟨f,hf,hfp⟩ | hp
    · rcases hq with ⟨e,he,heq⟩ | hq
      · -- forms of one name are the same form
        have hkeeps : env.graph.Keeps s.forms := hfollows.forms.grows.keeps
        obtain ⟨f',hf',hfn,-⟩ := hkeeps p f hf
        obtain ⟨e',he',hen,-⟩ := hkeeps q e he
        have hname := ((FormGraph.equalForms_iff_similar hreachable.sound.namesUnique p q).mp
          h).name?_eq
        rw [FormGraph.name?_of_get? hf',FormGraph.name?_of_get? he',hfn,hen,
          Option.some.injEq] at hname
        rw [hname,heq] at hfp
        exact absurd (Option.some.inj hfp).symm hne
      · exact .inr hq
    · exact .inl hp
  have happart {x : Denotator} (hx : x.Tidy P) :
      x.MembersApart s.forms fun p q => a.Borrows r p ∨ a.Borrows r q :=
    hx.membersApart hreachable.sound.namesUnique hcopies
  exact ⟨fun x hx => happart (htop x (hdenotators ▸ hx)),
    fun e he => happart (hall e (hsymbols ▸ he))⟩

end Reader

open Denotator

/-- A set has no two equal members just if equal ones among those it is made of are the same.
Whatever operation made it or document it is from, nothing is its member twice, and equal members
contain two copies of a form, both of which were given to the operation, or one of which is from the
catalogue. -/
theorem members_of_sets {g : FormGraph} {r : Repository} (hg : g.Reachable) (hr : r.Reachable) :
    (∀ form ds d, ofSet g form ds = .ok d → (d.factors.Pairwise (fun x y => ¬ x.equals g y) ↔
      ∀ x ∈ ds, ∀ y ∈ ds, x.equals g y → x = y)) ∧
    (∀ (o : Operation) (d : Denotator), (∀ e ∈ o.inputs, e.IsSorted) → o.run g = some d →
      d.MembersApart g fun p q => o.Gives p ∧ o.Gives q) ∧
    ∀ (a : Reader) (root : Option Node),
      let o := (a.readNode? root r).1
      let s := (a.readNode? root r).2.2
      (∀ d ∈ o.denotators, d.MembersApart s.forms fun p q => a.Borrows r p ∨ a.Borrows r q) ∧
      ∀ e ∈ o.symbols.denotators,
        e.2.MembersApart s.forms fun p q => a.Borrows r p ∨ a.Borrows r q := by
  refine ⟨fun form ds d h => ?_,fun o d hi h => Operation.membersApart_of_run hg hi h,
    fun a root => ?_⟩
  · obtain ⟨_,hm,-⟩ := made_of_remake (d := .power ⟨form,none,.null⟩ ds) h rfl
    rw [show d.factors = asSet ds from hm.factors.trans (if_pos rfl)]
    exact pairwise_asSet_iff hg.sound.namesUnique ds
  · cases root with
    | none => exact ⟨nofun,nofun⟩
    | some n => exact Reader.membersApart_of_read hr a n

/-- A note and its copy are both members of a set. -/
theorem members_of_unison :
    let o := Operation.set ⟨2⟩ [note 0 60,note 1 60]
    let d := chord [note 0 60,note 1 60]
    o.run .twinPitches = some d ∧ ¬ d.factors.Pairwise (fun x y => ¬ x.equals .twinPitches y) ∧
      d.MembersApart .twinPitches fun p q => o.Gives p ∧ o.Gives q := by
  intro o d
  obtain ⟨hset,hmade,-⟩ := members_of_sets FormGraph.reachable_twinPitches ⟨[],rfl⟩
  have hof : ofSet .twinPitches ⟨2⟩ [note 0 60,note 1 60] = .ok d := by cbv
  have hrun : o.run .twinPitches = some d := by cbv
  have hequal : (note 0 60).equals .twinPitches (note 1 60) := by cbv
  refine ⟨hrun,fun h => ?_,hmade o d (fun e he n hn hk => ?_) hrun⟩
  · have hsame := (hset _ _ d hof).mp h (note 0 60) (by simp) (note 1 60) (by simp) hequal
    simp [note] at hsame
  · obtain rfl | rfl : e = note 0 60 ∨ e = note 1 60 := by simpa [o,Operation.inputs] using he
    all_goals
      obtain rfl := by simpa [allNodes,note,nodes] using hn
      cases hk

end AddressedForms
