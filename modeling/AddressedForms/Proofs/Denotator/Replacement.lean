import AddressedForms.Proofs.Denotator.Default
import AddressedForms.Proofs.Denotator.Grafts
import AddressedForms.Proofs.Denotator.Naturality
set_option autoImplicit false

/-!
Replacement along a path, as a lens. What is read at a place may be written there again and changes
nothing; what is written at a place is read there, moved to the address of the whole, and all that
is off the path is read as before. A part that has no address yet takes that of the new denotator
and is moved as a whole further up, so the new one is moved once, from its own address to the last.
Along a path of one step a denotator is replaced just as its factor is set.
-/

namespace AddressedForms
namespace Denotator
variable {g : FormGraph} {d f n new child t : Denotator} {a parent : Module} {b : Form}
  {i j k : Nat} {path : List Nat}

section Steps

theorem replaceFrom_cons (hb : g.get? d.form = some b) (hf : d.step i k = .ok f) :
    replaceFrom g new k (i :: path) d =
      (if path = [] then accept g b i k new else replaceFrom g new (k+1) path f) >>= fun child =>
        fitUnder d.address child >>= fun p => .ok (d.withFactor i p.2 p.1) := by
  have hb' : requireForm g d.form = .ok b := requireForm_eq_ok_iff.mpr hb
  cases path with
  | nil =>
    rw [if_pos rfl,replaceFrom,hb']
    cases d with
    | simple h c => cases hf
    | colimit h active c => rfl
    | limit h ds | power h ds | list h ds =>
      dsimp only
      rw [hf]
      rfl
  | cons j path =>
    rw [if_neg (List.cons_ne_nil j path)]
    conv_lhs => rw [replaceFrom,hb']
    cases d with
    | simple h c => cases hf
    | colimit h active c | limit h ds | power h ds | list h ds =>
      dsimp only
      rw [hf]
      rfl

theorem accept_eq_ok_iff : accept g b i k new = .ok child ↔
    ∃ sub, b.subForm i = .ok sub ∧ checkForm g sub new = .ok () ∧ child = new := by
  rw [accept,Except.bind_eq_ok_iff]
  refine exists_congr fun sub => ?_
  rw [fromPath,Except.mapError_eq_ok_iff,Except.mapError_eq_ok_iff,Except.check_eq_ok_iff,
    Except.ok.injEq]
  exact and_congr_right fun _ => and_congr_right fun _ => eq_comm

theorem replaceFrom_of_replaceFrom (hn : d.get path = .ok n)
    (h : replaceFrom g new j path d = .ok t) (k : Nat) : replaceFrom g new k path d = .ok t := by
  induction path generalizing d t j k with
  | nil => exact h
  | cons i path ih =>
    obtain ⟨f,hf,hnf⟩ := get_cons_eq_ok_iff.mp hn
    obtain ⟨b,hb,-⟩ := Except.bind_eq_ok_iff.mp h
    have hb := requireForm_eq_ok_iff.mp hb
    rw [replaceFrom_cons hb (step_of_step hf j)] at h
    rw [replaceFrom_cons hb (step_of_step hf k)]
    obtain ⟨child,hchild,hstored⟩ := Except.bind_eq_ok_iff.mp h
    refine Except.bind_eq_ok_iff.mpr ⟨child,?_,hstored⟩
    split at hchild <;> rename_i hpath
    · exact (if_pos hpath).trans (accept_eq_ok_iff.mpr (accept_eq_ok_iff.mp hchild))
    · exact (if_neg hpath).trans (ih hnf hchild (k+1))

theorem replace_cons_eq_ok_iff (hu : g.NamesUnique) (hv : Valid g d) (hf : d.step i 0 = .ok f)
    (hn : f.get path = .ok n) : d.replace g (i :: path) new = .ok t ↔
      ∃ child, f.replace g path new = .ok child ∧
        ∃ f' a, fitUnder d.address child = .ok (f',a) ∧ t = d.withFactor i a f' := by
  obtain ⟨b,hb,hfit⟩ := hv.node
  have hchild (child : Denotator) : (if path = [] then accept g b i 0 new
      else replaceFrom g new 1 path f) = .ok child ↔ f.replace g path new = .ok child := by
    cases path with
    | nil =>
      obtain ⟨sub,hsub,hs⟩ := hfit.exists_subForm hf
      have hform : checkForm g sub new = .ok () ↔ checkForm g f.form new = .ok () := by
        rw [checkForm_eq_ok_iff hu,checkForm_eq_ok_iff hu]
        exact ⟨hs.symm.trans,hs.trans⟩
      rw [if_pos rfl,accept_eq_ok_iff,hsub,replace,Except.check_eq_ok_iff,← hform]
      simp [eq_comm]
    | cons j path =>
      rw [if_neg (List.cons_ne_nil j path)]
      exact ⟨fun h => replaceFrom_of_replaceFrom hn h 0,fun h => replaceFrom_of_replaceFrom hn h 1⟩
  rw [replace,replaceFrom_cons hb hf,Except.bind_eq_ok_iff]
  refine exists_congr fun child => and_congr (hchild child) ?_
  rw [Except.bind_eq_ok_iff,Prod.exists]
  simp only [Except.ok.injEq,eq_comm]

end Steps

section Fitting

theorem fitUnder_of_goesWith (h : child.address = .null ∨ child.address = parent) :
    fitUnder parent child = .ok (child,parent) := if_pos (h.imp_left Module.isNull_iff.mpr)

theorem eq_of_fitUnder (hc : child.address = .null ∨ child.address = parent)
    (h : fitUnder parent child = .ok (f,a)) : f = child ∧ a = parent := by
  rw [fitUnder_of_goesWith hc] at h
  cases h
  exact ⟨rfl,rfl⟩

theorem fitUnder_cases (hc : child.address ≠ .null) (h : fitUnder parent child = .ok (f,a)) :
    f = child ∧ a = child.address ∧ (parent = .null ∨ parent = child.address) ∨
    child.readdressTo? parent = some f ∧ a = parent ∧ child.address ≠ parent ∧ parent ≠ .null := by
  by_cases hp : child.address = parent
  · obtain ⟨rfl,rfl⟩ := eq_of_fitUnder (.inr hp) h
    exact .inl ⟨rfl,hp.symm,.inr hp.symm⟩
  · rw [fitUnder,if_neg (by simp [Module.isNull_iff,hc,hp])] at h
    split at h
    · rename_i hnull
      cases h
      exact .inl ⟨rfl,rfl,.inl (Module.isNull_iff.mp hnull)⟩
    · rename_i hnull
      split at h
      · rename_i hmoved
        cases h
        exact .inr ⟨hmoved,rfl,hp,mt Module.isNull_iff.mpr hnull⟩
      · contradiction

end Fitting

theorem replace_eq_ok_iff_graft (hu : g.NamesUnique) (hv : d.validate g = .ok ())
    (hn : d.get path = .ok n) (ha : new.address = .null ∨ new.address = n.address) :
    d.replace g path new = .ok t ↔ g.Similar n.form new.form ∧ t = graft id new path d := by
  induction path generalizing d t with
  | nil =>
    cases hn
    rw [replace,Except.check_eq_ok_iff,checkForm_eq_ok_iff hu,Except.ok.injEq]
    exact and_congr_right fun _ => eq_comm
  | cons i path ih =>
    obtain ⟨f,hf,hnf⟩ := get_cons_eq_ok_iff.mp hn
    have hvalid := valid_of_validate hu hv d (self_mem_nodes d)
    have hmem := mem_factors_of_step hf
    obtain ⟨hvf,haddress⟩ := validate_of_mem_factors hv hmem
    have hgoes : (graft id new path f).address = .null ∨
        (graft id new path f).address = d.address :=
      (address_graft_id ha hnf).elim .inl fun h => h ▸ haddress
    rw [replace_cons_eq_ok_iff hu hvalid hf hnf,graft_cons hf]
    constructor
    · rintro ⟨child,hchild,f',a,hfit,rfl⟩
      obtain ⟨hform,rfl⟩ := (ih hvf hnf).mp hchild
      obtain ⟨rfl,rfl⟩ := eq_of_fitUnder hgoes hfit
      exact ⟨hform,rfl⟩
    · rintro ⟨hform,rfl⟩
      exact ⟨_,(ih hvf hnf).mpr ⟨hform,rfl⟩,_,_,fitUnder_of_goesWith hgoes,rfl⟩

/-- What a denotator with an address makes of the one it is put into: a graft all along which there
is one address, its own if there was none before. -/
structure Planted (new : Denotator) (path : List Nat) (d t : Denotator) : Prop where
  moved : ∃ moved, new.readdressTo? t.address = some moved ∧
    t = graft (fun _ => t.address) moved path d
  address : t.address ≠ .null
  own : path = [] ∨ d.address = .null → t.address = new.address
  kept : path ≠ [] → d.address ≠ .null → t.address = d.address

theorem Planted.stay (h : Planted new path f child) (hf : d.step i 0 = .ok f)
    (hfa : f.address = .null ∨ f.address = d.address)
    (hd : d.address = .null ∨ d.address = child.address) :
    Planted new (i :: path) d (d.withFactor i child.address child) := by
  obtain ⟨⟨moved,hmoved,hgraft⟩,haddress,hown,-⟩ := h
  refine ⟨⟨moved,?_,?_⟩,?_,fun hnull => ?_,fun _ hnull => ?_⟩ <;> rw [address_withFactor]
  · exact hmoved
  · rw [graft_cons hf,← hgraft]
  · exact haddress
  · have hnull := hnull.resolve_left (List.cons_ne_nil i path)
    exact hown (.inr (hfa.elim id (·.trans hnull)))
  · exact (hd.resolve_left hnull).symm

/-- Until a part is moved it has the address of the new denotator, so that one is moved once. -/
theorem Planted.move (h : Planted new path f child) (hvf : f.validate g = .ok ())
    (hpf : f.AvoidsSets path) (hnf : f.get path = .ok n) (ha : new.address ≠ .null)
    (hf : d.step i 0 = .ok f) (hfa : f.address = .null ∨ f.address = d.address)
    (hd : d.address ≠ .null) (hne : child.address ≠ d.address)
    (hmove : child.readdressTo? d.address = some t) :
    Planted new (i :: path) d (d.withFactor i d.address t) := by
  obtain ⟨⟨moved,hmoved,hgraft⟩,-,hown,hkept⟩ := h
  have hnull (hpath : path ≠ []) : f.address = .null := by
    by_contra hf
    exact hne ((hkept hpath hf).trans (hfa.resolve_left hf))
  have hnew : child.address = new.address := hown (or_iff_not_imp_left.mpr hnull)
  rw [hnew] at hmoved hgraft hne
  cases (if_pos rfl).symm.trans hmoved
  obtain ⟨c,hc,hr⟩ := exists_readdress_of_readdressTo? hmove (hnew ▸ hne)
  rw [hnew] at hc hr
  subst hgraft
  obtain ⟨moved,hmoved',rfl⟩ := readdress_graft hvf hnull rfl ha hpf hnf hr
  refine ⟨⟨moved,?_,?_⟩,?_,fun h => ?_,fun _ _ => ?_⟩ <;> rw [address_withFactor]
  · rw [readdressTo?,if_neg hne,hc,Option.bind_some,hmoved']
    rfl
  · rw [graft_cons hf]
  · exact hd
  · exact absurd (h.resolve_left (List.cons_ne_nil i path)) hd

theorem planted_of_replace (hu : g.NamesUnique) (hv : d.validate g = .ok ())
    (hp : d.AvoidsSets path) (hn : d.get path = .ok n) (ha : new.address ≠ .null)
    (h : d.replace g path new = .ok t) : Planted new path d t := by
  induction path generalizing d t with
  | nil =>
    obtain ⟨-,h⟩ := Except.check_eq_ok_iff.mp h
    cases h
    exact ⟨⟨new,if_pos rfl,rfl⟩,ha,fun _ => rfl,fun h => absurd rfl h⟩
  | cons i path ih =>
    obtain ⟨f,hf,hnf⟩ := get_cons_eq_ok_iff.mp hn
    obtain ⟨-,hpf⟩ := (avoidsSets_cons_iff hf).mp hp
    have hvalid := valid_of_validate hu hv d (self_mem_nodes d)
    obtain ⟨hvf,hfa⟩ := validate_of_mem_factors hv (mem_factors_of_step hf)
    obtain ⟨child,hchild,f',a,hfit,rfl⟩ := (replace_cons_eq_ok_iff hu hvalid hf hnf).mp h
    have hplanted := ih hvf hpf hnf hchild
    rcases fitUnder_cases hplanted.address hfit with ⟨rfl,rfl,hd⟩ | ⟨hmove,rfl,hne,hd⟩
    · exact hplanted.stay hf hfa hd
    · exact hplanted.move hvf hpf hnf ha hf hfa hd hne hmove

/-- What is read at a place may be replaced by itself. Where no set is entered on the way, what
replaces it is read there, as it is without an address and moved to that of the whole with one; and
whatever is neither above nor below is read as before. -/
theorem replace_lawful (hr : g.Reachable) (hv : d.validate g = .ok ()) (hs : d.IsSorted)
    (hn : d.get path = .ok n) :
    d.replace g path n = .ok d ∧
    (d.AvoidsSets path → ∀ new t, d.replace g path new = .ok t →
      (new.address = .null → t.get path = .ok new) ∧
      (new.address ≠ .null →
        ∃ moved, new.readdressTo? t.address = some moved ∧ t.get path = .ok moved) ∧
      ∀ q e, ¬ path <+: q → ¬ q <+: path → d.get q = .ok e → t.get q = .ok e) := by
  have hu := hr.sound.namesUnique
  refine ⟨(replace_eq_ok_iff_graft hu hv hn (.inr rfl)).mpr
    ⟨.refl g n.form,(graft_self hs hn).symm⟩,fun hp new t ht => ?_⟩
  by_cases ha : new.address = .null
  · obtain ⟨-,rfl⟩ := (replace_eq_ok_iff_graft hu hv hn (.inl ha)).mp ht
    exact ⟨fun _ => get_graft hp hn,fun h => absurd ha h,
      fun q e hpq hqp he => get_graft_of_apart hp hn hpq hqp he⟩
  · obtain ⟨moved,hmoved,hgraft⟩ := (planted_of_replace hu hv hp hn ha ht).moved
    refine ⟨fun h => absurd h ha,fun _ => ⟨moved,hmoved,?_⟩,fun q e hpq hqp he => ?_⟩ <;>
      rw [hgraft]
    · exact get_graft hp hn
    · exact get_graft_of_apart hp hn hpq hqp he

def motifs : FormGraph :=
  ⟨[.defined ⟨"Class",.simple (.zn 12),none,false⟩,.defined ⟨"Chord",.list ⟨0⟩,none,false⟩,
    .defined ⟨"Motif",.limit [⟨1⟩,⟨1⟩],none,false⟩],.empty⟩

theorem reachable_motifs : motifs.Reachable := by
  have declared := ((FormGraph.Reachable.empty.declare "Class" .simple).declare "Chord"
    .list).declare "Motif" .limit
  have a := @FormGraph.Reachable.define _ _ declared ⟨0⟩ (.simple (.zn 12)) none rfl
  have b := @FormGraph.Reachable.define _ _ a ⟨1⟩ (.list ⟨0⟩) none rfl
  exact @FormGraph.Reachable.define _ _ b ⟨2⟩ (.limit [⟨1⟩,⟨1⟩]) none rfl

def motif (address : Module) (fifth : Denotator) : Denotator :=
  .limit ⟨⟨2⟩,none,.z⟩
    [.list ⟨⟨1⟩,none,address⟩ [.simple ⟨⟨0⟩,none,.null⟩ (.constant .null (.zn 0 12)),fifth],
      .list ⟨⟨1⟩,none,.z⟩ [.simple ⟨⟨0⟩,none,.z⟩ (.embedding .z (.zn 12))]]

/-- A class that varies over the classes makes its chord do so, and with the chord it is moved to
the integers of the motif. -/
theorem replace_motif :
    let root := .simple ⟨⟨0⟩,none,.null⟩ (.constant .null (.zn 0 12))
    let fifth := .simple ⟨⟨0⟩,none,.null⟩ (.constant .null (.zn 7 12))
    let turn := .simple ⟨⟨0⟩,none,.zn 12⟩ (.identity (.zn 12))
    let moved := .simple ⟨⟨0⟩,none,.z⟩ (.embedding .z (.zn 12))
    (motif .null fifth).replace motifs [0,1] fifth = .ok (motif .null fifth) ∧
    (motif .null fifth).replace motifs [0,1] turn = .ok (motif .z moved) ∧
    turn.readdressTo? .z = some moved ∧ (motif .z moved).get [0,1] = .ok moved ∧
    (motif .z moved).get [0,0] = .ok root := by
  intro root fifth turn moved
  have hv : (motif .null fifth).validate motifs = .ok () := by cbv
  have hk : ∀ n ∈ (motif .null fifth).nodes, n.kind ≠ .power := by decide
  have hs : (motif .null fifth).IsSorted := fun n hn hpower => absurd hpower (hk n hn)
  have hp : (motif .null fifth).AvoidsSets [0,1] :=
    (avoidsSets_cons_iff rfl).mpr ⟨by decide,(avoidsSets_cons_iff rfl).mpr
      ⟨by decide,avoidsSets_nil _⟩⟩
  have ht : (motif .null fifth).replace motifs [0,1] turn = .ok (motif .z moved) := by
    decide +kernel
  have hr : turn.readdressTo? .z = some moved := by decide
  have hn : (motif .null fifth).get [0,1] = .ok fifth := rfl
  obtain ⟨hself,hother⟩ := replace_lawful reachable_motifs hv hs hn
  obtain ⟨-,hmoved,hapart⟩ := hother hp turn _ ht
  obtain ⟨e,he,hget⟩ := hmoved (by decide)
  cases hr.symm.trans he
  exact ⟨hself,ht,hr,hget,hapart [0,0] root (by decide) (by decide) rfl⟩

theorem accept_of_count_le (hk : b.kind = .colimit) (hi : b.count ≤ i) (k : Nat) :
    accept g b i k new = .error (.path (.indexOutOfRange k i b.count)) := by
  obtain ⟨name,body,labels,registered⟩ := b
  cases body <;> cases hk
  rename_i subs
  have hnone : subs[i]? = none := List.getElem?_eq_none hi
  simp only [accept,Form.subForm,hnone]
  rfl

/-- A factor of a valid denotator is set just as the denotator is replaced along a path of one step,
and what cannot be replaced cannot be set for the same reason. -/
theorem setFactor_eq_replace (hr : g.Reachable) (hv : d.validate g = .ok ()) (i : Nat)
    (new : Denotator) : d.setFactor g i new = d.replace g [i] new := by
  obtain ⟨b,hb,hfit⟩ := (valid_of_validate hr.sound.namesUnique hv d (self_mem_nodes d)).node
  have hb : requireForm g d.form = .ok b := requireForm_eq_ok_iff.mpr hb
  let store (child : Denotator) : Except DenotatorError Denotator :=
    fitUnder d.address child >>= fun p => .ok (d.withFactor i p.2 p.1)
  rw [setFactor,replace,replaceFrom,hb]
  cases d with
  | simple h c => rfl
  | colimit h active c =>
    -- whichever variant is active, any other may be set
    change (if b.count ≤ i then _ else accept g b i 0 new >>= store) = accept g b i 0 new >>= store
    by_cases hi : b.count ≤ i
    · rw [if_pos hi,accept_of_count_le hfit.kind_eq hi]
      rfl
    · exact if_neg hi
  | limit h ds | power h ds | list h ds =>
    change (if ds.length ≤ i then _ else accept g b i 0 new >>= store) =
      fromPath (step _ i 0) >>= fun _ => accept g b i 0 new >>= store
    by_cases hi : ds.length ≤ i
    · have hnone : ds[i]? = none := List.getElem?_eq_none hi
      rw [if_pos hi]
      simp only [step,hnone]
      rfl
    · have hsome := List.getElem?_eq_getElem (Nat.lt_of_not_le hi)
      rw [if_neg hi]
      simp only [step,hsome]
      rfl

theorem setFactor_tree :
    let leaf (address : Module) (c : Morphism) : Denotator :=
      .colimit ⟨⟨1⟩,none,address⟩ 1 (.simple ⟨⟨0⟩,none,address⟩ c)
    let tree := leaf .null (.constant .null (.z 60))
    let branch := .limit ⟨⟨2⟩,none,.z⟩ [tree,leaf .z (.identity .z)]
    tree.setFactor .melodies 0 branch = .ok (.colimit ⟨⟨1⟩,none,.z⟩ 0 branch) ∧
    tree.replace .melodies [0] branch = .ok (.colimit ⟨⟨1⟩,none,.z⟩ 0 branch) ∧
    tree.setFactor .melodies 2 branch = .error (.path (.indexOutOfRange 0 2 2)) ∧
    tree.replace .melodies [2] branch = .error (.path (.indexOutOfRange 0 2 2)) := by
  intro leaf tree branch
  have hv : tree.validate .melodies = .ok () := by cbv
  have hset : tree.setFactor .melodies 0 branch = .ok (.colimit ⟨⟨1⟩,none,.z⟩ 0 branch) := by cbv
  have hnone : tree.setFactor .melodies 2 branch = .error (.path (.indexOutOfRange 0 2 2)) := rfl
  have hsame := setFactor_eq_replace FormGraph.reachable_melodies hv
  exact ⟨hset,(hsame 0 branch).symm.trans hset,hnone,(hsame 2 branch).symm.trans hnone⟩

end Denotator
end AddressedForms
