import AddressedForms.Denotator.Fingerprint
import AddressedForms.Proofs.Denotator.Recovery
import AddressedForms.Proofs.Form.Fingerprint
set_option autoImplicit false

/-!
What the fingerprint of a denotator tells. The bytes that are hashed for a node are decoded part by
part; so two trees with one fingerprint agree node by node, down to the fingerprints of their forms,
unless two different strings that were hashed on the way have one hash. Nothing is supposed of the
hash function.
-/

namespace AddressedForms
namespace Denotator
open Canonical
variable {hash : List UInt8 → Digest} {g k : FormGraph} {d e x y : Denotator}
  {R : Denotator → Denotator → Prop}

/-- Trees of one shape with related nodes at the same places. -/
inductive Throughout (R : Denotator → Denotator → Prop) : Denotator → Denotator → Prop
  | node {x y : Denotator} (hr : R x y) (hf : List.Forall₂ (Throughout R) x.factors y.factors) :
    Throughout R x y

theorem throughout_iff : Throughout R x y ↔
    R x y ∧ List.Forall₂ (Throughout R) x.factors y.factors :=
  ⟨fun ⟨hr,hf⟩ => ⟨hr,hf⟩,fun ⟨hr,hf⟩ => .node hr hf⟩

theorem Throughout.step (hR : ∀ x y, R x y → x.kind = y.kind ∧ x.index? = y.index?)
    (h : Throughout R x y) (i depth : Nat) :
    Except.Rel (Throughout R) (x.step i depth) (y.step i depth) := by
  obtain ⟨hr,hf⟩ := throughout_iff.mp h
  obtain ⟨hkind,hindex⟩ := hR x y hr
  cases x with
  | simple =>
    cases y <;> cases hkind
    exact .error _
  | colimit _ a f =>
    cases y <;> cases hkind
    cases hindex
    rw [Denotator.step,Denotator.step]
    split
    · exact .ok (List.forall₂_cons.mp hf).1
    · exact .error _
  | limit _ fs | power _ fs | list _ fs =>
    cases y <;> cases hkind
    rename_i es
    have hlength : fs.length = es.length := hf.length_eq
    have hget : Option.Rel (Throughout R) fs[i]? es[i]? := rel_getElem? hf i
    rw [Denotator.step,Denotator.step,← hlength]
    generalize fs[i]? = a, es[i]? = b at hget ⊢
    cases hget with
    | none => exact .error _
    | some h => exact .ok h

theorem Throughout.get (hR : ∀ x y, R x y → x.kind = y.kind ∧ x.index? = y.index?)
    (h : Throughout R x y) (path : List Nat) : Except.Rel R (x.get path) (y.get path) := by
  have hfrom (depth : Nat) : Except.Rel R (getFrom depth path x) (getFrom depth path y) := by
    induction path generalizing x y depth with
    | nil => exact .ok (throughout_iff.mp h).1
    | cons i path ih => exact (h.step hR i depth).bind fun _ _ hfactor => ih hfactor (depth+1)
  exact hfrom 0

def formDigest (hash : List UInt8 → Digest) (g : FormGraph) (id : FormId) : Digest :=
  (g.fingerprint? hash id).getD .zero

/-- All that a fingerprint covers of a node itself. -/
structure Bound (hash : List UInt8 → Digest) (g k : FormGraph) (x y : Denotator) : Prop where
  name : x.name = y.name
  form : formDigest hash g x.form = formDigest hash k y.form
  address : x.address = y.address
  kind : x.kind = y.kind
  index : x.index? = y.index?
  count : x.factors.length = y.factors.length
  morphism : x.morphism? = y.morphism?

section Messages

def digests (hash : List UInt8 → Digest) (g : FormGraph) (ds : List Denotator) : List UInt8 :=
  (ds.map (fingerprint hash g)).flatMap Digest.bytes

def payload (hash : List UInt8 → Digest) (g : FormGraph) : Denotator → List UInt8
  | .simple _ m => m.canonical
  | .colimit _ i d => Canonical.count i ++ digests hash g [d]
  | .limit _ ds | .power _ ds | .list _ ds => Canonical.count ds.length ++ digests hash g ds

def message (hash : List UInt8 → Digest) (g : FormGraph) (d : Denotator) : List UInt8 :=
  separated (utf8 Domain.denotator.name) (headBytes hash g d.head d.kind ++ d.payload hash g)

/-- All that is hashed in the domain of denotators for a fingerprint. -/
def messages (hash : List UInt8 → Digest) (g : FormGraph) (d : Denotator) : List (List UInt8) :=
  d.nodes.map (message hash g)

theorem fingerprint_eq (d : Denotator) : d.fingerprint hash g = hash (d.message hash g) := by
  have hall (ds : List Denotator) : fingerprints hash g ds = digests hash g ds := by
    induction ds with
    | nil => rfl
    | cons d ds ih => rw [fingerprints,ih]; rfl
  cases d <;>
    simp [fingerprint,message,payload,hashWith,head,kind,hall,digests]

theorem self_mem_messages (d : Denotator) : d.message hash g ∈ d.messages hash g :=
  List.mem_map_of_mem (self_mem_nodes d)

theorem messages_subset (h : x ∈ d.factors) : x.messages hash g ⊆ d.messages hash g :=
  List.map_subset _ fun _ hn => nodes_trans hn (mem_nodes_of_mem_factors h)

end Messages

def isCountableNode (d : Denotator) : Bool :=
  d.name.all (fun name => countable (utf8 name).length) && d.address.isCountable &&
    d.index?.all countable && countable d.factors.length && d.morphism?.all Morphism.isCountable

def isCountable (d : Denotator) : Bool := d.nodes.all isCountableNode

theorem isCountable_iff : d.isCountable ↔ d.isCountableNode ∧ ∀ f ∈ d.factors, f.isCountable := by
  simp only [isCountable,List.all_eq_true]
  exact forall_mem_nodes

theorem delimits_name {a b : Option String} (ha : a.all fun s => countable (utf8 s).length)
    (hb : b.all fun s => countable (utf8 s).length) : Delimits nameBytes a b := by
  intro s t h
  cases a <;> cases b <;> simp only [nameBytes,List.cons_append,List.cons.injEq] at h
  · exact ⟨rfl,h.2⟩
  · exact absurd h.1 (by decide)
  · exact absurd h.1 (by decide)
  · obtain ⟨rfl,hst⟩ := delimits_text ha hb _ _ h.2
    exact ⟨rfl,hst⟩

theorem digests_inj {ds es : List Denotator} (hl : ds.length = es.length)
    (h : digests hash g ds = digests hash k es) :
    ds.map (fingerprint hash g) = es.map (fingerprint hash k) :=
  (delimits_flatMap (by simpa using hl) fun x _ y _ => delimits_digest x y).inj h

theorem bound_of_message_eq (hx : x.isCountableNode) (hy : y.isCountableNode)
    (h : x.message hash g = y.message hash k) : Bound hash g k x y ∧
      x.factors.map (fingerprint hash g) = y.factors.map (fingerprint hash k) := by
  simp only [isCountableNode,Bool.and_eq_true] at hx hy
  obtain ⟨⟨⟨⟨hxn,hxa⟩,hxi⟩,hxc⟩,hxm⟩ := hx
  obtain ⟨⟨⟨⟨hyn,hya⟩,hyi⟩,hyc⟩,hym⟩ := hy
  have h' := separated_inj h
  simp only [headBytes,List.append_assoc] at h'
  obtain ⟨hname,h'⟩ := delimits_name hxn hyn _ _ h'
  obtain ⟨hform,h'⟩ := delimits_digest _ _ _ _ h'
  obtain ⟨haddress,h'⟩ := Module.delimits_canonical hxa hya _ _ h'
  obtain ⟨hkind,h'⟩ := delimits_kind _ _ _ _ h'
  cases x with
  | simple _ m =>
    cases y <;> cases hkind
    simp only [payload] at h'
    obtain rfl := (Morphism.delimits_canonical hxm hym).inj h'
    exact ⟨⟨hname,hform,haddress,rfl,rfl,rfl,rfl⟩,by simp only [factors,List.map_nil]⟩
  | colimit _ i f =>
    cases y <;> cases hkind
    simp only [payload] at h'
    obtain ⟨rfl,hf⟩ := delimits_count hxi hyi _ _ h'
    exact ⟨⟨hname,hform,haddress,rfl,rfl,rfl,rfl⟩,digests_inj rfl hf⟩
  | limit _ ds | power _ ds | list _ ds =>
    cases y <;> cases hkind
    simp only [payload] at h'
    obtain ⟨hcount,h'⟩ := delimits_count hxc hyc _ _ h'
    exact ⟨⟨hname,hform,haddress,rfl,rfl,hcount,rfl⟩,digests_inj hcount h'⟩

/-- The same is covered of trees with the same fingerprint, unless hashes collide. -/
theorem throughout_or_collide (hd : d.isCountable) (he : e.isCountable)
    (h : d.fingerprint hash g = e.fingerprint hash k) : Throughout (Bound hash g k) d e ∨
      ∃ x ∈ d.messages hash g, ∃ y ∈ e.messages hash k, Collide hash x y := by
  by_cases hc : ∃ x ∈ d.messages hash g, ∃ y ∈ e.messages hash k, Collide hash x y
  · exact .inr hc
  refine .inl ?_
  induction d using factor_induction generalizing e with
  | h d ih =>
    obtain ⟨hdn,hdf⟩ := isCountable_iff.mp hd
    obtain ⟨hen,hef⟩ := isCountable_iff.mp he
    have hmessage : d.message hash g = e.message hash k := by
      by_contra hne
      rw [fingerprint_eq,fingerprint_eq] at h
      exact hc ⟨_,self_mem_messages d,_,self_mem_messages e,hne,h⟩
    obtain ⟨hbound,hfactors⟩ := bound_of_message_eq hdn hen hmessage
    have hpairs : List.Forall₂ (fun a b => a.fingerprint hash g = b.fingerprint hash k)
        d.factors e.factors := List.forall₂_map_left_iff.mp
      (List.forall₂_map_right_iff.mp (hfactors ▸ List.forall₂_refl _))
    refine .node hbound (forall₂_of_mem hpairs fun a ha b hb hab => ?_)
    refine ih a ha (hdf a ha) (hef b hb) hab fun ⟨x,hx,y,hy,hxy⟩ => hc ?_
    exact ⟨x,messages_subset ha hx,y,messages_subset hb hy,hxy⟩

theorem Throughout.fingerprint_eq (h : Throughout (Bound hash g k) d e) :
    d.fingerprint hash g = e.fingerprint hash k := by
  induction d using factor_induction generalizing e with
  | h d ih =>
    obtain ⟨⟨hname,hform,haddress,hkind,hindex,hcount,hmorphism⟩,hf⟩ := throughout_iff.mp h
    have hdigests : digests hash g d.factors = digests hash k e.factors := by
      have := map_eq_of_forall₂ (forall₂_of_mem hf fun a ha b _ hab => ih a ha hab) fun _ _ h => h
      rw [digests,digests,this]
    have hhead : headBytes hash g d.head d.kind = headBytes hash k e.head e.kind := by
      show nameBytes d.name ++ (formDigest hash g d.form).bytes ++ d.address.canonical ++ _ =
        nameBytes e.name ++ (formDigest hash k e.form).bytes ++ e.address.canonical ++ _
      rw [hname,hform,haddress,hkind]
    have hpayload : d.payload hash g = e.payload hash k := by
      cases d <;> cases e <;> cases hkind <;> cases hindex <;> cases hmorphism <;>
        simp_all [payload,factors]
    rw [Denotator.fingerprint_eq,Denotator.fingerprint_eq,message,message,hhead,hpayload]

/-- A fingerprint binds the whole tree. -/
theorem bound_of_fingerprint_eq (hd : d.isCountable) (he : e.isCountable)
    (h : d.fingerprint hash g = e.fingerprint hash k) :
    (∀ path, Except.Rel (Bound hash g k) (d.get path) (e.get path)) ∨
      ∃ x ∈ d.messages hash g, ∃ y ∈ e.messages hash k, Collide hash x y :=
  (throughout_or_collide hd he h).imp_left fun ht =>
    ht.get fun _ _ hb => ⟨hb.kind,hb.index⟩

end Denotator

/-- Two copies of a form, and a form of sets over the first. -/
def FormGraph.twinPitches : FormGraph :=
  let pitch : Slot := .defined ⟨"Pitch",.simple .z,none,false⟩
  ⟨[pitch,pitch,.defined ⟨"Chord",.power ⟨0⟩,none,false⟩],.empty⟩

theorem FormGraph.reachable_twinPitches : twinPitches.Reachable :=
  ((Reachable.empty.add "Pitch" (.simple .z)).add "Pitch" (.simple .z)).add "Chord" (.power ⟨0⟩)

namespace Denotator
open Canonical

def note (copy : Nat) (pitch : Int64) : Denotator :=
  .simple ⟨⟨copy⟩,none,.null⟩ (.constant .null (.z pitch))

def chord (notes : List Denotator) : Denotator := .power ⟨⟨2⟩,none,.null⟩ notes

theorem throughout_unison : Throughout (Bound Sha256.digest .twinPitches .twinPitches)
    (chord [note 0 60]) (chord [note 1 60]) := by
  have hform : formDigest Sha256.digest .twinPitches ⟨0⟩ =
      formDigest Sha256.digest .twinPitches ⟨1⟩ := rfl
  exact .node ⟨rfl,rfl,rfl,rfl,rfl,rfl,rfl⟩ (.cons (.node ⟨rfl,hform,rfl,rfl,rfl,rfl,rfl⟩ .nil) .nil)

theorem bound_unison : (chord [note 0 60]).isCountable ∧ (chord [note 1 60]).isCountable ∧
    (chord [note 0 60]).fingerprint Sha256.digest .twinPitches =
      (chord [note 1 60]).fingerprint Sha256.digest .twinPitches ∧
    ((∀ path, Except.Rel (Bound Sha256.digest .twinPitches .twinPitches)
      ((chord [note 0 60]).get path) ((chord [note 1 60]).get path)) ∨
      ∃ x ∈ (chord [note 0 60]).messages Sha256.digest .twinPitches,
        ∃ y ∈ (chord [note 1 60]).messages Sha256.digest .twinPitches,
          Collide Sha256.digest x y) := by
  have hd : (chord [note 0 60]).isCountable := by decide
  have he : (chord [note 1 60]).isCountable := by decide
  have h := throughout_unison.fingerprint_eq
  exact ⟨hd,he,h,bound_of_fingerprint_eq hd he h⟩

end Denotator
end AddressedForms
