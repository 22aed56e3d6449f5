import AddressedForms.Hash.Canonical
import AddressedForms.Proofs.Address.Composition
set_option autoImplicit false

/-!
Canonical bytes are self-delimiting. Two values of a type have the same bytes, whatever follows
them, only if they are the same value; so a sequence of encodings is taken apart from the left, as
long as 64 bits count all lengths in it.
-/

namespace AddressedForms

theorem utf8_inj {s t : String} (h : utf8 s = utf8 t) : s = t :=
  String.toByteArray_inj.mp (ByteArray.ext (Array.toList_inj.mp h))

namespace Canonical
variable {α : Type} {code : α → List UInt8}

/-- Whatever follows two values, they have the same bytes only if they are the same. -/
def Delimits (code : α → List UInt8) (x y : α) : Prop :=
  ∀ s t, code x ++ s = code y ++ t → x = y ∧ s = t

theorem Delimits.inj {x y : α} (h : Delimits code x y) (he : code x = code y) : x = y :=
  (h [] [] (by rw [he])).1

/-- Values of a kind are told from all that follows their bytes; so no value's bytes begin another's,
and no two values have the same. -/
structure PrefixCode (p : α → Bool) (code : α → List UInt8) : Prop where
  delimits : ∀ x y, p x → p y → ∀ s t, code x ++ s = code y ++ t → x = y ∧ s = t
  apart : ∀ x y, p x → p y → code x <+: code y → x = y
  injective : ∀ x y, p x → p y → code x = code y → x = y

theorem prefixCode_of_delimits {p : α → Bool} (h : ∀ x y, p x → p y → Delimits code x y) :
    PrefixCode p code where
  delimits := h
  injective x y hx hy := (h x y hx hy).inj
  apart := by
    rintro x y hx hy ⟨t,ht⟩
    exact (h x y hx hy t [] (by simpa using ht)).1

theorem delimits_of_length {k : Nat} (hl : ∀ x, (code x).length = k) {x y : α}
    (hi : code x = code y → x = y) : Delimits code x y := by
  intro s t h
  obtain ⟨he,hst⟩ := List.append_inj h ((hl x).trans (hl y).symm)
  exact ⟨hi he,hst⟩

theorem delimits_flatMap {xs ys : List α} (hl : xs.length = ys.length)
    (h : ∀ x ∈ xs, ∀ y ∈ ys, Delimits code x y) :
    Delimits (List.flatMap code) xs ys := by
  induction xs generalizing ys with
  | nil =>
    cases List.length_eq_zero_iff.mp hl.symm
    exact fun s t he => ⟨rfl,he⟩
  | cons x xs ih =>
    cases ys with
    | nil => cases hl
    | cons y ys =>
      intro s t he
      simp only [List.flatMap_cons,List.append_assoc] at he
      obtain ⟨rfl,hrest⟩ := h x List.mem_cons_self y List.mem_cons_self _ _ he
      obtain ⟨rfl,hst⟩ := ih (Nat.succ.inj hl)
        (fun a ha b hb => h a (List.mem_cons_of_mem _ ha) b (List.mem_cons_of_mem _ hb)) _ _ hrest
      exact ⟨rfl,hst⟩

def countable (n : Nat) : Bool := n < 0x10000000000000000

theorem toUInt8_inj {m n : Nat} (h : m.toUInt8 = n.toUInt8) : m%256 = n%256 := by
  have h' := congrArg UInt8.toNat h
  simpa [Nat.toUInt8_eq] using h'

theorem littleEndian_inj {k m n : Nat} (hm : m < Nat.pow 256 k) (hn : n < Nat.pow 256 k)
    (h : littleEndian k m = littleEndian k n) : m = n := by
  induction k generalizing m n with
  | zero =>
    simp only [Nat.pow_eq,Nat.pow_zero] at hm hn
    omega
  | succ k ih =>
    obtain ⟨hlow,hhigh⟩ := List.cons.inj h
    have hlow := toUInt8_inj hlow
    have hdiv {l : Nat} (hl : l < Nat.pow 256 (k+1)) : l/256 < Nat.pow 256 k :=
      Nat.div_lt_of_lt_mul (by rwa [Nat.mul_comm])
    have := ih (hdiv hm) (hdiv hn) hhigh
    omega

theorem delimits_count {m n : Nat} (hm : countable m) (hn : countable n) :
    Delimits count m n :=
  delimits_of_length (length_littleEndian 8)
    (littleEndian_inj (of_decide_eq_true hm) (of_decide_eq_true hn))

theorem delimits_word (v w : UInt64) : Delimits word v w := by
  have hl (u : UInt64) : (word u).length = 8 := length_littleEndian 8 u.toNat
  exact delimits_of_length hl fun h =>
    UInt64.toNat_inj.mp (@littleEndian_inj 8 _ _ v.toNat_lt w.toNat_lt h)

theorem delimits_signed (v w : Int64) : Delimits signed v w := by
  intro s t h
  obtain ⟨hvw,hst⟩ := delimits_word v.toUInt64 w.toUInt64 s t h
  cases v
  cases w
  exact ⟨congrArg _ hvw,hst⟩

theorem delimits_text {a b : String} (ha : countable (utf8 a).length)
    (hb : countable (utf8 b).length) : Delimits text a b := by
  intro s t h
  simp only [text,List.append_assoc] at h
  obtain ⟨hl,h⟩ := delimits_count ha hb _ _ h
  obtain ⟨he,hst⟩ := List.append_inj h hl
  exact ⟨utf8_inj he,hst⟩

/-- Where a tag comes first, tags and what follows them are told apart. -/
theorem tagged_eq {tag : α → String} {payload : α → List UInt8}
    (hcode : ∀ x, code x = text (tag x) ++ payload x)
    (hcount : ∀ x, countable (utf8 (tag x)).length) {x y : α} {s t : List UInt8}
    (h : code x ++ s = code y ++ t) : tag x = tag y ∧ payload x ++ s = payload y ++ t := by
  rw [hcode,hcode,List.append_assoc,List.append_assoc] at h
  exact delimits_text (hcount x) (hcount y) _ _ h

theorem delimits_digest (x y : Digest) : Delimits Digest.bytes x y := by
  refine delimits_of_length Digest.length_eq fun h => ?_
  cases x
  cases h
  rfl

theorem separated_inj {domain x y : List UInt8} (h : separated domain x = separated domain y) :
    x = y := by
  simp only [separated,List.append_assoc,List.append_cancel_left_eq] at h
  exact (List.append_inj h (by simp [count])).2

def Collide (hash : List UInt8 → Digest) (x y : List UInt8) : Prop :=
  x ≠ y ∧ hash x = hash y

end Canonical

theorem Fraction.ext_num_den {a b : Fraction} (hn : a.num = b.num) (hd : a.den = b.den) : a = b := by
  have hword {v w : Int} (hv : fitsWord v) (hw : fitsWord w) (h : Int64.ofInt v = Int64.ofInt w) :
      v = w := by
    simp only [fitsWord,Bool.and_eq_true,decide_eq_true_eq] at hv hw
    have h' := congrArg Int64.toInt h
    rwa [Int64.toInt_ofInt_of_le (by omega) (by omega),
      Int64.toInt_ofInt_of_le (by omega) (by omega)] at h'
  have hden : a.val.den = b.val.den := by exact_mod_cast hword a.den_fits b.den_fits hd
  exact Fraction.ext_val (Rat.ext (hword a.num_fits b.num_fits hn) hden)

open Canonical

namespace Module

mutual
def isCountable : Module → Bool
  | .product fs => countable fs.length && allCountable fs
  | _ => true
def allCountable : List Module → Bool
  | [] => true
  | f :: fs => f.isCountable && allCountable fs
end

theorem allCountable_iff {fs : List Module} : allCountable fs ↔ ∀ f ∈ fs, f.isCountable := by
  induction fs <;> simp_all [allCountable]

def payload : Module → List UInt8
  | .zn n => word n
  | .product fs => count fs.length ++ fs.flatMap canonical
  | _ => []

theorem tag_payload_eq {m n : Module} {s t : List UInt8}
    (h : m.canonical ++ s = n.canonical ++ t) :
    m.tag = n.tag ∧ m.payload ++ s = n.payload ++ t := by
  have hall (fs : List Module) : canonicals fs = fs.flatMap canonical := by
    induction fs <;> simp_all [canonicals]
  exact tagged_eq (fun m => by cases m <;> simp [canonical,payload,tag,hall])
    (fun m => by cases m <;> rfl) h

theorem delimits_canonical {m n : Module} (hm : m.isCountable) (hn : n.isCountable) :
    Delimits canonical m n := by
  induction m using Module.rec (motive_2 := fun fs => ∀ f ∈ fs, ∀ n : Module, f.isCountable →
    n.isCountable → Delimits canonical f n) generalizing n with
  | nil => simp at *
  | cons f fs ihf ihfs =>
    rename_i e he n hf hn
    rcases List.mem_cons.mp he with rfl | he
    · exact ihf hf hn
    · exact ihfs e he n hf hn
  | zn k =>
    intro s t h
    obtain ⟨htag,h⟩ := tag_payload_eq h
    cases n <;> simp only [tag,String.reduceEq] at htag
    obtain ⟨rfl,hst⟩ := delimits_word _ _ _ _ h
    exact ⟨rfl,hst⟩
  | product fs ih =>
    intro s t h
    obtain ⟨htag,h⟩ := tag_payload_eq h
    cases n <;> simp only [tag,String.reduceEq] at htag
    simp only [isCountable,Bool.and_eq_true,allCountable_iff] at hm hn
    simp only [payload,List.append_assoc] at h
    obtain ⟨hl,h⟩ := delimits_count hm.1 hn.1 _ _ h
    obtain ⟨rfl,hst⟩ := delimits_flatMap hl
      (fun f hf e he => ih f hf e (hm.2 f hf) (hn.2 e he)) _ _ h
    exact ⟨rfl,hst⟩
  | _ =>
    intro s t h
    obtain ⟨htag,h⟩ := tag_payload_eq h
    cases n <;> simp only [tag,String.reduceEq] at htag
    exact ⟨rfl,h⟩

end Module

namespace Element

mutual
def isCountable : Element → Bool
  | .product xs => countable xs.length && allCountable xs
  | _ => true
def allCountable : List Element → Bool
  | [] => true
  | x :: xs => x.isCountable && allCountable xs
end

theorem allCountable_iff {xs : List Element} : allCountable xs ↔ ∀ x ∈ xs, x.isCountable := by
  induction xs <;> simp_all [allCountable]

def payload : Element → List UInt8
  | .null => []
  | .z v => signed v
  | .zn v n => word n ++ signed v
  | .q v => signed v.num ++ signed v.den
  | .r v => word v.bits
  | .product xs => count xs.length ++ xs.flatMap canonical

theorem tag_payload_eq {x y : Element} {s t : List UInt8}
    (h : x.canonical ++ s = y.canonical ++ t) :
    x.tag = y.tag ∧ x.payload ++ s = y.payload ++ t := by
  have hall (xs : List Element) : canonicals xs = xs.flatMap canonical := by
    induction xs <;> simp_all [canonicals]
  exact tagged_eq (fun x => by cases x <;> simp [canonical,payload,tag,hall])
    (fun x => by cases x <;> rfl) h

theorem delimits_canonical {x y : Element} (hx : x.isCountable) (hy : y.isCountable) :
    Delimits canonical x y := by
  induction x using Element.rec (motive_2 := fun xs => ∀ z ∈ xs, ∀ y : Element, z.isCountable →
    y.isCountable → Delimits canonical z y) generalizing y with
  | nil => simp at *
  | cons x xs ihx ihxs =>
    rename_i z hz y hzc hy
    rcases List.mem_cons.mp hz with rfl | hz
    · exact ihx hzc hy
    · exact ihxs z hz y hzc hy
  | null =>
    intro s t h
    obtain ⟨htag,h⟩ := tag_payload_eq h
    cases y <;> simp only [tag,String.reduceEq] at htag
    exact ⟨rfl,h⟩
  | z v =>
    intro s t h
    obtain ⟨htag,h⟩ := tag_payload_eq h
    cases y <;> simp only [tag,String.reduceEq] at htag
    obtain ⟨rfl,hst⟩ := delimits_signed _ _ _ _ h
    exact ⟨rfl,hst⟩
  | zn v n =>
    intro s t h
    obtain ⟨htag,h⟩ := tag_payload_eq h
    cases y <;> simp only [tag,String.reduceEq] at htag
    simp only [payload,List.append_assoc] at h
    obtain ⟨rfl,hv⟩ := delimits_word _ _ _ _ h
    obtain ⟨rfl,hst⟩ := delimits_signed _ _ _ _ hv
    exact ⟨rfl,hst⟩
  | q v =>
    intro s t h
    obtain ⟨htag,h⟩ := tag_payload_eq h
    cases y <;> simp only [tag,String.reduceEq] at htag
    simp only [payload,List.append_assoc] at h
    obtain ⟨hnum,h⟩ := delimits_signed _ _ _ _ h
    obtain ⟨hden,hst⟩ := delimits_signed _ _ _ _ h
    exact ⟨congrArg q (Fraction.ext_num_den hnum hden),hst⟩
  | r v =>
    intro s t h
    obtain ⟨htag,h⟩ := tag_payload_eq h
    cases y <;> simp only [tag,String.reduceEq] at htag
    obtain ⟨hbits,hst⟩ := delimits_word _ _ _ _ h
    exact ⟨congrArg r (congrArg Binary64.mk hbits),hst⟩
  | product xs ih =>
    intro s t h
    obtain ⟨htag,h⟩ := tag_payload_eq h
    cases y <;> simp only [tag,String.reduceEq] at htag
    simp only [isCountable,Bool.and_eq_true,allCountable_iff] at hx hy
    simp only [payload,List.append_assoc] at h
    obtain ⟨hl,h⟩ := delimits_count hx.1 hy.1 _ _ h
    obtain ⟨rfl,hst⟩ := delimits_flatMap hl
      (fun z hz y hy' => ih z hz y (hx.2 z hz) (hy.2 y hy')) _ _ h
    exact ⟨rfl,hst⟩

end Element

namespace Morphism

def isCountable : Morphism → Bool
  | .constant d x => d.isCountable && x.isCountable
  | .identity m => m.isCountable
  | .affine k a b => k.isCountable && (a.isCountable && b.isCountable)
  | .embedding d c => d.isCountable && c.isCountable
  | .composition f g => f.isCountable && g.isCountable

def payload : Morphism → List UInt8
  | .constant d x => d.canonical ++ x.canonical
  | .identity m => m.canonical
  | .affine k a b => k.canonical ++ a.canonical ++ b.canonical
  | .embedding d c => d.canonical ++ c.canonical
  | .composition f g => f.canonical ++ g.canonical

theorem tag_payload_eq {f g : Morphism} {s t : List UInt8}
    (h : f.canonical ++ s = g.canonical ++ t) :
    f.tag = g.tag ∧ f.payload ++ s = g.payload ++ t :=
  tagged_eq (fun f => by cases f <;> simp [canonical,payload,tag])
    (fun f => by cases f <;> rfl) h

theorem delimits_canonical {f g : Morphism} (hf : f.isCountable) (hg : g.isCountable) :
    Delimits canonical f g := by
  induction f generalizing g with
  | constant d x =>
    intro s t h
    obtain ⟨htag,h⟩ := tag_payload_eq h
    cases g <;> simp only [tag,String.reduceEq] at htag
    simp only [isCountable,Bool.and_eq_true] at hf hg
    simp only [payload,List.append_assoc] at h
    obtain ⟨rfl,hx⟩ := Module.delimits_canonical hf.1 hg.1 _ _ h
    obtain ⟨rfl,hst⟩ := Element.delimits_canonical hf.2 hg.2 _ _ hx
    exact ⟨rfl,hst⟩
  | identity m =>
    intro s t h
    obtain ⟨htag,h⟩ := tag_payload_eq h
    cases g <;> simp only [tag,String.reduceEq] at htag
    obtain ⟨rfl,hst⟩ := Module.delimits_canonical hf hg _ _ h
    exact ⟨rfl,hst⟩
  | affine k a b =>
    intro s t h
    obtain ⟨htag,h⟩ := tag_payload_eq h
    cases g <;> simp only [tag,String.reduceEq] at htag
    simp only [isCountable,Bool.and_eq_true] at hf hg
    simp only [payload,List.append_assoc] at h
    obtain ⟨rfl,ha⟩ := Module.delimits_canonical hf.1 hg.1 _ _ h
    obtain ⟨rfl,hb⟩ := Element.delimits_canonical hf.2.1 hg.2.1 _ _ ha
    obtain ⟨rfl,hst⟩ := Element.delimits_canonical hf.2.2 hg.2.2 _ _ hb
    exact ⟨rfl,hst⟩
  | embedding d c =>
    intro s t h
    obtain ⟨htag,h⟩ := tag_payload_eq h
    cases g <;> simp only [tag,String.reduceEq] at htag
    simp only [isCountable,Bool.and_eq_true] at hf hg
    simp only [payload,List.append_assoc] at h
    obtain ⟨rfl,hc⟩ := Module.delimits_canonical hf.1 hg.1 _ _ h
    obtain ⟨rfl,hst⟩ := Module.delimits_canonical hf.2 hg.2 _ _ hc
    exact ⟨rfl,hst⟩
  | composition f₁ f₂ ih₁ ih₂ =>
    intro s t h
    obtain ⟨htag,h⟩ := tag_payload_eq h
    cases g <;> simp only [tag,String.reduceEq] at htag
    simp only [isCountable,Bool.and_eq_true] at hf hg
    simp only [payload,List.append_assoc] at h
    obtain ⟨rfl,hinner⟩ := ih₁ hf.1 hg.1 _ _ h
    obtain ⟨rfl,hst⟩ := ih₂ hf.2 hg.2 _ _ hinner
    exact ⟨rfl,hst⟩

end Morphism

/-- In each of the three types, as far as 64 bits count all lengths. -/
theorem canonical_prefixCode :
    PrefixCode Module.isCountable Module.canonical ∧
    PrefixCode Element.isCountable Element.canonical ∧
    PrefixCode Morphism.isCountable Morphism.canonical :=
  ⟨prefixCode_of_delimits fun _ _ => Module.delimits_canonical,
    prefixCode_of_delimits fun _ _ => Element.delimits_canonical,
    prefixCode_of_delimits fun _ _ => Morphism.delimits_canonical⟩

/-- A tuple with a residue that was reduced and one that was given, each with a module after it. -/
theorem canonical_fifths :
    let x : Element := .product [.residue (-5) 12,.null]
    let y : Element := .product [.zn 7 12,.null]
    x.isCountable ∧ y.isCountable ∧
    x.canonical ++ Module.z.canonical = y.canonical ++ Canonical.text "ZRing" ∧
    x = y ∧ Module.z.canonical = Canonical.text "ZRing" := by
  intro x y
  have hx : x.isCountable := by decide
  have hy : y.isCountable := by decide
  have h : x.canonical ++ Module.z.canonical = y.canonical ++ Canonical.text "ZRing" := by rfl
  exact ⟨hx,hy,h,canonical_prefixCode.2.1.delimits x y hx hy _ _ h⟩

end AddressedForms
