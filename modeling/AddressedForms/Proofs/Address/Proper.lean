import AddressedForms.Address.Morphism
import AddressedForms.Proofs.Number.Decimal
set_option autoImplicit false

/-!
Proper leaves: moduli that fit a signed word, residues between zero and their modulus, reals that
their text determines, and morphisms as the checked constructors make them.
-/

namespace AddressedForms
namespace Module

mutual
def isProper : Module → Bool
  | .zn n => n ≠ 0 && n ≤ maxModulus
  | .product fs => allProper fs
  | _ => true
def allProper : List Module → Bool
  | [] => true
  | f :: fs => f.isProper && allProper fs
end

theorem isNull_iff {m : Module} : m.isNull ↔ m = .null := by
  cases m <;> simp [isNull]

/-- Where canonical ring maps lead, identities apart, and the zero maps. -/
inductive Embeds : Module → Module → Prop
  | null {d : Module} (h : d ≠ .null) : Embeds d .null
  | fractions : Embeds .z .q
  | reals : Embeds .z .r
  | fractionsInReals : Embeds .q .r
  | residues (m : UInt64) : Embeds .z (.zn m)
  | divisor {n m : UInt64} (hne : n ≠ m) (hm : m ≠ 0) (hd : n%m = 0) : Embeds (.zn n) (.zn m)

theorem embeds_zn_iff {n m : UInt64} :
    (zn n).embeds (zn m) ↔ n ≠ m ∧ m ≠ 0 ∧ n%m = 0 := by
  show (n ≠ m && m ≠ 0 && n%m = 0) = true ↔ _
  rw [Bool.and_eq_true,Bool.and_eq_true,decide_eq_true_iff,decide_eq_true_iff,decide_eq_true_iff,
    and_assoc]

theorem embeds_iff {d c : Module} : d.embeds c ↔ Embeds d c := by
  constructor
  · intro h
    cases c with
    | null => exact .null (by rintro rfl; cases h)
    | z | product => cases d <;> cases h
    | q =>
      cases d with
      | z => exact .fractions
      | _ => cases h
    | r =>
      cases d with
      | z => exact .reals
      | q => exact .fractionsInReals
      | _ => cases h
    | zn m =>
      cases d with
      | z => exact .residues m
      | zn n =>
        obtain ⟨hne,hm,hd⟩ := embeds_zn_iff.mp h
        exact .divisor hne hm hd
      | _ => cases h
  · intro h
    cases h with
    | @null d h =>
      cases d with
      | null => exact absurd rfl h
      | _ => rfl
    | divisor hne hm hd => exact embeds_zn_iff.mpr ⟨hne,hm,hd⟩
    | _ => rfl

section Modulus
variable {n : UInt64}

theorem toNat_ne_zero (h : (zn n).isProper) : n.toNat ≠ 0 := by
  simp only [isProper,Bool.and_eq_true,decide_eq_true_eq,ne_eq] at h
  exact fun hz => h.1 (UInt64.toNat_inj.mp hz)

theorem clamp_of_isProper (h : (zn n).isProper) : max 1 (min n maxModulus) = n := by
  have hpos := toNat_ne_zero h
  simp only [isProper,Bool.and_eq_true,decide_eq_true_eq] at h
  have hone : (1 : UInt64) ≤ n := by
    rw [UInt64.le_iff_toNat_le]
    show 1 ≤ n.toNat
    omega
  have hmin : min n maxModulus = n := if_pos h.2
  rw [hmin]
  exact if_pos hone

end Modulus

end Module

namespace Element

mutual
def isProper : Element → Bool
  | .zn v n => (Module.zn n).isProper && (0 ≤ v.toInt && v.toInt < n.toNat)
  | .r v => v.isReadable
  | .product xs => allProper xs
  | _ => true
def allProper : List Element → Bool
  | [] => true
  | x :: xs => x.isProper && allProper xs
end

theorem residue_of_modulus {n : UInt64} (h : (Module.zn n).isProper) (v : Int64) :
    residue v n = .zn (Int64.ofInt (v.toInt%n.toNat)) n := by
  unfold residue
  dsimp only
  rw [Module.clamp_of_isProper h]

theorem residue_of_isProper {v : Int64} {n : UInt64} (h : (Element.zn v n).isProper) :
    residue v n = .zn v n := by
  simp only [isProper,Bool.and_eq_true,decide_eq_true_eq] at h
  obtain ⟨hn,h0,hlt⟩ := h
  rw [residue_of_modulus hn,Int.emod_eq_of_lt h0 hlt,Int64.ofInt_toInt]

end Element

namespace Morphism

def isProper : Morphism → Bool
  | .constant d x => d.isProper && x.isProper
  | .identity m => m.isProper
  | .affine k a b =>
    k.isRing && (k.contains a && k.contains b) && (k.isProper && a.isProper && b.isProper)
  | .embedding d c => d.embeds c && (d.isProper && c.isProper)
  | .composition f g => f.domain = g.codomain && (f.isProper && g.isProper)

theorem affine?_of_isProper {k : Module} {a b : Element} (h : (affine k a b).isProper) :
    affine? k a b = .ok (.affine k a b) := by
  simp only [isProper,Bool.and_eq_true] at h
  simp [affine?,h.1.1,h.1.2.1,h.1.2.2]

theorem embedding?_of_isProper {d c : Module} (h : (embedding d c).isProper) :
    embedding? d c = .ok (.embedding d c) := by
  simp only [isProper,Bool.and_eq_true] at h
  simp [embedding?,h.1]

end Morphism
end AddressedForms
