import AddressedForms.Hash.Canonical
import AddressedForms.Json.Parse
import AddressedForms.Json.Print
import Mathlib.Tactic.SplitIfs
set_option autoImplicit false

/-!
Texts as JSON strings. A text comes back from its bytes, and it comes back from the string that
quotes it, whatever stands after the closing quote.
-/

namespace AddressedForms

theorem utf8_append (s t : String) : utf8 (s ++ t) = utf8 s ++ utf8 t := by
  simp [utf8,String.toByteArray_append]

theorem utf8_ofList (cs : List Char) :
    utf8 (String.ofList cs) = cs.flatMap String.utf8EncodeChar := by
  simp [utf8,List.utf8Encode]

theorem utf8_toString (c : Char) : utf8 c.toString = String.utf8EncodeChar c := by
  rw [show c.toString = String.ofList [c] from rfl,utf8_ofList,List.flatMap_singleton]

theorem ofUtf8?_utf8 (s : String) : ofUtf8? (utf8 s) = some s := by
  have hbytes : (⟨(utf8 s).toArray⟩ : ByteArray) = s.toByteArray := by simp [utf8]
  rw [ofUtf8?,hbytes,String.fromUTF8?,dif_pos s.isValidUTF8]
  rfl

namespace Json

/-- A byte that stands for itself in a string. -/
structure IsLiteral (b : UInt8) : Prop where
  printable : 32 ≤ b.toNat
  quote : b.toNat ≠ 34
  backslash : b.toNat ≠ 92

theorem isLiteral_ofNat {n : Nat} (hn : n < 256) (h : 32 ≤ n ∧ n ≠ 34 ∧ n ≠ 92) :
    IsLiteral (UInt8.ofNat n) := by
  have hnat : (UInt8.ofNat n).toNat = n := UInt8.toNat_ofNat_of_lt' hn
  constructor <;> omega

/-- A character that is not escaped is written in bytes that stand for themselves: its own below
128, and larger ones above. -/
theorem isLiteral_utf8EncodeChar {c : Char} (hc : 32 ≤ c.toNat) (hq : c ≠ '"') (hb : c ≠ '\\') :
    ∀ b ∈ String.utf8EncodeChar c, IsLiteral b := by
  have hq : c.toNat ≠ 34 := fun h => hq (Char.toNat_inj.mp h)
  have hb : c.toNat ≠ 92 := fun h => hb (Char.toNat_inj.mp h)
  have hval : c.val.toNat = c.toNat := rfl
  intro b h
  unfold String.utf8EncodeChar at h
  dsimp only at h
  rw [hval] at h
  split_ifs at h <;> simp only [List.mem_cons,List.not_mem_nil,or_false] at h
  · exact h ▸ isLiteral_ofNat (by omega) ⟨hc,hq,hb⟩
  · rcases h with rfl | rfl <;> exact isLiteral_ofNat (by omega) (by omega)
  · rcases h with rfl | rfl | rfl <;> exact isLiteral_ofNat (by omega) (by omega)
  · rcases h with rfl | rfl | rfl | rfl <;> exact isLiteral_ofNat (by omega) (by omega)

/-- Bytes of a string that are read as some pieces, whatever follows, and what the pieces stand
for. -/
structure Spells (ps : List Piece) (bs cs : List UInt8) : Prop where
  read : ∀ rest, pieces? (bs ++ rest) = (pieces? rest).map fun p => (ps ++ p.1,p.2)
  meant : ∀ qs, bytes? (ps ++ qs) = (bytes? qs).map (cs ++ ·)

theorem spells_nil : Spells [] [] [] where
  read rest := by rw [List.nil_append]; cases pieces? rest <;> rfl
  meant qs := by rw [List.nil_append]; cases bytes? qs <;> rfl

theorem Spells.append {ps qs : List Piece} {as bs cs ds : List UInt8} (h : Spells ps as cs)
    (hq : Spells qs bs ds) : Spells (ps ++ qs) (as ++ bs) (cs ++ ds) where
  read rest := by
    rw [List.append_assoc,h.read,hq.read,Option.map_map]
    simp [Function.comp_def]
  meant rs := by
    rw [List.append_assoc,h.meant,hq.meant,Option.map_map]
    simp [Function.comp_def]

theorem spells_literal {b : UInt8} (h : IsLiteral b) : Spells [.byte b] [b] [b] := by
  refine ⟨fun rest => ?_,fun _ => rfl⟩
  have hlt : ¬ b < 32 := by simpa [UInt8.lt_iff_toNat_lt] using h.printable
  have hb : b ≠ Byte.backslash := fun he => h.backslash (by rw [he]; rfl)
  rw [List.singleton_append,pieces?]
  · rw [if_neg (by simp [hlt,hb])]
    cases pieces? rest <;> rfl
  · exact fun he => h.quote (by rw [he]; rfl)
  · exact fun _ _ _ _ _ he => absurd he hb
  · exact fun _ _ he => absurd he hb

theorem spells_literals {bs : List UInt8} (h : ∀ b ∈ bs, IsLiteral b) :
    Spells (bs.map .byte) bs bs := by
  induction bs with
  | nil => exact spells_nil
  | cons b bs ih =>
    obtain ⟨hb,hbs⟩ := List.forall_mem_cons.mp h
    exact (spells_literal hb).append (ih hbs)

theorem spells_escaped {b c : UInt8} (h : escaped? b = some c) :
    Spells [.byte c] [Byte.backslash,b] [c] := by
  have hread (rest : List UInt8) : pieces? (Byte.backslash :: b :: rest) =
      (escaped? b).bind fun c => (pieces? rest).bind fun p => some (.byte c :: p.1,p.2) := by
    unfold escaped? at h
    split_ifs at h with hself hb hf hn hr ht
    · obtain rfl | rfl | rfl := hself <;> rfl
    all_goals subst b; rfl
  refine ⟨fun rest => (hread rest).trans ?_,fun _ => rfl⟩
  rw [h]
  cases pieces? rest <;> rfl

theorem spells_unit {a b c d : UInt8} {n : Nat} (h : hexUnit? a b c d = some n) (hn : n < 0xd800) :
    Spells [.unit n] [Byte.backslash,Byte.lowerU,a,b,c,d] (encodeChar n) where
  read rest := by
    have hread : pieces? (Byte.backslash :: Byte.lowerU :: a :: b :: c :: d :: rest) =
      (hexUnit? a b c d).bind fun n => (pieces? rest).bind fun p => some (.unit n :: p.1,p.2) := rfl
    refine hread.trans ?_
    rw [h]
    cases pieces? rest <;> rfl
  meant qs := by
    have hhigh : isHighSurrogate n = false := by simp [isHighSurrogate]; omega
    have hlow : isLowSurrogate n = false := by simp [isLowSurrogate]; omega
    show bytes? (.unit n :: qs) = _
    rw [bytes?.eq_def]
    simp only [hhigh,hlow,Bool.false_eq_true,if_false]

theorem hexUnit?_control : ∀ n < 32,
    hexUnit? 48 48 (n/16).digitChar.toUInt8 (n%16).digitChar.toUInt8 = some n := by decide

theorem utf8_controlText : ∀ n < 32, utf8 (controlText (Char.ofNat n)) =
    [92,117,48,48,(n/16).digitChar.toUInt8,(n%16).digitChar.toUInt8] := by decide

theorem encodeChar_toNat (c : Char) : encodeChar c.toNat = String.utf8EncodeChar c := by
  rw [encodeChar,Char.ofNat_toNat]
  exact utf8_toString c

theorem exists_spells_escape (c : Char) :
    ∃ ps, Spells ps (utf8 (escape c)) (String.utf8EncodeChar c) := by
  unfold escape
  split_ifs with hquote hbackslash hb ht hn hf hr hcontrol
  · subst hquote; exact ⟨_,spells_escaped (b := 34) (c := 34) rfl⟩
  · subst hbackslash; exact ⟨_,spells_escaped (b := 92) (c := 92) rfl⟩
  · subst hb; exact ⟨_,spells_escaped (b := 98) (c := 8) rfl⟩
  · subst ht; exact ⟨_,spells_escaped (b := 116) (c := 9) rfl⟩
  · subst hn; exact ⟨_,spells_escaped (b := 110) (c := 10) rfl⟩
  · subst hf; exact ⟨_,spells_escaped (b := 102) (c := 12) rfl⟩
  · subst hr; exact ⟨_,spells_escaped (b := 114) (c := 13) rfl⟩
  · have hunit := spells_unit (hexUnit?_control _ hcontrol) (by omega)
    rw [← utf8_controlText _ hcontrol,Char.ofNat_toNat,encodeChar_toNat] at hunit
    exact ⟨_,hunit⟩
  · rw [utf8_toString]
    exact ⟨_,spells_literals (isLiteral_utf8EncodeChar (by omega) hquote hbackslash)⟩

theorem exists_spells_escapeAll (cs : List Char) :
    ∃ ps, Spells ps (utf8 (escapeAll cs)) (cs.flatMap String.utf8EncodeChar) := by
  induction cs with
  | nil => exact ⟨[],spells_nil⟩
  | cons c cs ih =>
    obtain ⟨ps,hps⟩ := exists_spells_escape c
    obtain ⟨qs,hqs⟩ := ih
    rw [escapeAll,utf8_append,List.flatMap_cons]
    exact ⟨_,hps.append hqs⟩

def quotedTail (s : String) : List UInt8 := utf8 (escapeAll s.toList) ++ [Byte.quote]

theorem utf8_quote (s : String) : utf8 (quote s) = Byte.quote :: quotedTail s := by
  rw [quote,utf8_append,utf8_append]
  rfl

/-- A quoted text is read in front of anything. -/
theorem string?_quotedTail (s : String) (rest : List UInt8) :
    string? (quotedTail s ++ rest) = some (some s,rest) := by
  obtain ⟨ps,hps⟩ := exists_spells_escapeAll s.toList
  have hread : pieces? (quotedTail s ++ rest) = some (ps,rest) := by
    rw [quotedTail,List.append_assoc,hps.read]
    exact congrArg some (Prod.ext (List.append_nil ps) rfl)
  have hmeant : bytes? ps = some (utf8 s) := by
    have h := hps.meant []
    rw [List.append_nil,← utf8_ofList,String.ofList_toList] at h
    exact h.trans (congrArg some (List.append_nil _))
  rw [string?,hread]
  simp only [Option.bind_eq_bind,Option.bind_some,hmeant,ofUtf8?_utf8]

end Json
end AddressedForms
