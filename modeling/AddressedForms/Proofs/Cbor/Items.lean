import AddressedForms.Document.Cbor
import AddressedForms.Proofs.Json.Strings
set_option autoImplicit false

/-!
CBOR items as they are written: a head with a length that 64 bits count, and what has that length.
Such an item is read in front of anything.
-/

namespace AddressedForms
namespace Cbor
variable {n : Nat} {rest : List UInt8}

theorem length_bigEndian (k n : Nat) : (bigEndian k n).length = k := by
  induction k generalizing n with
  | zero => rfl
  | succ k ih => rw [bigEndian,List.length_append,ih]; rfl

theorem ofBigEndian_bigEndian {k : Nat} (h : n < Nat.pow 256 k) :
    ofBigEndian (bigEndian k n) = n := by
  induction k generalizing n with
  | zero =>
    rw [Nat.pow_eq,Nat.pow_zero] at h
    obtain rfl : n = 0 := by omega
    rfl
  | succ k ih =>
    have hdiv : n/256 < Nat.pow 256 k := Nat.div_lt_of_lt_mul (by rwa [Nat.mul_comm])
    have hbyte : n.toUInt8.toNat = n%256 := by simp [Nat.toUInt8_eq]
    have hfold : ofBigEndian (bigEndian (k+1) n) =
      256*ofBigEndian (bigEndian k (n/256))+n.toUInt8.toNat := List.foldl_append
    rw [hfold,ih hdiv,hbyte]
    omega

theorem split?_append {bs : List UInt8} (h : bs.length = n) (rest : List UInt8) :
    split? n (bs ++ rest) = some (bs,rest) := by
  rw [split?,if_pos (by rw [List.length_append,h]; exact Nat.le_add_right _ _),List.take_left' h,
    List.drop_left' h]

theorem argument?_bigEndian {i : Nat} (hi : i < 4) (h : n < Nat.pow 256 (1<<<i))
    (rest : List UInt8) :
    argument? (24+i) (bigEndian (1<<<i) n ++ rest) = some (.value n,rest) := by
  rw [argument?,if_neg (by omega),if_pos (by omega),Nat.add_sub_cancel_left,
    split?_append (length_bigEndian _ _)]
  simp only [Option.map_some,ofBigEndian_bigEndian h]

theorem head?_byte {major info : Nat} {a : Argument} {bs : List UInt8} (hm : major < 8)
    (hi : info < 32) (ha : argument? info bs = some (a,rest)) :
    head? ((32*major+info).toUInt8 :: bs) = some (major,info,a,rest) := by
  have hbyte : (32*major+info).toUInt8.toNat = 32*major+info :=
    UInt8.toNat_ofNat_of_lt' (show 32*major+info < 256 by omega)
  have hmod : (32*major+info)%32 = info := by omega
  have hdiv : (32*major+info)/32 = major := by omega
  rw [head?,hbyte,hmod,hdiv,ha]
  rfl

theorem exists_head?_head (major : Nat) (hm : major < 8) (hn : n < 0x10000000000000000)
    (rest : List UInt8) :
    ∃ info, head? (head major n ++ rest) = some (major,info,.value n,rest) := by
  unfold head
  dsimp only
  split_ifs with h0 h1 h2 h4
  · exact ⟨n,head?_byte hm (by omega) (by rw [argument?,if_pos h0]; rfl)⟩
  · exact ⟨24,head?_byte hm (by omega) (argument?_bigEndian (i := 0) (by omega) h1 rest)⟩
  · exact ⟨25,head?_byte hm (by omega) (argument?_bigEndian (i := 1) (by omega) h2 rest)⟩
  · exact ⟨26,head?_byte hm (by omega) (argument?_bigEndian (i := 2) (by omega) h4 rest)⟩
  · exact ⟨27,head?_byte hm (by omega) (argument?_bigEndian (i := 3) (by omega) hn rest)⟩

theorem length_head_pos (major n : Nat) : 0 < (head major n).length := by
  unfold head
  dsimp only
  split_ifs <;> simp

/-- The bytes of an item, which is read in front of anything. The fuel is twice the length since the
members of an item take a step of their own. -/
def Reads (depth : Nat) (x : Item) (bs : List UInt8) : Prop :=
  ∀ fuel rest, 2*bs.length ≤ fuel → item? fuel depth (bs ++ rest) = some (x,rest)

def ReadsItems (depth : Nat) (xs : List Item) (bs : List UInt8) : Prop :=
  ∀ fuel rest, 2*bs.length+1 ≤ fuel → items? fuel depth xs.length (bs ++ rest) = some (xs,rest)

def ReadsEntries (depth : Nat) (es : List (Item × Item)) (bs : List UInt8) : Prop :=
  ∀ fuel rest, 2*bs.length+1 ≤ fuel → entries? fuel depth es.length (bs ++ rest) = some (es,rest)

variable {depth : Nat} {x k : Item} {xs : List Item} {es : List (Item × Item)}
  {bs cs ds : List UInt8}

theorem Reads.parse? (h : Reads maxDepth x bs) : Cbor.parse? bs = some x := by
  have hread : item? (2*bs.length+2) maxDepth bs = some (x,[]) := by
    simpa using h (2*bs.length+2) [] (by omega)
  rw [Cbor.parse?,hread]

theorem reads_of_head {major : Nat} (h : ∀ fuel rest, 2*bs.length+1 ≤ fuel →
      item? (fuel+1) depth (head major n ++ (bs ++ rest)) = some (x,rest)) :
    Reads depth x (head major n ++ bs) := by
  intro fuel rest hf
  have hpos := length_head_pos major n
  rw [List.length_append] at hf
  obtain ⟨fuel,rfl⟩ := Nat.exists_eq_add_one.mpr (show 0 < fuel by omega)
  rw [List.append_assoc]
  exact h fuel rest (by omega)

theorem reads_text {s : String} (hs : (utf8 s).length < 0x10000000000000000) :
    Reads depth (.text s) (textBytes s) := by
  rw [show textBytes s = head 3 (utf8 s).length ++ utf8 s from rfl]
  refine reads_of_head fun fuel rest _ => ?_
  obtain ⟨info,hhead⟩ := exists_head?_head 3 (by omega) hs (utf8 s ++ rest)
  rw [item?,hhead]
  show ((split? (utf8 s).length (utf8 s ++ rest)).bind fun p => (ofUtf8? p.1).bind fun s =>
    some (Item.text s,p.2)) = _
  rw [split?_append rfl,Option.bind_some,ofUtf8?_utf8]
  rfl

theorem Reads.length_pos (h : Reads depth x bs) : 0 < bs.length := by
  refine Nat.pos_of_ne_zero fun hlen => ?_
  have hnone := h 0 [] (by omega)
  rw [item?] at hnone
  cases hnone

theorem readsItems_nil : ReadsItems depth [] [] := by
  intro fuel rest _
  rw [List.length_nil,items?]
  rfl

theorem readsItems_cons (h : Reads depth x bs) (hs : ReadsItems depth xs cs) :
    ReadsItems depth (x :: xs) (bs ++ cs) := by
  intro fuel rest hf
  obtain ⟨fuel,rfl⟩ := Nat.exists_eq_add_one.mpr (Nat.zero_lt_of_lt hf)
  have hpos := h.length_pos
  rw [List.length_append] at hf
  rw [List.length_cons,List.append_assoc,items?,h fuel _ (by omega)]
  simp only [Option.bind_eq_bind,Option.bind_some]
  rw [hs fuel rest (by omega)]
  rfl

theorem reads_array (hn : xs.length < 0x10000000000000000) (h : ReadsItems depth xs bs) :
    Reads (depth+1) (.array xs) (head 4 xs.length ++ bs) := by
  refine reads_of_head fun fuel rest hf => ?_
  obtain ⟨info,hhead⟩ := exists_head?_head 4 (by omega) hn (bs ++ rest)
  rw [item?,hhead]
  show (items? fuel depth xs.length (bs ++ rest)).map _ = _
  rw [h fuel rest hf]
  rfl

theorem readsEntries_nil : ReadsEntries depth [] [] := by
  intro fuel rest _
  rw [List.length_nil,entries?]
  rfl

theorem readsEntries_cons (hk : Reads depth k bs) (h : Reads depth x cs)
    (hs : ReadsEntries depth es ds) : ReadsEntries depth ((k,x) :: es) (bs ++ (cs ++ ds)) := by
  intro fuel rest hf
  obtain ⟨fuel,rfl⟩ := Nat.exists_eq_add_one.mpr (Nat.zero_lt_of_lt hf)
  have hpos := hk.length_pos
  simp only [List.length_append] at hf
  rw [List.length_cons,List.append_assoc,List.append_assoc,entries?,hk fuel _ (by omega)]
  simp only [Option.bind_eq_bind,Option.bind_some]
  rw [h fuel _ (by omega)]
  simp only [Option.bind_some]
  rw [hs fuel rest (by omega)]
  rfl

theorem reads_map (hn : es.length < 0x10000000000000000) (h : ReadsEntries depth es bs) :
    Reads (depth+1) (.map es) (head 5 es.length ++ bs) := by
  refine reads_of_head fun fuel rest hf => ?_
  obtain ⟨info,hhead⟩ := exists_head?_head 5 (by omega) hn (bs ++ rest)
  rw [item?,hhead]
  show (entries? fuel depth es.length (bs ++ rest)).map _ = _
  rw [h fuel rest hf]
  rfl

end Cbor
end AddressedForms
