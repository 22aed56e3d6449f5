import AddressedForms.Proofs.Json.Strings
import Mathlib.Data.List.DropRight
set_option autoImplicit false

/-!
The text of JSON values. Blanks between its tokens make no difference, so a value comes back from
its compact text and from its indented text alike.
-/

namespace AddressedForms
namespace Json
variable {x : Json} {xs : List Json} {ms : List (Option String × Json)} {k : String}
  {w bs cs : List UInt8} {fuel : Nat}

def IsBlank (w : List UInt8) : Prop := ∀ b ∈ w, Byte.isSpace b

theorem skipSpace_append (hw : IsBlank w) (bs : List UInt8) :
    skipSpace (w ++ bs) = skipSpace bs := List.dropWhile_append_of_pos hw

theorem skipSpace_skipSpace (bs : List UInt8) : skipSpace (skipSpace bs) = skipSpace bs :=
  List.dropWhile_idempotent _ bs

theorem value?_skipSpace (fuel : Nat) (bs : List UInt8) :
    value? fuel (skipSpace bs) = value? fuel bs := by
  cases fuel with
  | zero => rfl
  | succ fuel => simp only [value?,skipSpace_skipSpace]

theorem items?_skipSpace (fuel : Nat) (bs : List UInt8) :
    items? fuel (skipSpace bs) = items? fuel bs := by
  cases fuel with
  | zero => rfl
  | succ fuel => simp only [items?,value?_skipSpace]

theorem members?_skipSpace (fuel : Nat) (bs : List UInt8) :
    members? fuel (skipSpace bs) = members? fuel bs := by
  cases fuel with
  | zero => rfl
  | succ fuel => simp only [members?,skipSpace_skipSpace]

theorem value?_quote (h : skipSpace bs = Byte.quote :: cs) :
    value? (fuel+1) bs = (string? cs).bind fun p => some (.string p.1,p.2) := by
  rw [value?,h]
  rfl

/-- No value begins with the end of what contains it. -/
theorem value?_close {b : UInt8} (hb : b = Byte.closeBracket ∨ b = Byte.closeBrace)
    (h : skipSpace bs = b :: cs) : value? fuel bs = none := by
  cases fuel with
  | zero => rfl
  | succ fuel =>
    rw [value?,h]
    rcases hb with rfl | rfl <;> rfl

theorem items?_comma {rest : List UInt8} (hv : value? fuel bs = some (x,rest))
    (h : skipSpace rest = Byte.comma :: cs) :
    items? (fuel+1) bs = (items? fuel cs).bind fun p => some (x :: p.1,p.2) := by
  rw [items?,hv]
  simp only [Option.bind_eq_bind,Option.bind_some]
  rw [h]
  rfl

theorem items?_close {rest : List UInt8} (hv : value? fuel bs = some (x,rest))
    (h : skipSpace rest = Byte.closeBracket :: cs) : items? (fuel+1) bs = some ([x],cs) := by
  rw [items?,hv]
  simp only [Option.bind_eq_bind,Option.bind_some]
  rw [h]
  rfl

theorem value?_openBracket {rest : List UInt8} (h : skipSpace bs = Byte.openBracket :: cs)
    (hi : items? fuel cs = some (xs,rest)) : value? (fuel+1) bs = some (.array xs,rest) := by
  have hne : ∀ ds, skipSpace cs ≠ Byte.closeBracket :: ds := by
    intro ds he
    cases fuel with
    | zero => cases hi
    | succ fuel =>
      rw [items?,value?_close (.inl rfl) he] at hi
      cases hi
  rw [← items?_skipSpace] at hi
  rw [value?,h]
  split <;> rename_i he
  · cases he
  · cases he
    split <;> rename_i he
    · exact absurd he (hne _)
    · rw [hi]
      rfl
  · cases he
  · rename_i hopen
    exact absurd rfl (hopen cs)

theorem members?_eq (h : skipSpace bs = utf8 (quote k) ++ Byte.colon :: cs) :
    members? (fuel+1) bs = (value? fuel cs).bind fun p => match skipSpace p.2 with
      | Byte.comma :: ds => (members? fuel ds).bind fun q => some ((some k,p.1) :: q.1,q.2)
      | Byte.closeBrace :: rest => some ([(some k,p.1)],rest)
      | _ => none := by
  have hs : string? (quotedTail k ++ Byte.colon :: cs) = some (some k,Byte.colon :: cs) :=
    string?_quotedTail k _
  rw [members?,h,utf8_quote]
  show (string? (quotedTail k ++ Byte.colon :: cs)).bind _ = _
  rw [hs]
  rfl

theorem members?_comma {rest : List UInt8}
    (hk : skipSpace bs = utf8 (quote k) ++ Byte.colon :: cs)
    (hv : value? fuel cs = some (x,rest)) {ds : List UInt8}
    (h : skipSpace rest = Byte.comma :: ds) :
    members? (fuel+1) bs = (members? fuel ds).bind fun q => some ((some k,x) :: q.1,q.2) := by
  rw [members?_eq hk,hv,Option.bind_some,h]
  rfl

theorem members?_close {rest : List UInt8}
    (hk : skipSpace bs = utf8 (quote k) ++ Byte.colon :: cs)
    (hv : value? fuel cs = some (x,rest)) {ds : List UInt8}
    (h : skipSpace rest = Byte.closeBrace :: ds) :
    members? (fuel+1) bs = some ([(some k,x)],ds) := by
  rw [members?_eq hk,hv,Option.bind_some,h]
  rfl

theorem value?_openBrace {rest : List UInt8} (h : skipSpace bs = Byte.openBrace :: cs)
    (hm : members? fuel cs = some (ms,rest)) : value? (fuel+1) bs = some (.object ms,rest) := by
  have hne : ∀ ds, skipSpace cs ≠ Byte.closeBrace :: ds := by
    intro ds he
    cases fuel with
    | zero => cases hm
    | succ fuel =>
      rw [members?,he] at hm
      cases hm
  rw [← members?_skipSpace] at hm
  rw [value?,h]
  split <;> rename_i he
  · cases he
  · cases he
  · cases he
    split <;> rename_i he
    · exact absurd he (hne _)
    · rw [hm]
      rfl
  · exact absurd rfl (he cs)

/-- The text of a value, which is read in front of anything. The fuel is twice the length since
what is between brackets takes a step of its own. -/
def Reads (x : Json) (bs : List UInt8) : Prop :=
  ∀ fuel rest, 2*bs.length ≤ fuel → value? fuel (bs ++ rest) = some (x,rest)

def ReadsItems (xs : List Json) (bs : List UInt8) : Prop :=
  ∀ fuel rest, 2*bs.length+1 ≤ fuel →
    items? fuel (bs ++ Byte.closeBracket :: rest) = some (xs,rest)

def ReadsMembers (ms : List (Option String × Json)) (bs : List UInt8) : Prop :=
  ∀ fuel rest, 2*bs.length+1 ≤ fuel →
    members? fuel (bs ++ Byte.closeBrace :: rest) = some (ms,rest)

theorem Reads.parse? (h : Reads x bs) : Json.parse? bs = some x := by
  have hread : value? (2*bs.length+2) bs = some (x,[]) := by
    simpa using h (2*bs.length+2) [] (by omega)
  rw [Json.parse?,hread]
  rfl

section Blanks
variable (hw : IsBlank w)
include hw

theorem Reads.blank_append (h : Reads x bs) : Reads x (w ++ bs) := by
  intro fuel rest hf
  rw [List.length_append] at hf
  rw [List.append_assoc,← value?_skipSpace,skipSpace_append hw,value?_skipSpace]
  exact h fuel rest (by omega)

theorem ReadsItems.blank_append (h : ReadsItems xs bs) : ReadsItems xs (w ++ bs) := by
  intro fuel rest hf
  rw [List.length_append] at hf
  rw [List.append_assoc,← items?_skipSpace,skipSpace_append hw,items?_skipSpace]
  exact h fuel rest (by omega)

theorem ReadsMembers.blank_append (h : ReadsMembers ms bs) : ReadsMembers ms (w ++ bs) := by
  intro fuel rest hf
  rw [List.length_append] at hf
  rw [List.append_assoc,← members?_skipSpace,skipSpace_append hw,members?_skipSpace]
  exact h fuel rest (by omega)

end Blanks

theorem reads_string (s : String) : Reads (.string (some s)) (utf8 (quote s)) := by
  intro fuel rest hf
  rw [utf8_quote] at hf ⊢
  obtain ⟨fuel,rfl⟩ := Nat.exists_eq_add_one.mpr (Nat.zero_lt_of_lt hf)
  have hskip : skipSpace (Byte.quote :: quotedTail s ++ rest) =
    Byte.quote :: (quotedTail s ++ rest) := rfl
  rw [value?_quote hskip,string?_quotedTail]
  rfl

theorem readsItems_singleton (h : Reads x bs) (hw : IsBlank w) : ReadsItems [x] (bs ++ w) := by
  intro fuel rest hf
  obtain ⟨fuel,rfl⟩ := Nat.exists_eq_add_one.mpr (Nat.zero_lt_of_lt hf)
  rw [List.length_append] at hf
  rw [List.append_assoc]
  exact items?_close (h fuel _ (by omega)) (skipSpace_append hw _)

theorem readsItems_cons (h : Reads x bs) (hs : ReadsItems xs cs) :
    ReadsItems (x :: xs) (bs ++ Byte.comma :: cs) := by
  intro fuel rest hf
  obtain ⟨fuel,rfl⟩ := Nat.exists_eq_add_one.mpr (Nat.zero_lt_of_lt hf)
  rw [List.length_append,List.length_cons] at hf
  rw [List.append_assoc,List.cons_append,items?_comma (h fuel _ (by omega)) rfl,
    hs fuel rest (by omega)]
  rfl

theorem reads_emptyArray : Reads (.array []) [Byte.openBracket,Byte.closeBracket] := by
  intro fuel rest hf
  obtain ⟨fuel,rfl⟩ := Nat.exists_eq_add_one.mpr (Nat.zero_lt_of_lt hf)
  rw [value?]
  rfl

theorem reads_array (h : ReadsItems xs bs) :
    Reads (.array xs) (Byte.openBracket :: (bs ++ [Byte.closeBracket])) := by
  intro fuel rest hf
  obtain ⟨fuel,rfl⟩ := Nat.exists_eq_add_one.mpr (Nat.zero_lt_of_lt hf)
  rw [List.length_cons,List.length_append] at hf
  rw [List.cons_append,List.append_assoc]
  exact value?_openBracket rfl (h fuel rest (by omega))

def key (k : String) : List UInt8 := utf8 (quote k) ++ [Byte.colon]

theorem skipSpace_key (k : String) (bs : List UInt8) :
    skipSpace (key k ++ bs) = utf8 (quote k) ++ Byte.colon :: bs := by
  rw [key,utf8_quote,List.append_assoc]
  rfl

theorem readsMembers_singleton (k : String) (h : Reads x bs) (hw : IsBlank w) :
    ReadsMembers [(some k,x)] (key k ++ (bs ++ w)) := by
  intro fuel rest hf
  obtain ⟨fuel,rfl⟩ := Nat.exists_eq_add_one.mpr (Nat.zero_lt_of_lt hf)
  simp only [List.length_append] at hf
  rw [List.append_assoc,List.append_assoc]
  exact members?_close (skipSpace_key k _) (h fuel _ (by omega)) (skipSpace_append hw _)

theorem readsMembers_cons (k : String) (h : Reads x bs) (hs : ReadsMembers ms cs) :
    ReadsMembers ((some k,x) :: ms) (key k ++ (bs ++ Byte.comma :: cs)) := by
  intro fuel rest hf
  obtain ⟨fuel,rfl⟩ := Nat.exists_eq_add_one.mpr (Nat.zero_lt_of_lt hf)
  simp only [List.length_append,List.length_cons] at hf
  rw [List.append_assoc,List.append_assoc,List.cons_append,
    members?_comma (skipSpace_key k _) (h fuel _ (by omega)) rfl,hs fuel rest (by omega)]
  rfl

theorem reads_emptyObject : Reads (.object []) [Byte.openBrace,Byte.closeBrace] := by
  intro fuel rest hf
  obtain ⟨fuel,rfl⟩ := Nat.exists_eq_add_one.mpr (Nat.zero_lt_of_lt hf)
  rw [value?]
  rfl

theorem reads_object (h : ReadsMembers ms bs) :
    Reads (.object ms) (Byte.openBrace :: (bs ++ [Byte.closeBrace])) := by
  intro fuel rest hf
  obtain ⟨fuel,rfl⟩ := Nat.exists_eq_add_one.mpr (Nat.zero_lt_of_lt hf)
  rw [List.length_cons,List.length_append] at hf
  rw [List.cons_append,List.append_assoc]
  exact value?_openBrace rfl (h fuel rest (by omega))

/-- Items with commas between them, each after a blank, and a blank at the end. -/
theorem readsItems {f : Json → List UInt8} {v : List UInt8} (hw : IsBlank w) (hv : IsBlank v)
    (h : ∀ y ∈ x :: xs, Reads y (f y)) :
    ReadsItems (x :: xs) (w ++ f x ++ (xs.flatMap fun y => Byte.comma :: (w ++ f y)) ++ v) := by
  induction xs generalizing x with
  | nil =>
    rw [List.flatMap_nil,List.append_nil,List.append_assoc]
    exact (readsItems_singleton (h x List.mem_cons_self) hv).blank_append hw
  | cons y ys ih =>
    obtain ⟨hx,hys⟩ := List.forall_mem_cons.mp h
    have hcons := (readsItems_cons hx (ih hys)).blank_append hw
    simpa using hcons

/-- Members with commas between them, each after a blank and with a gap after its colon, and a blank
at the end. -/
theorem readsMembers {f : Json → List UInt8} {v g : List UInt8} (hw : IsBlank w) (hg : IsBlank g)
    (hv : IsBlank v) (h : ∀ m ∈ (some k,x) :: ms, m.1.isSome ∧ Reads m.2 (f m.2)) :
    ReadsMembers ((some k,x) :: ms) (w ++ (key k ++ (g ++ f x)) ++
      (ms.flatMap fun m => Byte.comma :: (w ++ (key (m.1.getD "") ++ (g ++ f m.2)))) ++ v) := by
  induction ms generalizing k x with
  | nil =>
    have hx := (h _ List.mem_cons_self).2.blank_append hg
    simpa using (readsMembers_singleton k hx hv).blank_append hw
  | cons m ms ih =>
    obtain ⟨⟨-,hx⟩,hms⟩ := List.forall_mem_cons.mp h
    obtain ⟨_ | j,y⟩ := m
    · cases (hms _ List.mem_cons_self).1
    · have hcons := (readsMembers_cons k (hx.blank_append hg) (ih hms)).blank_append hw
      simpa using hcons

inductive Textual : Json → Prop
  | string (s : String) : Textual (.string (some s))
  | array {xs : List Json} (h : ∀ x ∈ xs, Textual x) : Textual (.array xs)
  | object {ms : List (Option String × Json)} (hk : ∀ m ∈ ms, m.1.isSome)
    (h : ∀ m ∈ ms, Textual m.2) : Textual (.object ms)

@[simp] theorem utf8_openBracket : utf8 "[" = [Byte.openBracket] := rfl
@[simp] theorem utf8_closeBracket : utf8 "]" = [Byte.closeBracket] := rfl
@[simp] theorem utf8_openBrace : utf8 "\x7b" = [Byte.openBrace] := rfl
@[simp] theorem utf8_closeBrace : utf8 "\x7d" = [Byte.closeBrace] := rfl
@[simp] theorem utf8_comma : utf8 "," = [Byte.comma] := rfl
@[simp] theorem utf8_colon : utf8 ":" = [Byte.colon] := rfl
@[simp] theorem utf8_colonSpace : utf8 ": " = [Byte.colon,Byte.space] := rfl

theorem utf8_compactItems (xs : List Json) :
    utf8 (compactItems xs) = xs.flatMap fun y => Byte.comma :: utf8 y.compact := by
  induction xs with
  | nil => rfl
  | cons x xs ih => simp [compactItems,utf8_append,ih]

theorem utf8_compactMembers (ms : List (Option String × Json)) :
    utf8 (compactMembers ms) = ms.flatMap fun m =>
      Byte.comma :: (key (m.1.getD "") ++ utf8 m.2.compact) := by
  induction ms with
  | nil => rfl
  | cons m ms ih => simp [compactMembers,utf8_append,key,ih]

theorem utf8_indentedItems (depth : Nat) (xs : List Json) :
    utf8 (indentedItems depth xs) = xs.flatMap fun y =>
      Byte.comma :: (utf8 (newLine depth) ++ utf8 (y.indented depth)) := by
  induction xs with
  | nil => rfl
  | cons x xs ih => simp [indentedItems,utf8_append,ih]

theorem utf8_indentedMembers (depth : Nat) (ms : List (Option String × Json)) :
    utf8 (indentedMembers depth ms) = ms.flatMap fun m => Byte.comma :: (utf8 (newLine depth) ++
      (key (m.1.getD "") ++ ([Byte.space] ++ utf8 (m.2.indented depth)))) := by
  induction ms with
  | nil => rfl
  | cons m ms ih => simp [indentedMembers,utf8_append,key,ih]

theorem isBlank_newLine (depth : Nat) : IsBlank (utf8 (newLine depth)) := by
  intro b hb
  rw [newLine,utf8_ofList,List.mem_flatMap] at hb
  obtain ⟨c,hc,hb⟩ := hb
  rcases List.mem_cons.mp hc with rfl | hc
  · rw [List.mem_singleton.mp hb]
    rfl
  · rw [List.eq_of_mem_replicate hc] at hb
    rw [List.mem_singleton.mp hb]
    rfl

theorem Textual.reads_compact (h : x.Textual) : Reads x (utf8 x.compact) := by
  have hnil : IsBlank [] := List.forall_mem_nil _
  induction h with
  | string s => exact reads_string s
  | @array xs _ ih =>
    cases xs with
    | nil => exact reads_emptyArray
    | cons x xs =>
      have h := reads_array (readsItems hnil hnil ih)
      simpa [compact,utf8_append,utf8_compactItems] using h
  | @object ms hk _ ih =>
    obtain _ | ⟨⟨_ | k,x⟩,ms⟩ := ms
    · exact reads_emptyObject
    · cases hk _ List.mem_cons_self
    · have h := reads_object (readsMembers (f := fun x => utf8 x.compact) hnil hnil hnil
        fun m hm => ⟨hk m hm,ih m hm⟩)
      simpa [compact,utf8_append,utf8_compactMembers,key] using h

theorem Textual.reads_indented (h : x.Textual) (depth : Nat) :
    Reads x (utf8 (x.indented depth)) := by
  have hspace : IsBlank [Byte.space] := by simp [IsBlank,Byte.isSpace]
  induction h generalizing depth with
  | string s => exact reads_string s
  | @array xs _ ih =>
    cases xs with
    | nil => exact reads_emptyArray
    | cons x xs =>
      have h := reads_array (readsItems (isBlank_newLine (depth+1)) (isBlank_newLine depth)
        fun x hx => ih x hx (depth+1))
      simpa [indented,utf8_append,utf8_indentedItems] using h
  | @object ms hk _ ih =>
    obtain _ | ⟨⟨_ | k,x⟩,ms⟩ := ms
    · exact reads_emptyObject
    · cases hk _ List.mem_cons_self
    · have h := reads_object (readsMembers (f := fun x => utf8 (x.indented (depth+1)))
        (isBlank_newLine (depth+1)) hspace (isBlank_newLine depth)
        fun m hm => ⟨hk m hm,ih m hm (depth+1)⟩)
      simpa [indented,utf8_append,utf8_indentedMembers,key] using h

end Json
end AddressedForms
