import AddressedForms.Proofs.Document.ErrorLimit
set_option autoImplicit false

/-!
A reader over any number of documents. How the reader is left tells of the last document alone,
whichever way that came and whatever came before. The limit on errors is kept for all that is well
formed; of what is not, one error is kept even where none should be.
-/

namespace AddressedForms

namespace Reader
variable {a b : Reader}

def node? (a : Reader) : Input → Option Node
  | .stream bs => bs.bind a.nodeOf?
  | .text s => Node.ofJsonBytes? s.toByteArray.data.toList
  | .bytes bs => a.nodeOf? bs
  | .node root => some root

/-- All ways to read come together where a node is read, or where there is none. -/
theorem read_eq (a : Reader) (i : Input) (r : Repository) :
    a.read i r = a.readNode? (a.node? i) r := by
  cases i <;> rfl

def readAll (a : Reader) (calls : List (Input × Repository)) : Reader :=
  calls.foldl (fun a c => (a.read c.1 c.2).2.1) a

structure SameButStatus (a b : Reader) : Prop where
  vocabulary : b.vocabulary = a.vocabulary
  settings : b.settings = a.settings

theorem SameButStatus.read (h : SameButStatus a b) (i : Input) (r : Repository) :
    SameButStatus a (b.read i r).2.1 := by
  rw [read_eq]
  cases b.node? i <;> exact ⟨h.vocabulary,h.settings⟩

theorem sameButStatus_readAll (a : Reader) (calls : List (Input × Repository)) :
    SameButStatus a (a.readAll calls) := by
  refine List.foldlRecOn calls _ ⟨rfl,rfl⟩ fun b h c _ => ?_
  exact h.read c.1 c.2

theorem SameButStatus.read_eq (h : SameButStatus a b) (i : Input) (r : Repository) :
    b.read i r = a.read i r := by
  have hbytes : b.nodeOf? = a.nodeOf? := by
    funext bs
    simp [nodeOf?,h.settings]
  have hnode : b.node? i = a.node? i := by cases i <;> simp [node?,hbytes]
  rw [Reader.read_eq,Reader.read_eq,hnode]
  cases a.node? i with
  | none => simp [readNode?,h.vocabulary,h.settings]
  | some root => simp [readNode?,readNode,h.vocabulary,h.settings]

theorem status_read (a : Reader) (i : Input) (r : Repository) :
    (a.read i r).2.1.status = .ofOutcome (a.read i r).1 := by
  rw [read_eq]
  cases a.node? i <;> rfl

theorem kept_add_suppressed (a : Reader) (i : Input) (r : Repository) :
    (a.read i r).1.errors.kept.length+(a.read i r).1.errors.suppressed =
      ((a.withLimit none).read i r).1.errors.kept.length := by
  have hnode : (a.withLimit none).node? i = a.node? i := by cases i <;> rfl
  rw [read_eq,read_eq,hnode]
  cases a.node? i with
  | none => rfl
  | some root =>
    have hcaps (n : Nat) := (a.caps_readNode root r n).1
    show (a.readNode root r).1.errors.kept.length+(a.readNode root r).1.errors.suppressed = _
    cases hlimit : a.settings.maxErrors with
    | none =>
      have ha : a.withLimit none = a := by rw [← hlimit]; rfl
      have hnone := (hcaps 0).none_suppressed
      rw [ha] at hnone ⊢
      simp [readNode?,hnone]
    | some n =>
      have ha : a.withLimit (some n) = a := by rw [← hlimit]; rfl
      obtain ⟨-,-,hkept,-,hsuppressed⟩ := hcaps n
      rw [ha] at hkept hsuppressed
      rw [hsuppressed,hkept,List.length_take]
      simp only [readNode?]
      omega

theorem length_kept_le_iff (a : Reader) (i : Input) (r : Repository) {n : Nat}
    (hn : a.settings.maxErrors = some n) :
    (a.read i r).1.errors.kept.length ≤ n ↔ ¬ (n = 0 ∧ a.node? i = none) := by
  rw [read_eq]
  cases hnode : a.node? i with
  | none => simp [readNode?,Outcome.notWellFormed]; omega
  | some root =>
    have ha : a.withLimit (some n) = a := by rw [← hn]; rfl
    have hcaps := (a.caps_readNode root r n).1
    rw [ha] at hcaps
    simp [readNode?,hcaps.kept]

end Reader

theorem Outcome.document_eq_ok_iff {o : Outcome} :
    (∃ d, o.document = .ok d) ↔ o.isSuccess := by
  unfold document
  cases o.isSuccess <;> simp

/-- Whatever a reader has read before, it reads the next input as if that were the first, and is left
done or failed as that went. The limit on errors is not kept where it is zero and the input is not
well formed. -/
theorem Reader.read_after (a : Reader) (earlier : List (Input × Repository)) (i : Input)
    (r : Repository) :
    let b := a.readAll earlier
    let o := (b.read i r).1
    let c := (b.read i r).2.1
    b.read i r = a.read i r ∧ c.settings = a.settings ∧ c.vocabulary = a.vocabulary ∧
    (c.status = .done ↔ o.isSuccess) ∧ (c.status = .failed ↔ ¬ o.isSuccess) ∧
    ((∃ d, o.document = .ok d) ↔ o.isSuccess) ∧
    o.errors.kept.length+o.errors.suppressed =
      ((a.withLimit none).read i r).1.errors.kept.length ∧
    ∀ n, a.settings.maxErrors = some n →
      (o.errors.kept.length ≤ n ↔ ¬ (n = 0 ∧ a.node? i = none)) := by
  intro b o c
  have hb : SameButStatus a b := a.sameButStatus_readAll earlier
  have hread : b.read i r = a.read i r := hb.read_eq i r
  have hc : SameButStatus a c := hb.read i r
  have hstatus : c.status = .ofOutcome o := b.status_read i r
  have ho : o = (a.read i r).1 := congrArg Prod.fst hread
  refine ⟨hread,hc.settings,hc.vocabulary,?_,?_,Outcome.document_eq_ok_iff,?_,fun n hn => ?_⟩
  · rw [hstatus]
    cases hs : o.isSuccess <;> simp [ReaderStatus.ofOutcome,hs]
  · rw [hstatus]
    cases hs : o.isSuccess <;> simp [ReaderStatus.ofOutcome,hs]
  · rw [ho]
    exact a.kept_add_suppressed i r
  · rw [ho]
    exact a.length_kept_le_iff i r hn

def Reader.forgetful : Reader := .new .builtins {Settings.default with maxErrors := some 0}

/-- After an empty document that reader keeps an error of a text without a node. -/
theorem Reader.read_brace :
    let b := forgetful.readAll [(.node (.leaf "Document"),.empty)]
    let o := (b.read (.text "\x7b") .empty).1
    b.status = .done ∧ forgetful.settings.maxErrors = some 0 ∧
    (b.read (.text "\x7b") .empty).2.1.status = .failed ∧ o.errors.kept = [.notWellFormed] ∧
    ¬ o.errors.kept.length ≤ 0 := by
  have hnode : forgetful.node? (.text "\x7b") = none := by cbv
  have h := forgetful.read_after [(.node (.leaf "Document"),.empty)] (.text "\x7b") .empty
  obtain ⟨hread,-,-,-,hfailed,-,-,hlimit⟩ := h
  have hkept : ((forgetful.readAll [(.node (.leaf "Document"),.empty)]).read
      (.text "\x7b") .empty).1 = .notWellFormed := by
    rw [hread,read_eq,hnode]
    rfl
  refine ⟨by cbv,rfl,hfailed.mpr ?_,congrArg (·.errors.kept) hkept,fun hle => ?_⟩
  · rw [hkept]
    decide
  · exact (hlimit 0 rfl).mp hle ⟨rfl,hnode⟩

end AddressedForms
