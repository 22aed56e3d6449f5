import AddressedForms.Form.Basic
set_option autoImplicit false

/-!
Errors of reading and writing documents, and the capped log in which those of a read are kept.
-/

namespace AddressedForms

/-- The name spaces of a document. -/
inductive Symbol where
  | form
  | denotator
  | module
  | element
  | morphism
  deriving DecidableEq, Repr

def Symbol.text : Symbol → String
  | .form => "form"
  | .denotator => "denotator"
  | .module => "module"
  | .element => "module element"
  | .morphism => "module morphism"

/-- The families of values whose variants are told apart by a type attribute. -/
inductive Family where
  | form
  | denotator
  | module
  | element
  | morphism
  | map
  deriving DecidableEq, Repr

def Family.text : Family → String
  | .form => "form"
  | .denotator => "denotator"
  | .module => "module"
  | .element => "module element"
  | .morphism => "module morphism"
  | .map => "map"

inductive ReadError where
  | duplicateName (symbol : Symbol) (name : String)
  | unresolvedReference (symbol : Symbol) (name : String)
  | unknownTypeTag (family : Family) (tag : String)
  | malformed (tag message : String)
  | notWellFormed
  | cyclic (symbol : Symbol) (name : String)
  deriving DecidableEq, Repr

namespace ReadError

def message : ReadError → String
  | .duplicateName symbol name => "duplicate " ++ symbol.text ++ " '" ++ name ++ "'"
  | .unresolvedReference symbol name =>
    "unresolved " ++ symbol.text ++ " reference '" ++ name ++ "'"
  | .unknownTypeTag family tag => "unknown " ++ family.text ++ " type '" ++ tag ++ "'"
  | .malformed tag message => "malformed <" ++ tag ++ ">: " ++ message
  | .notWellFormed => "syntax error"
  | .cyclic symbol name => symbol.text ++ " '" ++ name ++ "' is defined in terms of itself"

end ReadError

inductive WriteError where
  | nameClash (symbol : Symbol) (name : String)
  | unknownForm (id : FormId)
  deriving DecidableEq, Repr

namespace WriteError

def message : WriteError → String
  | .nameClash symbol name => "two different " ++ symbol.text ++ "s are named '" ++ name ++ "'"
  | .unknownForm id => "unknown form " ++ id.text

end WriteError

structure ErrorLog where
  limit : Option Nat
  kept : List ReadError
  suppressed : Nat

namespace ErrorLog

def empty (limit : Option Nat) : ErrorLog := ⟨limit,[],0⟩

def isFull (log : ErrorLog) : Bool :=
  match log.limit with
  | some n => n ≤ log.kept.length
  | none => false

def report (log : ErrorLog) (e : ReadError) : ErrorLog :=
  if log.isFull then {log with suppressed := log.suppressed+1}
  else {log with kept := log.kept ++ [e]}

def reportAll (log : ErrorLog) (es : List ReadError) : ErrorLog := es.foldl report log

def isClean (log : ErrorLog) : Bool := log.kept.isEmpty && log.suppressed = 0

theorem reportAll_append (log : ErrorLog) (es fs : List ReadError) :
    log.reportAll (es ++ fs) = (log.reportAll es).reportAll fs := List.foldl_append

theorem reportAll_of_unlimited (kept : List ReadError) (suppressed : Nat) (es : List ReadError) :
    reportAll ⟨none,kept,suppressed⟩ es = ⟨none,kept ++ es,suppressed⟩ := by
  induction es generalizing kept with
  | nil => simp [reportAll]
  | cons e es ih =>
    show reportAll ⟨none,kept ++ [e],suppressed⟩ es = _
    simp [ih]

theorem reportAll_of_full {n : Nat} {kept : List ReadError} (h : n ≤ kept.length) (suppressed : Nat)
    (es : List ReadError) :
    reportAll ⟨some n,kept,suppressed⟩ es = ⟨some n,kept,suppressed+es.length⟩ := by
  induction es generalizing suppressed with
  | nil => simp [reportAll]
  | cons e es ih =>
    have hr : report ⟨some n,kept,suppressed⟩ e = ⟨some n,kept,suppressed+1⟩ := by
      simp [report,isFull,h]
    show reportAll (report ⟨some n,kept,suppressed⟩ e) es = _
    rw [hr,ih]
    simp only [List.length_cons]
    congr 1
    omega

theorem reportAll_of_limited {n : Nat} {kept : List ReadError} (h : kept.length ≤ n)
    (es : List ReadError) :
    reportAll ⟨some n,kept,0⟩ es =
      ⟨some n,(kept ++ es).take n,kept.length+es.length-n⟩ := by
  induction es generalizing kept with
  | nil => simp [reportAll,List.take_of_length_le h,Nat.sub_eq_zero_of_le h]
  | cons e es ih =>
    by_cases hn : n ≤ kept.length
    · have he : kept.length = n := Nat.le_antisymm h hn
      rw [reportAll_of_full hn]
      subst he
      simp
    · have hr : report ⟨some n,kept,0⟩ e = ⟨some n,kept ++ [e],0⟩ := by simp [report,isFull,hn]
      show reportAll (report ⟨some n,kept,0⟩ e) es = _
      rw [hr,ih (by simp; omega)]
      simp only [List.append_assoc,List.cons_append,List.nil_append,List.length_append,
        List.length_cons,List.length_nil]
      congr 1
      omega

end ErrorLog

/-- The result of reading a part of a document: a value, if there is one, and the errors that were
met. -/
structure Attempt (α : Type) where
  value? : Option α
  reports : List ReadError

namespace Attempt
variable {α β : Type}

def success (x : α) : Attempt α := ⟨some x,[]⟩

/-- A failure that has been reported elsewhere. -/
def silent : Attempt α := ⟨none,[]⟩

def failure (e : ReadError) : Attempt α := ⟨none,[e]⟩

def malformed (tag message : String) : Attempt α := failure (.malformed tag message)

def ofOption : Option α → Attempt α
  | some x => success x
  | none => silent

protected def bind (a : Attempt α) (f : α → Attempt β) : Attempt β :=
  match a.value? with
  | none => ⟨none,a.reports⟩
  | some x => ⟨(f x).value?,a.reports ++ (f x).reports⟩

instance : Monad Attempt where
  pure := success
  bind := Attempt.bind

theorem success_bind (x : α) (f : α → Attempt β) : success x >>= f = f x := by
  simp [Bind.bind,Attempt.bind,success]

theorem value?_bind (a : Attempt α) (f : α → Attempt β) :
    (a >>= f).value? = a.value?.bind fun x => (f x).value? := by
  obtain ⟨v,es⟩ := a
  cases v <;> rfl

/-- Both parts are tried, whether the first one fails or not. -/
def cons (a : Attempt α) (as : Attempt (List α)) : Attempt (List α) :=
  ⟨match a.value?, as.value? with
    | some x, some xs => some (x :: xs)
    | _, _ => none,
    a.reports ++ as.reports⟩

def all : List (Attempt α) → Attempt (List α)
  | [] => success []
  | a :: as => cons a (all as)

end Attempt
end AddressedForms
