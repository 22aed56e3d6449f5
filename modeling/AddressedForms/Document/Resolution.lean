import AddressedForms.DepthFirst
import AddressedForms.Document.Error
import AddressedForms.Table
set_option autoImplicit false

/-!
Resolution of definitions by name. Every definition is built after those it depends on. Definitions
at which a circle closes are given up before anything is built, so that building never meets a
definition that is still pending.
-/

namespace AddressedForms

inductive Resolution (α : Type) where
  | pending
  | failed
  | value (x : α)

namespace Resolution
variable {α : Type}

def value? : Resolution α → Option α
  | .value x => some x
  | _ => none

def ofOption : Option α → Resolution α
  | some x => .value x
  | none => .failed

def values (t : Table (Resolution α)) : List (String × α) :=
  t.entries.filterMap fun e => e.2.value?.map fun x => (e.1,x)

/-- What a name of the document stands for; other names have the meanings given. -/
def lookup (s : Symbol) (outside : String → Option α) (t : Table (Resolution α)) (name : String) :
    Attempt α :=
  match t.get? name with
  | none => .ofOption (outside name)
  | some (.value x) => .success x
  | some .failed => .silent
  | some .pending => .failure (.cyclic s name)

structure Progress (α : Type) where
  table : Table (Resolution α)
  reports : List ReadError

def settle (build : Table (Resolution α) → String → Attempt α) (p : Progress α) (name : String) :
    Progress α :=
  match p.table.get? name with
  | some .pending =>
    let a := build p.table name
    ⟨p.table.insert name (.ofOption a.value?),p.reports ++ a.reports⟩
  | _ => p

/-- The order of definitions, each after those it depends on, and where its circles close. -/
def order (names : List String) (next : String → List String) : Walk String :=
  Walk.visitAll (fun n => (next n).filter (· ∈ names)) (names.length+2) names .empty

def settleAll (s : Symbol) (names : List String) (next : String → List String)
    (build : Table (Resolution α) → String → Attempt α) : Progress α :=
  let walk := order names next
  let circular := names.filter (· ∈ walk.closing)
  let start : Table (Resolution α) :=
    .ofList (names.map fun n => (n,if n ∈ circular then .failed else .pending))
  walk.finished.foldl (settle build) ⟨start,circular.map (.cyclic s)⟩

end Resolution
end AddressedForms
