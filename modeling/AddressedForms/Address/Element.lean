import AddressedForms.Address.Module
import AddressedForms.Number.Decimal
set_option autoImplicit false

/-!
Elements of modules and their arithmetic. Every operation is exact or refused, reals apart: a
residue is reduced from the exact integer, and an integer or fraction out of range is an overflow.
-/

namespace AddressedForms

inductive Element where
  | null
  | z (value : Int64)
  | zn (value : Int64) (modulus : UInt64)
  | q (value : Fraction)
  | r (value : Binary64)
  | product (factors : List Element)

namespace Element

instance : Inhabited Element := ⟨.null⟩

def tag : Element → String
  | .null => "NullElement"
  | .z _ => "ZElement"
  | .zn _ _ => "ZnElement"
  | .q _ => "QElement"
  | .r _ => "RElement"
  | .product _ => "ProductElement"

mutual
def module : Element → Module
  | .null => .null
  | .z _ => .z
  | .zn _ n => .zn n
  | .q _ => .q
  | .r _ => .r
  | .product xs => .product (modules xs)
def modules : List Element → List Module
  | [] => []
  | x :: xs => x.module :: modules xs
end

def rank : Element → Nat
  | .null => 0
  | .z _ => 1
  | .zn _ _ => 2
  | .q _ => 3
  | .r _ => 4
  | .product _ => 5

mutual
/-- Kinds come first, then moduli, then values; tuples are compared from the left. -/
protected def compare : Element → Element → Ordering
  | .z a, .z b => compare a b
  | .zn a m, .zn b n => (compare m n).then (compare a b)
  | .q a, .q b => compare a b
  | .r a, .r b => compare a b
  | .product xs, .product ys => compareAll xs ys
  | x, y => compare x.rank y.rank
def compareAll : List Element → List Element → Ordering
  | [], [] => .eq
  | [], _ :: _ => .lt
  | _ :: _, [] => .gt
  | x :: xs, y :: ys => (x.compare y).then (compareAll xs ys)
end

instance : Ord Element := ⟨Element.compare⟩

theorem compare_eq_iff (x y : Element) : x.compare y = .eq ↔ x = y := by
  induction x using Element.rec (motive_2 := fun xs => ∀ ys, compareAll xs ys = .eq ↔ xs = ys)
    generalizing y with
  | z a => cases y <;> simp [Element.compare,rank]
  | zn a m => cases y <;> simp [Element.compare,rank,Ordering.then_eq_eq,and_comm]
  | q a => cases y <;> simp [Element.compare,rank,Fraction.compare_eq_iff]
  | r a => cases y <;> simp [Element.compare,rank,Binary64.compare_eq_iff]
  | product xs ih => cases y <;> simp [Element.compare,rank,ih]
  | nil => rename_i ys; cases ys <;> simp [compareAll]
  | cons x xs ihx ihxs =>
    rename_i ys
    cases ys <;> simp [compareAll,Ordering.then_eq_eq,ihx,ihxs]
  | null => cases y <;> simp [Element.compare,rank]

instance : DecidableEq Element := fun x y => decidable_of_iff _ (compare_eq_iff x y)

/-- Inserts into a strictly increasing list, unless the element is there already. -/
def insertSorted (x : Element) : List Element → List Element
  | [] => [x]
  | y :: ys => match x.compare y with
    | .lt => x :: y :: ys
    | .eq => y :: ys
    | .gt => y :: insertSorted x ys

def sorted (xs : List Element) : List Element := xs.foldr insertSorted []

/-- The residue class of an integer; the modulus is first brought between 1 and the largest one. -/
def residue (value : Int64) (modulus : UInt64) : Element :=
  let n := max 1 (min modulus Module.maxModulus)
  .zn (Int64.ofInt (value.toInt%n.toNat)) n

def fraction? (num den : Int64) : Option Element :=
  (Fraction.ofInts? num.toInt den.toInt).map .q

mutual
def isZero : Element → Bool
  | .null => true
  | .z v => v = 0
  | .zn v _ => v = 0
  | .q v => v.isZero
  | .r v => v.isZero
  | .product xs => allZero xs
def allZero : List Element → Bool
  | [] => true
  | x :: xs => x.isZero && allZero xs
end

def toInt64? : Element → Option Int64
  | .z v | .zn v _ => some v
  | _ => none

/-- The real nearest to a ring element, as far as the parts of a fraction can be rounded alone. -/
def toReal? : Element → Option Binary64
  | .z v | .zn v _ => some (.ofInt64 v)
  | .q v => some (.ofFraction v)
  | .r v => some v
  | .null | .product _ => none

mutual
def text : Element → String
  | .null => "0"
  | .z v => toString v.toInt
  | .zn v n => toString v.toInt ++ " mod " ++ toString n
  | .q v => v.text
  | .r v => v.text
  | .product xs => "(" ++ String.intercalate ", " (texts xs) ++ ")"
def texts : List Element → List String
  | [] => []
  | x :: xs => x.text :: texts xs
end

end Element

inductive MappingError where
  | outsideDomain (domain : Module) (element : Element)
  | notComposable (codomain domain : Module)
  | moduleMismatch (left right : Module)
  | unsupported (module : Module)
  | overflow (module : Module)
  deriving DecidableEq

namespace MappingError

def message : MappingError → String
  | .outsideDomain d x => "element " ++ x.text ++ " lies outside the domain " ++ d.text
  | .notComposable c d =>
    "cannot compose: codomain " ++ c.text ++ " does not match domain " ++ d.text
  | .moduleMismatch m n =>
    "operands live in different modules (" ++ m.text ++ " and " ++ n.text ++ ")"
  | .unsupported m => "operation not supported on module " ++ m.text
  | .overflow m => "arithmetic overflow in " ++ m.text

end MappingError

namespace Element

def ofInt (v : Int) : Except MappingError Element :=
  if fitsWord v then .ok (.z (Int64.ofInt v)) else .error (.overflow .z)

def ofFraction (v : Option Fraction) : Except MappingError Element :=
  match v with
  | some v => .ok (.q v)
  | none => .error (.overflow .q)

mutual
/-- Sums exist within one module; those of tuples are taken factor by factor. -/
def add : Element → Element → Except MappingError Element
  | .null, .null => .ok .null
  | .z a, .z b => ofInt (a.toInt+b.toInt)
  | .zn a m, .zn b n =>
    if m = n then .ok (residue (Int64.ofInt ((a.toInt+b.toInt)%m.toNat)) m)
    else .error (.moduleMismatch (.zn m) (.zn n))
  | .q a, .q b => ofFraction (a.add? b)
  | .r a, .r b => .ok (.r (a.add b))
  | .product xs, .product ys =>
    if xs.length = ys.length then (addAll xs ys).map .product
    else .error (.moduleMismatch (.product (modules xs)) (.product (modules ys)))
  | x, y => .error (.moduleMismatch x.module y.module)
def addAll : List Element → List Element → Except MappingError (List Element)
  | x :: xs, y :: ys => do
    let z ← x.add y
    let zs ← addAll xs ys
    .ok (z :: zs)
  | _, _ => .ok []
end

/-- Products exist within one ring. -/
def mul : Element → Element → Except MappingError Element
  | .z a, .z b => ofInt (a.toInt*b.toInt)
  | .q a, .q b => ofFraction (a.mul? b)
  | .r a, .r b => .ok (.r (a.mul b))
  | x, y =>
    if x.module = y.module then
      match x, y with
      | .zn a m, .zn b _ => .ok (residue (Int64.ofInt ((a.toInt*b.toInt)%m.toNat)) m)
      | _, _ => .error (.unsupported x.module)
    else .error (.moduleMismatch x.module y.module)

end Element

namespace Module

mutual
def zero : Module → Element
  | .null => .null
  | .z => .z 0
  | .zn n => .residue 0 n
  | .q => .q (.ofInt64 0)
  | .r => .r .zero
  | .product fs => .product (zeros fs)
def zeros : List Module → List Element
  | [] => []
  | f :: fs => f.zero :: zeros fs
end

def one? : Module → Option Element
  | .z => some (.z 1)
  | .zn n => some (.residue 1 n)
  | .q => some (.q (.ofInt64 1))
  | .r => some (.r .one)
  | .null | .product _ => none

def contains (m : Module) (x : Element) : Bool := x.module = m

end Module
end AddressedForms
