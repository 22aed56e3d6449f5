set_option autoImplicit false

/-!
Modules of the address algebra: the zero module, four coefficient rings and finite products.
The order on modules is total and its ties are equalities (`compare_eq_iff`).
-/

namespace AddressedForms

inductive Module where
  | null
  | z
  | zn (modulus : UInt64)
  | q
  | r
  | product (factors : List Module)
  deriving Repr, Inhabited

namespace Module

/-- Residues of a modulus up to this one fit a signed word. -/
def maxModulus : UInt64 := 0x7fffffffffffffff

def tag : Module → String
  | .null => "NullModule"
  | .z => "ZRing"
  | .zn _ => "ZnRing"
  | .q => "QRing"
  | .r => "RRing"
  | .product _ => "ProductRing"

def isNull : Module → Bool
  | .null => true
  | _ => false

def isRing : Module → Bool
  | .z | .zn _ | .q | .r => true
  | .null | .product _ => false

def dimension : Module → Nat
  | .null => 0
  | .product fs => fs.length
  | _ => 1

def rank : Module → Nat
  | .null => 0
  | .z => 1
  | .zn _ => 2
  | .q => 3
  | .r => 4
  | .product _ => 5

mutual
/-- Kinds come first, then moduli, then factors from the left. -/
protected def compare : Module → Module → Ordering
  | .zn m, .zn n => compare m n
  | .product xs, .product ys => compareAll xs ys
  | x, y => compare x.rank y.rank
def compareAll : List Module → List Module → Ordering
  | [], [] => .eq
  | [], _ :: _ => .lt
  | _ :: _, [] => .gt
  | x :: xs, y :: ys => (x.compare y).then (compareAll xs ys)
end

instance : Ord Module := ⟨Module.compare⟩

theorem compare_eq_iff (x y : Module) : x.compare y = .eq ↔ x = y := by
  induction x using Module.rec (motive_2 := fun xs => ∀ ys, compareAll xs ys = .eq ↔ xs = ys)
    generalizing y with
  | zn n => cases y <;> simp [Module.compare,rank]
  | product xs ih => cases y <;> simp [Module.compare,rank,ih]
  | nil => rename_i ys; cases ys <;> simp [compareAll]
  | cons x xs ihx ihxs =>
    rename_i ys
    cases ys <;> simp [compareAll,Ordering.then_eq_eq,ihx,ihxs]
  | _ => cases y <;> simp [Module.compare,rank]

instance : DecidableEq Module := fun x y => decidable_of_iff _ (compare_eq_iff x y)

/-- Whether a canonical ring map other than the identity leads from one module to the other; every
module but the zero module itself also maps to the zero module. -/
def embeds : Module → Module → Bool
  | .z, .q | .z, .r | .z, .zn _ => true
  | .q, .r => true
  | .zn n, .zn m => n ≠ m && m ≠ 0 && n%m = 0
  | d, .null => !d.isNull
  | _, _ => false

mutual
def text : Module → String
  | .null => "Null"
  | .z => "Z"
  | .zn n => "Z_" ++ toString n
  | .q => "Q"
  | .r => "R"
  | .product fs => "(" ++ String.intercalate " x " (texts fs) ++ ")"
def texts : List Module → List String
  | [] => []
  | f :: fs => f.text :: texts fs
end

end Module
end AddressedForms
