import AddressedForms.Json.Parse
set_option autoImplicit false

/-!
CBOR data items and their bytes. Lengths are definite or indefinite on reading and always definite
on writing; tags are read over. Containers and tags nest to a bounded depth.
-/

namespace AddressedForms
namespace Cbor

inductive Item where
  | unsigned (value : Nat)
  | negative
  | bytes (value : List UInt8)
  | text (value : String)
  | array (items : List Item)
  | map (entries : List (Item × Item))
  /-- A simple value or floating-point number. -/
  | other

def bigEndian : Nat → Nat → List UInt8
  | 0, _ => []
  | k+1, n => bigEndian k (n/256) ++ [n.toUInt8]

def ofBigEndian (bs : List UInt8) : Nat := bs.foldl (fun n b => 256*n+b.toNat) 0

/-- The shortest head of a major type and its argument. -/
def head (major n : Nat) : List UInt8 :=
  let b := 32*major
  if n < 24 then [(b+n).toUInt8]
  else if n < 0x100 then (b+24).toUInt8 :: bigEndian 1 n
  else if n < 0x10000 then (b+25).toUInt8 :: bigEndian 2 n
  else if n < 0x100000000 then (b+26).toUInt8 :: bigEndian 4 n
  else (b+27).toUInt8 :: bigEndian 8 n

inductive Argument where
  | value (n : Nat)
  | indefinite

def split? (n : Nat) (bs : List UInt8) : Option (List UInt8 × List UInt8) :=
  if n ≤ bs.length then some (bs.take n,bs.drop n) else none

def argument? (info : Nat) (bs : List UInt8) : Option (Argument × List UInt8) :=
  if info < 24 then some (.value info,bs)
  else if info < 28 then
    (split? (1 <<< (info-24)) bs).map fun (ds,rest) => (.value (ofBigEndian ds),rest)
  else if info = 31 then some (.indefinite,bs)
  else none

def head? : List UInt8 → Option (Nat × Nat × Argument × List UInt8)
  | [] => none
  | b :: bs =>
    (argument? (b.toNat%32) bs).map fun (a,rest) => (b.toNat/32,b.toNat%32,a,rest)

/-- The pieces of a string of indefinite length: definite strings of the same type up to a break. -/
def chunks? (major : Nat) : Nat → List UInt8 → Option (List UInt8 × List UInt8)
  | 0, _ => none
  | _+1, 255 :: rest => some ([],rest)
  | fuel+1, bs =>
    match head? bs with
    | some (m,_,.value n,rest) =>
      if m = major then do
        let (ds,rest) ← split? n rest
        let (es,rest) ← chunks? major fuel rest
        some (ds ++ es,rest)
      else none
    | _ => none

def string? (major : Nat) (fuel : Nat) : Argument → List UInt8 → Option (List UInt8 × List UInt8)
  | .value n, bs => split? n bs
  | .indefinite, bs => chunks? major fuel bs

/-- False, true, null, undefined, and floating-point numbers. -/
def isSimple (info : Nat) : Bool :=
  info = 20 || info = 21 || info = 22 || info = 23 || info = 25 || info = 26 || info = 27

mutual
/-- The depth is what may still be opened. -/
def item? : Nat → Nat → List UInt8 → Option (Item × List UInt8)
  | 0, _, _ => none
  | fuel+1, depth, bs =>
    match head? bs with
    | none => none
    | some (major,info,a,rest) =>
      match major, a, depth with
      | 0, .value n, _ => some (.unsigned n,rest)
      | 1, .value _, _ => some (.negative,rest)
      | 2, a, _ => (string? 2 fuel a rest).map fun (ds,rest) => (.bytes ds,rest)
      | 3, a, _ => do
        let (ds,rest) ← string? 3 fuel a rest
        let s ← ofUtf8? ds
        some (.text s,rest)
      | 4, .value n, d+1 => (items? fuel d n rest).map fun (xs,rest) => (.array xs,rest)
      | 4, .indefinite, d+1 => (openItems? fuel d rest).map fun (xs,rest) => (.array xs,rest)
      | 5, .value n, d+1 => (entries? fuel d n rest).map fun (es,rest) => (.map es,rest)
      | 5, .indefinite, d+1 => (openEntries? fuel d rest).map fun (es,rest) => (.map es,rest)
      | 6, .value _, d+1 => item? fuel d rest
      | 7, .value _, _ => if isSimple info then some (.other,rest) else none
      | _, _, _ => none
def items? : Nat → Nat → Nat → List UInt8 → Option (List Item × List UInt8)
  | _, _, 0, bs => some ([],bs)
  | 0, _, _+1, _ => none
  | fuel+1, depth, n+1, bs => do
    let (x,rest) ← item? fuel depth bs
    let (xs,rest) ← items? fuel depth n rest
    some (x :: xs,rest)
def openItems? : Nat → Nat → List UInt8 → Option (List Item × List UInt8)
  | 0, _, _ => none
  | _+1, _, 255 :: rest => some ([],rest)
  | fuel+1, depth, bs => do
    let (x,rest) ← item? fuel depth bs
    let (xs,rest) ← openItems? fuel depth rest
    some (x :: xs,rest)
def entries? : Nat → Nat → Nat → List UInt8 → Option (List (Item × Item) × List UInt8)
  | _, _, 0, bs => some ([],bs)
  | 0, _, _+1, _ => none
  | fuel+1, depth, n+1, bs => do
    let (k,rest) ← item? fuel depth bs
    let (x,rest) ← item? fuel depth rest
    let (es,rest) ← entries? fuel depth n rest
    some ((k,x) :: es,rest)
def openEntries? : Nat → Nat → List UInt8 → Option (List (Item × Item) × List UInt8)
  | 0, _, _ => none
  | _+1, _, 255 :: rest => some ([],rest)
  | fuel+1, depth, bs => do
    let (k,rest) ← item? fuel depth bs
    let (x,rest) ← item? fuel depth rest
    let (es,rest) ← openEntries? fuel depth rest
    some ((k,x) :: es,rest)
end

def maxDepth : Nat := 127

def parse? (bs : List UInt8) : Option Item :=
  match item? (2*bs.length+2) maxDepth bs with
  | some (x,[]) => some x
  | _ => none

end Cbor
end AddressedForms
