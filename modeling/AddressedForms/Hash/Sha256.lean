set_option autoImplicit false

/-!
SHA-256 of a list of bytes, and the type of its digests.
-/

namespace AddressedForms

structure Digest where
  bytes : List UInt8
  length_eq : bytes.length = 32
  deriving DecidableEq

namespace Digest

def zero : Digest := ⟨List.replicate 32 0,List.length_replicate⟩

def hexByte (b : UInt8) : List Char :=
  [(b.toNat/16).digitChar,(b.toNat%16).digitChar]

def hexText (bs : List UInt8) : String := String.ofList (bs.flatMap hexByte)

def hex (d : Digest) : String := hexText d.bytes

/-- Four bytes are enough to tell digests apart at a glance. -/
def brief (d : Digest) : String := "HashValue(" ++ hexText (d.bytes.take 4) ++ "…)"

end Digest

namespace Sha256

def constants : List UInt32 :=
  [0x428a2f98,0x71374491,0xb5c0fbcf,0xe9b5dba5,0x3956c25b,0x59f111f1,0x923f82a4,0xab1c5ed5,
   0xd807aa98,0x12835b01,0x243185be,0x550c7dc3,0x72be5d74,0x80deb1fe,0x9bdc06a7,0xc19bf174,
   0xe49b69c1,0xefbe4786,0x0fc19dc6,0x240ca1cc,0x2de92c6f,0x4a7484aa,0x5cb0a9dc,0x76f988da,
   0x983e5152,0xa831c66d,0xb00327c8,0xbf597fc7,0xc6e00bf3,0xd5a79147,0x06ca6351,0x14292967,
   0x27b70a85,0x2e1b2138,0x4d2c6dfc,0x53380d13,0x650a7354,0x766a0abb,0x81c2c92e,0x92722c85,
   0xa2bfe8a1,0xa81a664b,0xc24b8b70,0xc76c51a3,0xd192e819,0xd6990624,0xf40e3585,0x106aa070,
   0x19a4c116,0x1e376c08,0x2748774c,0x34b0bcb5,0x391c0cb3,0x4ed8aa4a,0x5b9cca4f,0x682e6ff3,
   0x748f82ee,0x78a5636f,0x84c87814,0x8cc70208,0x90befffa,0xa4506ceb,0xbef9a3f7,0xc67178f2]

structure State where
  a : UInt32
  b : UInt32
  c : UInt32
  d : UInt32
  e : UInt32
  f : UInt32
  g : UInt32
  h : UInt32

namespace State

def initial : State :=
  ⟨0x6a09e667,0xbb67ae85,0x3c6ef372,0xa54ff53a,0x510e527f,0x9b05688c,0x1f83d9ab,0x5be0cd19⟩

def add (s t : State) : State :=
  ⟨s.a+t.a,s.b+t.b,s.c+t.c,s.d+t.d,s.e+t.e,s.f+t.f,s.g+t.g,s.h+t.h⟩

def words (s : State) : List UInt32 := [s.a,s.b,s.c,s.d,s.e,s.f,s.g,s.h]

end State

def rotate (x : UInt32) (n : UInt32) : UInt32 := (x >>> n) ||| (x <<< (32-n))

def round (s : State) (constant word : UInt32) : State :=
  let sum1 := rotate s.e 6 ^^^ rotate s.e 11 ^^^ rotate s.e 25
  let choice := (s.e &&& s.f) ^^^ (~~~s.e &&& s.g)
  let t1 := s.h+sum1+choice+constant+word
  let sum0 := rotate s.a 2 ^^^ rotate s.a 13 ^^^ rotate s.a 22
  let majority := (s.a &&& s.b) ^^^ (s.a &&& s.c) ^^^ (s.b &&& s.c)
  ⟨t1+(sum0+majority),s.a,s.b,s.c,s.d+t1,s.e,s.f,s.g⟩

/-- The next word of the schedule from the words so far, latest first. -/
def nextWord (ws : List UInt32) : UInt32 :=
  let w2 := ws.getD 1 0
  let w15 := ws.getD 14 0
  let s0 := rotate w15 7 ^^^ rotate w15 18 ^^^ (w15 >>> 3)
  let s1 := rotate w2 17 ^^^ rotate w2 19 ^^^ (w2 >>> 10)
  ws.getD 15 0+s0+ws.getD 6 0+s1

def extend : Nat → List UInt32 → List UInt32
  | 0, ws => ws
  | n+1, ws => extend n (nextWord ws :: ws)

def bigEndianWords : List UInt8 → List UInt32
  | a :: b :: c :: d :: bs =>
    (a.toUInt32 <<< 24 ||| b.toUInt32 <<< 16 ||| c.toUInt32 <<< 8 ||| d.toUInt32) ::
      bigEndianWords bs
  | _ => []

def compress (s : State) (block : List UInt8) : State :=
  let schedule := (extend 48 (bigEndianWords block).reverse).reverse
  s.add ((constants.zip schedule).foldl (fun t kw => round t kw.1 kw.2) s)

def bigEndian : Nat → Nat → List UInt8
  | 0, _ => []
  | k+1, n => bigEndian k (n/256) ++ [n.toUInt8]

@[simp] theorem length_bigEndian (k n : Nat) : (bigEndian k n).length = k := by
  induction k generalizing n <;> simp_all [bigEndian]

/-- The message, one set bit, zeros up to a whole block, and its length in bits. -/
def pad (bs : List UInt8) : List UInt8 :=
  bs ++ 0x80 :: List.replicate ((119-bs.length%64)%64) 0 ++ bigEndian 8 (8*bs.length)

def compressAll (s : State) (bs : List UInt8) : State :=
  if bs.length < 64 then s else compressAll (compress s (bs.take 64)) (bs.drop 64)
termination_by bs.length
decreasing_by simp only [List.length_drop]; omega

def digest (bs : List UInt8) : Digest :=
  ⟨(compressAll State.initial (pad bs)).words.flatMap (fun w => bigEndian 4 w.toNat),by
    simp [State.words]⟩

end Sha256
end AddressedForms
