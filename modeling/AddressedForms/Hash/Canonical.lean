import AddressedForms.Address.Morphism
import AddressedForms.Hash.Sha256
set_option autoImplicit false

/-!
Canonical bytes of address values and the hashing of bytes within a domain. Texts and sequences are
preceded by their lengths and every value by its type tag, so no encoding begins another one. The
hash function is an argument wherever it is only applied.
-/

namespace AddressedForms

def utf8 (s : String) : List UInt8 := s.toByteArray.data.toList

namespace Canonical

def littleEndian : Nat → Nat → List UInt8
  | 0, _ => []
  | k+1, n => n.toUInt8 :: littleEndian k (n/256)

@[simp] theorem length_littleEndian (k n : Nat) : (littleEndian k n).length = k := by
  induction k generalizing n <;> simp_all [littleEndian]

def word (w : UInt64) : List UInt8 := littleEndian 8 w.toNat

def signed (v : Int64) : List UInt8 := word v.toUInt64

/-- Lengths are counted in 64 bits. -/
def count (n : Nat) : List UInt8 := littleEndian 8 n

def text (s : String) : List UInt8 := count (utf8 s).length ++ utf8 s

inductive Domain where
  | form
  | denotator
  | leaf
  deriving DecidableEq, Repr

def Domain.name : Domain → String
  | .form => "FORM"
  | .denotator => "DENOTATOR"
  | .leaf => "LEAF"

/-- The bytes that are hashed for some data under a domain of the given name. -/
def separated (domain : List UInt8) (data : List UInt8) : List UInt8 :=
  utf8 "DNT:" ++ domain ++ utf8 ":v1" ++ count data.length ++ data

def hashWith (hash : List UInt8 → Digest) (domain : Domain) (data : List UInt8) : Digest :=
  hash (separated (utf8 domain.name) data)

end Canonical

open Canonical

namespace Module

mutual
def canonical : Module → List UInt8
  | .zn n => Canonical.text "ZnRing" ++ word n
  | .product fs => Canonical.text "ProductRing" ++ count fs.length ++ canonicals fs
  | m => Canonical.text m.tag
def canonicals : List Module → List UInt8
  | [] => []
  | f :: fs => f.canonical ++ canonicals fs
end

def contentHash (hash : List UInt8 → Digest) (m : Module) : Digest :=
  hashWith hash .leaf m.canonical

end Module

namespace Element

mutual
def canonical : Element → List UInt8
  | .null => Canonical.text "NullElement"
  | .z v => Canonical.text "ZElement" ++ signed v
  | .zn v n => Canonical.text "ZnElement" ++ word n ++ signed v
  | .q v => Canonical.text "QElement" ++ signed v.num ++ signed v.den
  | .r v => Canonical.text "RElement" ++ word v.bits
  | .product xs => Canonical.text "ProductElement" ++ count xs.length ++ canonicals xs
def canonicals : List Element → List UInt8
  | [] => []
  | x :: xs => x.canonical ++ canonicals xs
end

def contentHash (hash : List UInt8 → Digest) (x : Element) : Digest :=
  hashWith hash .leaf x.canonical

end Element

namespace Morphism

def canonical : Morphism → List UInt8
  | .constant d x => Canonical.text "ConstantMorphism" ++ d.canonical ++ x.canonical
  | .identity m => Canonical.text "IdentityMorphism" ++ m.canonical
  | .affine k a b => Canonical.text "AffineMorphism" ++ k.canonical ++ a.canonical ++ b.canonical
  | .embedding d c => Canonical.text "EmbeddingMorphism" ++ d.canonical ++ c.canonical
  | .composition f g => Canonical.text "CompositionMorphism" ++ f.canonical ++ g.canonical

def contentHash (hash : List UInt8 → Digest) (f : Morphism) : Digest :=
  hashWith hash .leaf f.canonical

end Morphism
end AddressedForms
