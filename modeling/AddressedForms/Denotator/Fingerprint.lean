import AddressedForms.Denotator.Basic
import AddressedForms.Hash.Canonical
set_option autoImplicit false

/-!
Fingerprints. Those of forms cover the name, the kind, and the module or the names of the sub-forms.
Those of denotators are trees of hashes, in which every node covers its name, form, address and
kind, and its morphism or the fingerprints of its factors.
-/

namespace AddressedForms

namespace FormGraph

def bodyBytes (g : FormGraph) : Body → List UInt8
  | .simple m => m.canonical
  | b => Canonical.count b.subForms.length ++
      b.subForms.flatMap (fun sub => Canonical.text ((g.name? sub).getD ""))

def formBytes (g : FormGraph) (f : Form) : List UInt8 :=
  Canonical.text f.name ++ f.kind.ordinal.toUInt8 :: g.bodyBytes f.body

def fingerprint? (hash : List UInt8 → Digest) (g : FormGraph) (id : FormId) : Option Digest :=
  (g.get? id).map (fun f => Canonical.hashWith hash .form (g.formBytes f))

end FormGraph

namespace Denotator

def nameBytes : Option String → List UInt8
  | some name => 1 :: Canonical.text name
  | none => [0]

def headBytes (hash : List UInt8 → Digest) (g : FormGraph) (h : Head) (kind : Kind) : List UInt8 :=
  nameBytes h.name ++ ((g.fingerprint? hash h.form).getD .zero).bytes ++ h.address.canonical ++
    [kind.ordinal.toUInt8]

mutual
def fingerprint (hash : List UInt8 → Digest) (g : FormGraph) : Denotator → Digest
  | .simple h m =>
    Canonical.hashWith hash .denotator (headBytes hash g h .simple ++ m.canonical)
  | .limit h ds =>
    Canonical.hashWith hash .denotator
      (headBytes hash g h .limit ++ Canonical.count ds.length ++ fingerprints hash g ds)
  | .colimit h i d =>
    Canonical.hashWith hash .denotator
      (headBytes hash g h .colimit ++ Canonical.count i ++ (d.fingerprint hash g).bytes)
  | .power h ds =>
    Canonical.hashWith hash .denotator
      (headBytes hash g h .power ++ Canonical.count ds.length ++ fingerprints hash g ds)
  | .list h ds =>
    Canonical.hashWith hash .denotator
      (headBytes hash g h .list ++ Canonical.count ds.length ++ fingerprints hash g ds)
def fingerprints (hash : List UInt8 → Digest) (g : FormGraph) : List Denotator → List UInt8
  | [] => []
  | d :: ds => (d.fingerprint hash g).bytes ++ fingerprints hash g ds
end

end Denotator
end AddressedForms
