import AddressedForms.Document.Cbor
import AddressedForms.Document.Reading
import AddressedForms.Document.Settings
set_option autoImplicit false

/-!
Readers: a vocabulary and settings for any number of documents, and how the last one went. The
settings say what open names may mean, whether a reading without errors is registered, and how many
errors the outcome keeps.
-/

namespace AddressedForms

structure Outcome where
  /-- The forms at the top level of the document. -/
  forms : List FormId
  /-- The denotators at the top level of the document. -/
  denotators : List Denotator
  errors : ErrorLog
  symbols : Symbols

namespace Outcome

/-- The outcome of reading what is not even a node. -/
def notWellFormed : Outcome := ⟨[],[],⟨none,[.notWellFormed],0⟩,.empty⟩

def isSuccess (o : Outcome) : Bool := o.errors.isClean

def document (o : Outcome) : Except (List ReadError) (List FormId × List Denotator) :=
  if o.isSuccess then .ok (o.forms,o.denotators) else .error o.errors.kept

def ofReading (g : Reading) (limit : Option Nat) : Outcome :=
  ⟨g.forms.map Prod.snd,g.denotators,(ErrorLog.empty limit).reportAll g.reports,g.symbols⟩

def ofNode (v : Vocabulary) (s : Settings) (root : Node) (r : Repository) : Outcome × Repository :=
  let g := Reading.ofNode v (.ofRepository r s.catalogFallback) root r
  let h := if s.registerDecoded && g.reports.isEmpty then g.register else g
  (ofReading h s.maxErrors,h.repository)

end Outcome

inductive ReaderStatus where
  | idle
  | done
  | failed
  deriving DecidableEq, Repr

namespace ReaderStatus

def text : ReaderStatus → String
  | .idle => "Idle"
  | .done => "Done"
  | .failed => "Failed"

def ofOutcome (o : Outcome) : ReaderStatus := if o.isSuccess then .done else .failed

end ReaderStatus

structure Reader where
  vocabulary : Vocabulary
  settings : Settings
  status : ReaderStatus

namespace Reader

def new (v : Vocabulary) (s : Settings) : Reader := ⟨v,s,.idle⟩

def default : Reader := new .builtins .default

def readNode (a : Reader) (root : Node) (r : Repository) : Outcome × Reader × Repository :=
  let (o,r) := Outcome.ofNode a.vocabulary a.settings root r
  (o,{a with status := .ofOutcome o},r)

def readNode? (a : Reader) (root : Option Node) (r : Repository) : Outcome × Reader × Repository :=
  match root with
  | some n => a.readNode n r
  | none => (.notWellFormed,{a with status := .ofOutcome .notWellFormed},r)

/-- Text is JSON whatever the settings. -/
def readText (a : Reader) (s : String) (r : Repository) : Outcome × Reader × Repository :=
  a.readNode? (Node.ofJsonBytes? s.toByteArray.data.toList) r

def nodeOf? (a : Reader) (bs : List UInt8) : Option Node :=
  match a.settings.format with
  | .json => Node.ofJsonBytes? bs
  | .cbor => Node.ofCborBytes? bs

def readBytes (a : Reader) (bs : List UInt8) (r : Repository) : Outcome × Reader × Repository :=
  a.readNode? (a.nodeOf? bs) r

/-- A stream that fails before its end is like one that is not well formed. -/
def readStream (a : Reader) (bs : Option (List UInt8)) (r : Repository) :
    Outcome × Reader × Repository :=
  a.readNode? (bs.bind a.nodeOf?) r

inductive Input where
  | stream (bs : Option (List UInt8))
  | text (s : String)
  | bytes (bs : List UInt8)
  | node (root : Node)

def read (a : Reader) (i : Input) (r : Repository) : Outcome × Reader × Repository :=
  match i with
  | .stream bs => a.readStream bs r
  | .text s => a.readText s r
  | .bytes bs => a.readBytes bs r
  | .node root => a.readNode root r

end Reader
end AddressedForms
