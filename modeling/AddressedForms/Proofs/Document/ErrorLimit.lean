import AddressedForms.Proofs.Repository.Registration
set_option autoImplicit false

/-!
The limit on errors is no more than a view. A session enters errors in its log as they are met, and has
only the log to tell it whether to register what it has read. Sessions with and without a limit stay in
step all the way, and every reading is such a session.
-/

namespace AddressedForms

namespace ErrorLog
variable {n : Nat} {full capped : ErrorLog}

/-- One log keeps everything, the other the first `n` errors of it and the number of the others. -/
structure Caps (n : Nat) (full capped : ErrorLog) : Prop where
  unlimited : full.limit = none
  limited : capped.limit = some n
  kept : capped.kept = full.kept.take n
  none_suppressed : full.suppressed = 0
  suppressed : capped.suppressed = full.kept.length-capped.kept.length

theorem caps_empty (n : Nat) : Caps n (empty none) (empty (some n)) := by
  constructor <;> simp [empty]

theorem Caps.report (h : Caps n full capped) (e : ReadError) :
    Caps n (full.report e) (capped.report e) := by
  obtain ⟨limit,all,none_suppressed⟩ := full
  obtain ⟨limit',kept,suppressed⟩ := capped
  obtain ⟨rfl,rfl,rfl,rfl,hsuppressed⟩ := h
  simp only [List.length_take] at hsuppressed
  -- the limited log is full from the moment that the other one has `n` entries
  by_cases hn : n ≤ all.length
  · have hcount : all.length-n+1 = all.length+1-n := by omega
    constructor <;> simp [ErrorLog.report,isFull,hn,hsuppressed,List.take_append_of_le_length,hcount]
  · have hlt : all.length < n := Nat.lt_of_not_le hn
    have htake : (all ++ [e]).take n = all ++ [e] := List.take_of_length_le (by simp; omega)
    constructor <;> simp [ErrorLog.report,isFull,hsuppressed,List.take_of_length_le hlt.le,
      Nat.min_eq_right hlt.le,hn,htake]

theorem Caps.reportAll (h : Caps n full capped) (es : List ReadError) :
    Caps n (full.reportAll es) (capped.reportAll es) :=
  List.foldl_rel h fun e _ _ _ h => h.report e

/-- Even a log that keeps nothing tells that something was wrong. -/
theorem Caps.isClean_eq (h : Caps n full capped) : capped.isClean = full.isClean := by
  have hcount := h.suppressed
  rw [h.kept,List.length_take] at hcount
  have hclean : capped.kept = [] ∧ capped.suppressed = 0 ↔ full.kept = [] := by
    rw [h.kept,← List.length_eq_zero_iff,← List.length_eq_zero_iff,List.length_take]
    omega
  rw [Bool.eq_iff_iff]
  simpa [isClean,h.none_suppressed] using hclean

theorem isClean_reportAll (limit : Option Nat) (es : List ReadError) :
    ((empty limit).reportAll es).isClean = es.isEmpty := by
  have h (n : Nat) := (caps_empty n).reportAll es
  have hfull : ((empty none).reportAll es).isClean = es.isEmpty := by
    rw [empty,reportAll_of_unlimited]
    simp [isClean]
  cases limit with
  | none => exact hfull
  | some n => exact (h n).isClean_eq.trans hfull

end ErrorLog

/-- A read that is going on: the repository that it adds to and the log that it reports to. -/
structure Session where
  repository : Repository
  log : ErrorLog

namespace Session
variable {n : Nat} {s t : Session}

def reportAll (s : Session) (es : List ReadError) : Session := {s with log := s.log.reportAll es}

def extend (s : Session) (b : BuiltForms) : Session :=
  {s with repository := {s.repository with forms := b.graph}}.reportAll b.reports

def registerForm (s : Session) (e : String × FormId) : Session :=
  match s.repository.registerForm e.2 with
  | .ok (_,r) => {s with repository := r}
  | .error _ => s.reportAll [.duplicateName .form e.1]

def registerDenotator (s : Session) (e : String × Denotator) : Session :=
  match s.repository.registerDenotator e.2 with
  | .ok r => {s with repository := r}
  | .error (.duplicateName _) => s.reportAll [.duplicateName .denotator e.1]
  | .error f => s.reportAll [.malformed "Denotator" f.message]

def register (s : Session) (forms : List (String × FormId))
    (denotators : List (String × Denotator)) : Session :=
  if s.log.isClean then denotators.foldl registerDenotator (forms.foldl registerForm s) else s

def run (s : Session) (v : Vocabulary) (c : Catalogue) (root : Node) : Session :=
  let d := Definitions.ofRoot root
  let g := s.repository.forms
  let s := s.reportAll d.reports
  let s := s.reportAll (NameSpace.unresolved ⟨d,d.denotators,c⟩ (Reading.referencesOf root))
  let s := s.reportAll (Leaves.resolve v d).2
  let s := s.extend (d.built v c g)
  let s := s.reportAll (d.resolved v c g).reports
  (d.sketches.map (d.attempt v c g)).foldl (fun s x => s.reportAll x.reports) s

def read (v : Vocabulary) (a : Settings) (root : Node) (r : Repository) : Outcome × Repository :=
  let c := Catalogue.ofRepository r a.catalogFallback
  let g := Reading.ofNode v c root r
  let s := run ⟨r,.empty a.maxErrors⟩ v c root
  let s := if a.registerDecoded then s.register g.forms g.symbols.denotators else s
  (⟨g.forms.map Prod.snd,g.denotators,s.log,g.symbols⟩,s.repository)

/-- Two sessions in step: what is in the log of one is all that they differ in. -/
structure Caps (n : Nat) (s t : Session) : Prop where
  repository : t.repository = s.repository
  log : s.log.Caps n t.log

theorem Caps.reportAll (h : Caps n s t) (es : List ReadError) :
    Caps n (s.reportAll es) (t.reportAll es) :=
  ⟨h.repository,h.log.reportAll es⟩

theorem Caps.extend (h : Caps n s t) (b : BuiltForms) : Caps n (s.extend b) (t.extend b) := by
  have hbuilt : Caps n {s with repository := {s.repository with forms := b.graph}}
      {t with repository := {t.repository with forms := b.graph}} :=
    ⟨by rw [h.repository],h.log⟩
  exact hbuilt.reportAll b.reports

theorem Caps.registerForm (h : Caps n s t) (e : String × FormId) :
    Caps n (s.registerForm e) (t.registerForm e) := by
  unfold Session.registerForm
  rw [h.repository]
  split
  · exact ⟨rfl,h.log⟩
  · exact h.reportAll _

theorem Caps.registerDenotator (h : Caps n s t) (e : String × Denotator) :
    Caps n (s.registerDenotator e) (t.registerDenotator e) := by
  unfold Session.registerDenotator
  rw [h.repository]
  split
  · exact ⟨rfl,h.log⟩
  · exact h.reportAll _
  · exact h.reportAll _

theorem Caps.register (h : Caps n s t) (forms : List (String × FormId))
    (denotators : List (String × Denotator)) :
    Caps n (s.register forms denotators) (t.register forms denotators) := by
  unfold Session.register
  rw [h.log.isClean_eq]
  split
  · refine List.foldl_rel ?_ fun e _ _ _ h => h.registerDenotator e
    exact List.foldl_rel h fun e _ _ _ h => h.registerForm e
  · exact h

theorem Caps.run (h : Caps n s t) (v : Vocabulary) (c : Catalogue) (root : Node) :
    Caps n (s.run v c root) (t.run v c root) := by
  unfold Session.run
  rw [h.repository]
  refine List.foldl_rel ?_ fun x _ _ _ h => h.reportAll x.reports
  exact ((((h.reportAll _).reportAll _).reportAll _).extend _).reportAll _

theorem caps_read (v : Vocabulary) (a : Settings) (root : Node) (r : Repository) (n : Nat) :
    let full := read v {a with maxErrors := none} root r
    let capped := read v {a with maxErrors := some n} root r
    ErrorLog.Caps n full.1.errors capped.1.errors ∧ capped.2 = full.2 := by
  let c := Catalogue.ofRepository r a.catalogFallback
  let g := Reading.ofNode v c root r
  have hstart : Caps n ⟨r,.empty none⟩ ⟨r,.empty (some n)⟩ := ⟨rfl,ErrorLog.caps_empty n⟩
  have hrun := hstart.run v c root
  unfold read
  cases a.registerDecoded with
  | false => exact ⟨hrun.log,hrun.repository⟩
  | true =>
    have hregister := hrun.register g.forms g.symbols.denotators
    exact ⟨hregister.log,hregister.repository⟩

def ofReading (limit : Option Nat) (g : Reading) : Session :=
  ⟨g.repository,(ErrorLog.empty limit).reportAll g.reports⟩

variable (limit : Option Nat)

theorem registerForm_ofReading (g : Reading) (e : String × FormId) :
    (ofReading limit g).registerForm e = ofReading limit (g.registerForm e.1 e.2) := by
  unfold registerForm Reading.registerForm
  cases hr : g.repository.registerForm e.2 with
  | ok r => simp [ofReading,hr]
  | error f => simp [ofReading,hr,reportAll,ErrorLog.reportAll_append]

theorem registerDenotator_ofReading (g : Reading) (e : String × Denotator) :
    (ofReading limit g).registerDenotator e = ofReading limit (g.registerDenotator e.1 e.2) := by
  unfold registerDenotator Reading.registerDenotator
  cases hr : g.repository.registerDenotator e.2 with
  | ok r => simp [ofReading,hr]
  | error f => cases f <;> simp [ofReading,hr,reportAll,ErrorLog.reportAll_append]

theorem register_ofReading (g : Reading) :
    (ofReading limit g).register g.forms g.symbols.denotators =
      ofReading limit (if g.reports.isEmpty then g.register else g) := by
  have hclean : (ofReading limit g).log.isClean = g.reports.isEmpty :=
    ErrorLog.isClean_reportAll limit g.reports
  unfold register Reading.register
  rw [hclean]
  split
  · rw [List.foldl_hom (ofReading limit) (registerForm_ofReading limit),
      List.foldl_hom (ofReading limit) (registerDenotator_ofReading limit)]
  · rfl

theorem reportAll_append (s : Session) (es fs : List ReadError) :
    s.reportAll (es ++ fs) = (s.reportAll es).reportAll fs := by
  simp [reportAll,ErrorLog.reportAll_append]

theorem foldl_reportAll (xs : List (Attempt Denotator)) (s : Session) :
    xs.foldl (fun s x => s.reportAll x.reports) s = s.reportAll (xs.flatMap Attempt.reports) := by
  induction xs generalizing s with
  | nil => rfl
  | cons x xs ih => simp [ih,reportAll_append]

theorem run_eq (v : Vocabulary) (c : Catalogue) (root : Node) (r : Repository) :
    run ⟨r,.empty limit⟩ v c root = ofReading limit (Reading.ofNode v c root r) := by
  rw [Reading.ofNode_eq]
  unfold run
  rw [foldl_reportAll]
  simp [reportAll,extend,ofReading,ErrorLog.reportAll_append]

/-- To collect all errors first and to keep some of them afterwards comes to the same. -/
theorem read_eq (v : Vocabulary) (a : Settings) (root : Node) (r : Repository) :
    read v a root r = Outcome.ofNode v a root r := by
  let g := Reading.ofNode v (.ofRepository r a.catalogFallback) root r
  have hregistered := Reading.registered_register g
  unfold read Outcome.ofNode
  simp only [run_eq,register_ofReading]
  cases a.registerDecoded with
  | false => rfl
  | true =>
    cases hclean : g.reports.isEmpty with
    | false => rfl
    | true => simp [g,Outcome.ofReading,ofReading,hregistered.forms,hregistered.denotators,
        hregistered.symbols]

end Session

namespace Reader

def withLimit (a : Reader) (limit : Option Nat) : Reader :=
  {a with settings := {a.settings with maxErrors := limit}}

theorem readNode_eq_read (a : Reader) (root : Node) (r : Repository) (limit : Option Nat) :
    let o := (a.withLimit limit).readNode root r
    (o.1,o.2.2) = Session.read a.vocabulary (a.withLimit limit).settings root r :=
  (Session.read_eq a.vocabulary _ root r).symm

theorem caps_readNode (a : Reader) (root : Node) (r : Repository) (n : Nat) :
    let full := (a.withLimit none).readNode root r
    let capped := (a.withLimit (some n)).readNode root r
    ErrorLog.Caps n full.1.errors capped.1.errors ∧ capped.2.2 = full.2.2 := by
  have h := Session.caps_read a.vocabulary a.settings root r n
  rw [Session.read_eq,Session.read_eq] at h
  exact h

/-- A limit on errors changes nothing but how many are kept: neither what is read nor what is registered
nor how the reader is left. -/
theorem readNode_withLimit (a : Reader) (root : Node) (r : Repository) (n : Nat) :
    let full := (a.withLimit none).readNode root r
    let capped := (a.withLimit (some n)).readNode root r
    capped.1.errors.kept = full.1.errors.kept.take n ∧
    capped.1.errors.suppressed = full.1.errors.kept.length-capped.1.errors.kept.length ∧
    full.1.errors.suppressed = 0 ∧
    capped.1.forms = full.1.forms ∧ capped.1.denotators = full.1.denotators ∧
    capped.1.symbols = full.1.symbols ∧ capped.2.2 = full.2.2 ∧
    capped.2.1.status = full.2.1.status ∧
    ∀ limit, let o := (a.withLimit limit).readNode root r
      (o.1,o.2.2) = Session.read a.vocabulary (a.withLimit limit).settings root r := by
  intro full capped
  obtain ⟨herrors,hrepository⟩ := a.caps_readNode root r n
  have hfull := congrArg Prod.fst (a.readNode_eq_read root r none)
  have hcapped := congrArg Prod.fst (a.readNode_eq_read root r (some n))
  have hstatus : capped.2.1.status = full.2.1.status :=
    congrArg (if · then ReaderStatus.done else .failed) herrors.isClean_eq
  refine ⟨herrors.kept,herrors.suppressed,herrors.none_suppressed,?_,?_,?_,hrepository,hstatus,
    a.readNode_eq_read root r⟩
  · exact (congrArg Outcome.forms hcapped).trans (congrArg Outcome.forms hfull).symm
  · exact (congrArg Outcome.denotators hcapped).trans (congrArg Outcome.denotators hfull).symm
  · exact (congrArg Outcome.symbols hcapped).trans (congrArg Outcome.symbols hfull).symm

end Reader
end AddressedForms
