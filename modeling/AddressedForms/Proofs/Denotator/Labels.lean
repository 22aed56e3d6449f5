import AddressedForms.Proofs.Denotator.Operations
import AddressedForms.Proofs.Repository.Labels
set_option autoImplicit false

/-!
Paths of labels. What a path of positions leads to in a valid denotator is found under the labels of
the positions too, each in the form that the node on the way has, which may be a copy of the expected
form with other labels. Labels lead nowhere else, and one is unknown only where it is nothing's.
-/

namespace AddressedForms

theorem Form.lt_count_of_subForm {f : Form} {i : Nat} {sub : FormId}
    (hk : f.kind ≠ .power ∧ f.kind ≠ .list) (h : f.subForm i = .ok sub) : i < f.count := by
  obtain ⟨name,body,labels,registered⟩ := f
  cases body with
  | simple => cases h
  | power => exact absurd rfl hk.1
  | list => exact absurd rfl hk.2
  | limit subs | colimit subs =>
    by_contra hle
    have hnone : subs[i]? = none := List.getElem?_eq_none (Nat.le_of_not_lt hle)
    simp [subForm,hnone] at h

namespace Denotator
variable {g : FormGraph} {d f n node : Denotator} {i k : Nat} {label : String} {path : List Nat}
  {labels : List String}

def labelAt? (g : FormGraph) (d : Denotator) (i : Nat) : Option String :=
  match d.kind with
  | .power | .list => some (toString i)
  | .simple | .limit | .colimit => g.labelAt? d.form i

/-- The labels of the positions on a path, each at the node that it is taken at. -/
def labelsAlong? (g : FormGraph) : List Nat → Denotator → Option (List String)
  | [], _ => some []
  | i :: path, d => do
    let label ← labelAt? g d i
    let f ← (d.step i 0).toOption
    let labels ← labelsAlong? g path f
    some (label :: labels)

theorem positionOf?_of_power_or_list (hk : d.kind = .power ∨ d.kind = .list) :
    positionOf? g d label = some i ↔
      i ≤ Integer.maxUnsigned ∧ Integer.IsNumeral label.toList i := by
  have hread : positionOf? g d label = (Integer.readIndex label).toOption := by
    rcases hk with hk | hk <;> rw [positionOf?,hk]
  rw [hread,← Integer.readIndex_eq_ok_iff]
  cases Integer.readIndex label <;> simp [Except.toOption]

theorem positionOf?_of_labelAt? (hi : i ≤ Integer.maxUnsigned) (h : labelAt? g d i = some label) :
    positionOf? g d label = some i := by
  by_cases hk : d.kind = .power ∨ d.kind = .list
  · have hlabel : toString i = label := by
      rcases hk with hk | hk <;> simpa [labelAt?,hk] using h
    rw [positionOf?_of_power_or_list hk,← hlabel]
    exact Integer.readIndex_eq_ok_iff.mp (Integer.readIndex_toString hi)
  · cases d with
    | power | list => simp [kind] at hk
    | simple | limit | colimit => exact FormGraph.positionOf?_of_labelAt? hi h

theorem Valid.exists_labelAt? (hg : g.Sound) (hd : Valid g d) (h : d.step i k = .ok f) :
    ∃ label, labelAt? g d i = some label := by
  obtain ⟨b,hb,hfit⟩ := hd.node
  obtain ⟨sub,hsub,-⟩ := hfit.exists_subForm h
  cases d with
  | power | list => exact ⟨_,rfl⟩
  | simple | limit | colimit =>
    have hkind : b.kind ≠ .power ∧ b.kind ≠ .list := by
      constructor <;> intro hk <;> exact absurd (hk.symm.trans hfit.kind_eq) nofun
    refine Option.isSome_iff_exists.mp ((hg.isSome_labelAt?_iff hb).mpr ?_)
    exact Form.lt_count_of_subForm hkind hsub

theorem getLabelledFrom_cons (hp : positionOf? g d label = some i) :
    getLabelledFrom g k (label :: labels) d = d.step i k >>= getLabelledFrom g (k+1) labels := by
  rw [getLabelledFrom,hp]

theorem getLabelledFrom_cons_eq_ok_iff : getLabelledFrom g k (label :: labels) d = .ok n ↔
    ∃ i f, positionOf? g d label = some i ∧ d.step i k = .ok f ∧
      getLabelledFrom g (k+1) labels f = .ok n := by
  cases hp : positionOf? g d label with
  | none => simp [getLabelledFrom,hp]
  | some i => simp [getLabelledFrom_cons hp,Except.bind_eq_ok_iff]

theorem exists_labelsAlong? (hg : g.Sound) (hd : d.validate g = .ok ())
    (hp : ∀ i ∈ path, i ≤ Integer.maxUnsigned) (h : getFrom k path d = .ok n) :
    ∃ labels, labelsAlong? g path d = some labels ∧ getLabelledFrom g k labels d = .ok n := by
  induction path generalizing d k with
  | nil => exact ⟨[],rfl,h⟩
  | cons i path ih =>
    obtain ⟨hi,hp⟩ := List.forall_mem_cons.mp hp
    obtain ⟨f,hf,h⟩ := Except.bind_eq_ok_iff.mp h
    have hvalid := valid_of_validate hg.namesUnique hd d (self_mem_nodes d)
    obtain ⟨label,hlabel⟩ := hvalid.exists_labelAt? hg hf
    obtain ⟨labels,hlabels,hget⟩ := ih (validate_of_mem_factors hd (mem_factors_of_step hf)).1 hp h
    refine ⟨label :: labels,?_,?_⟩
    · simp [labelsAlong?,hlabel,step_of_step hf 0,Except.toOption,hlabels]
    · exact getLabelledFrom_cons_eq_ok_iff.mpr ⟨i,f,positionOf?_of_labelAt? hi hlabel,hf,hget⟩

theorem exists_getFrom_of_getLabelledFrom (h : getLabelledFrom g k labels d = .ok n) :
    ∃ path : List Nat, path.length = labels.length ∧ getFrom k path d = .ok n := by
  induction labels generalizing d k with
  | nil => exact ⟨[],rfl,h⟩
  | cons label labels ih =>
    obtain ⟨i,f,-,hf,h⟩ := getLabelledFrom_cons_eq_ok_iff.mp h
    obtain ⟨path,hlength,hpath⟩ := ih h
    exact ⟨i :: path,congrArg Nat.succ hlength,Except.bind_eq_ok_iff.mpr ⟨f,hf,hpath⟩⟩

theorem step_ne_unknownLabel (d : Denotator) (i k : Nat) (label : String) :
    d.step i k ≠ .error (.unknownLabel label) := by
  intro h
  cases d with
  | simple => cases h
  | colimit | limit | power | list =>
    rw [step] at h
    split at h <;> cases h

/-- A label of nothing at a node; where the node is a set or a list, no numeral of 64 bits. -/
structure Unnamed (g : FormGraph) (d : Denotator) (label : String) : Prop where
  position : positionOf? g d label = none
  apart : ∀ i : UInt64, labelAt? g d i.toNat ≠ some label
  numeral : d.kind = .power ∨ d.kind = .list →
    ∀ i : UInt64, ¬ Integer.IsNumeral label.toList i.toNat

theorem unnamed_of_positionOf? (h : positionOf? g d label = none) : Unnamed g d label where
  position := h
  apart i hi := by
    rw [positionOf?_of_labelAt? (Integer.toNat_le_maxUnsigned i) hi] at h
    cases h
  numeral hk i hi := by
    rw [(positionOf?_of_power_or_list hk).mpr ⟨Integer.toNat_le_maxUnsigned i,hi⟩] at h
    cases h

theorem getLabelledFrom_eq_unknownLabel_iff :
    getLabelledFrom g k labels d = .error (.unknownLabel label) ↔
      ∃ l r node, labels = l ++ label :: r ∧ getLabelledFrom g k l d = .ok node ∧
        Unnamed g node label := by
  constructor
  · intro h
    induction labels generalizing d k with
    | nil => cases h
    | cons a labels ih =>
      cases hp : positionOf? g d a with
      | none =>
        rw [getLabelledFrom,hp] at h
        cases h
        exact ⟨[],labels,d,rfl,rfl,unnamed_of_positionOf? hp⟩
      | some i =>
        rw [getLabelledFrom_cons hp] at h
        cases hf : d.step i k with
        | error e =>
          rw [hf] at h
          cases h
          exact absurd hf (step_ne_unknownLabel d i k label)
        | ok f =>
          rw [hf] at h
          obtain ⟨l,r,node,rfl,hl,hnode⟩ := ih h
          exact ⟨a :: l,r,node,rfl,getLabelledFrom_cons_eq_ok_iff.mpr ⟨i,f,hp,hf,hl⟩,hnode⟩
  · rintro ⟨l,r,node,rfl,hl,hnode⟩
    induction l generalizing d k with
    | nil =>
      cases hl
      rw [List.nil_append,getLabelledFrom,hnode.position]
    | cons a l ih =>
      obtain ⟨i,f,hp,hf,hl⟩ := getLabelledFrom_cons_eq_ok_iff.mp hl
      rw [List.cons_append,getLabelledFrom_cons hp,hf]
      exact ih hl

/-- Labels lead to all that positions lead to, namely the labels of these positions, and to nothing
else; and a label is unknown just where it is nothing's. -/
theorem getLabelled_complete (hg : g.Reachable) (hd : d.validate g = .ok ()) :
    (∀ (path : List UInt64) (n : Denotator), d.get (path.map UInt64.toNat) = .ok n →
      ∃ labels, labelsAlong? g (path.map UInt64.toNat) d = some labels ∧
        d.getLabelled g labels = .ok n) ∧
    (∀ (labels : List String) (n : Denotator), d.getLabelled g labels = .ok n →
      ∃ path : List Nat, path.length = labels.length ∧ d.get path = .ok n) ∧
    ∀ (labels : List String) (label : String),
      d.getLabelled g labels = .error (.unknownLabel label) ↔
        ∃ l r node, labels = l ++ label :: r ∧ d.getLabelled g l = .ok node ∧
          Unnamed g node label := by
  refine ⟨fun path n hn => exists_labelsAlong? hg.sound hd (fun i hi => ?_) hn,
    fun _ _ => exists_getFrom_of_getLabelledFrom,fun _ _ => getLabelledFrom_eq_unknownLabel_iff⟩
  obtain ⟨i,-,rfl⟩ := List.mem_map.mp hi
  exact Integer.toNat_le_maxUnsigned i

end Denotator

/-- Intervals of two pitches and a copy of them under other labels, and phrases of the first. -/
def FormGraph.intervals : FormGraph :=
  let interval (labels : Labels) : Slot :=
    .defined ⟨"Interval",.limit [⟨0⟩,⟨0⟩],some labels,false⟩
  ⟨[.defined ⟨"Pitch",.simple .z,none,false⟩,interval ⟨["low","high"],by decide⟩,
    interval ⟨["bass","top"],by decide⟩,.defined ⟨"Phrase",.list ⟨1⟩,none,false⟩],.empty⟩

theorem FormGraph.reachable_intervals : intervals.Reachable := by
  have declared := (((Reachable.empty.declare "Pitch" .simple).declare "Interval" .limit).declare
    "Interval" .limit).declare "Phrase" .list
  have a := @Reachable.define _ _ declared ⟨0⟩ (.simple .z) none rfl
  have b := @Reachable.define _ _ a ⟨1⟩ (.limit [⟨0⟩,⟨0⟩]) (some ["low","high"]) rfl
  have c := @Reachable.define _ _ b ⟨2⟩ (.limit [⟨0⟩,⟨0⟩]) (some ["bass","top"]) rfl
  exact @Reachable.define _ _ c ⟨3⟩ (.list ⟨1⟩) none rfl

namespace Denotator

/-- In a phrase that has an interval of the copied form the labels are those of the copy. -/
theorem getLabelled_phrase :
    let pitch (p : Int64) : Denotator := .simple ⟨⟨0⟩,none,.null⟩ (.constant .null (.z p))
    let fifth : Denotator := .limit ⟨⟨2⟩,none,.null⟩ [pitch 60,pitch 67]
    let phrase : Denotator := .list ⟨⟨3⟩,none,.null⟩ [fifth]
    phrase.validate .intervals = .ok () ∧ phrase.get [0,1] = .ok (pitch 67) ∧
    labelsAlong? .intervals [0,1] phrase = some ["0","top"] ∧
    phrase.getLabelled .intervals ["0","top"] = .ok (pitch 67) ∧
    phrase.getLabelled .intervals ["0","high"] = .error (.unknownLabel "high") ∧
    ∃ node, phrase.getLabelled .intervals ["0"] = .ok node ∧ Unnamed .intervals node "high" := by
  intro pitch fifth phrase
  have hv : phrase.validate .intervals = .ok () := by cbv
  have hget : phrase.get [0,1] = .ok (pitch 67) := rfl
  have hunknown : phrase.getLabelled .intervals ["0","high"] = .error (.unknownLabel "high") := by
    cbv
  obtain ⟨hall,-,hiff⟩ := getLabelled_complete FormGraph.reachable_intervals hv
  obtain ⟨labels,hlabels,hlabelled⟩ := hall [0,1] (pitch 67) hget
  have halong : labelsAlong? .intervals [0,1] phrase = some ["0","top"] := by cbv
  obtain rfl : labels = ["0","top"] := Option.some.inj (hlabels.symm.trans halong)
  obtain ⟨l,r,node,he,hl,hnode⟩ := (hiff _ _).mp hunknown
  obtain rfl : l = ["0"] := by
    rcases l with _ | ⟨a,_ | ⟨b,l⟩⟩ <;> simp_all
  exact ⟨hv,hget,halong,hlabelled,hunknown,node,hl,hnode⟩

end Denotator
end AddressedForms
