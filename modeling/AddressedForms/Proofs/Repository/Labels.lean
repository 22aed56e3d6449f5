import AddressedForms.Proofs.Number.Numeral
import AddressedForms.Proofs.Repository.Growth
set_option autoImplicit false

/-!
Labels and positions. A form with labels of its own finds each position under its label and under
nothing else; a form without them finds it under the decimal of the position, and under all other
numerals of it too.
-/

namespace AddressedForms

namespace FormGraph
variable {g : FormGraph} {id : FormId} {f : Form} {l : Labels} {label : String} {i : Nat}

theorem positionOf?_of_labels (hf : g.get? id = some f) (hl : f.labels = some l) :
    g.positionOf? id label = l.indexOf? label := by simp [positionOf?,hf,hl]

theorem labelAt?_of_labels (hf : g.get? id = some f) (hl : f.labels = some l) :
    g.labelAt? id i = l.at? i := by simp [labelAt?,hf,hl]

theorem labelAt?_of_none (hf : g.get? id = some f) (hl : f.labels = none) :
    g.labelAt? id i = if i < f.count then some (toString i) else none := by
  simp [labelAt?,hf,hl]

theorem positionOf?_of_none (hf : g.get? id = some f) (hl : f.labels = none) :
    g.positionOf? id label = some i ↔
      i < f.count ∧ i ≤ Integer.maxUnsigned ∧ Integer.IsNumeral label.toList i := by
  have hsome : (Integer.readIndex label).toOption = some i ↔ Integer.readIndex label = .ok i := by
    cases Integer.readIndex label <;> simp [Except.toOption]
  have hposition : g.positionOf? id label =
      (Integer.readIndex label).toOption.filter (· < f.count) := by
    simp [positionOf?,hf,hl]
  rw [hposition,Option.filter_eq_some_iff,hsome,Integer.readIndex_eq_ok_iff,decide_eq_true_iff]
  exact and_comm

theorem positionOf?_of_labelAt? (hi : i ≤ Integer.maxUnsigned)
    (h : g.labelAt? id i = some label) : g.positionOf? id label = some i := by
  obtain ⟨f,hf,-⟩ := Option.bind_eq_some_iff.mp h
  cases hl : f.labels with
  | some l =>
    rw [labelAt?_of_labels hf hl] at h
    rw [positionOf?_of_labels hf hl,l.indexOf?_eq_some_iff,h]
  | none =>
    rw [labelAt?_of_none hf hl] at h
    split at h <;> rename_i hlt <;> cases h
    exact (positionOf?_of_none hf hl).mpr
      ⟨hlt,Integer.readIndex_eq_ok_iff.mp (Integer.readIndex_toString hi)⟩

theorem Sound.isSome_labelAt?_iff (hg : g.Sound) (hf : g.get? id = some f) :
    (g.labelAt? id i).isSome ↔ i < f.count := by
  cases hl : f.labels with
  | none => simp [labelAt?_of_none hf hl]
  | some l => rw [labelAt?_of_labels hf hl,l.isSome_at?_iff,(hg.labelled id f l hf hl).2]

end FormGraph

namespace Repository

/-- Positions are found under their labels, and in a form without labels of its own also under every
other numeral, which is nothing's label. -/
theorem positionOf?_iff_labelAt? {r : Repository} (hr : r.Reachable) {id : FormId} {f : Form}
    (hf : r.forms.get? id = some f) :
    (∀ i, (r.forms.labelAt? id i).isSome ↔ i < f.count) ∧
    (f.labels = none → ∀ i, i < f.count → r.forms.labelAt? id i = some (toString i)) ∧
    ∀ (label : String) (i : UInt64), r.forms.positionOf? id label = some i.toNat ↔
      r.forms.labelAt? id i.toNat = some label ∨
      f.labels = none ∧ i.toNat < f.count ∧ label ≠ toString i.toNat ∧
        Integer.IsNumeral label.toList i.toNat := by
  refine ⟨fun i => hr.forms.sound.isSome_labelAt?_iff hf,fun hl i hi => ?_,fun label i => ?_⟩
  · rw [FormGraph.labelAt?_of_none hf hl,if_pos hi]
  · cases hl : f.labels with
    | some l =>
      rw [FormGraph.positionOf?_of_labels hf hl,FormGraph.labelAt?_of_labels hf hl]
      simp [l.indexOf?_eq_some_iff]
    | none =>
      have hi : i.toNat ≤ Integer.maxUnsigned := by
        have := i.toNat_lt
        simp only [Integer.maxUnsigned]; omega
      have hown : Integer.IsNumeral (toString i.toNat).toList i.toNat := by
        rw [Integer.toList_toString_nat]
        exact .inl (Integer.isPadded_toDigits _)
      rw [FormGraph.positionOf?_of_none hf hl,FormGraph.labelAt?_of_none hf hl]
      by_cases hlabel : label = toString i.toNat <;> by_cases hlt : i.toNat < f.count <;>
        simp_all [eq_comm]

def notes : Repository :=
  empty.run [.add "Onset" (.simple .r),.add "Pitch" (.simple .z),.add "Note" (.limit [⟨0⟩,⟨1⟩])]

/-- The second part of a note is found under numerals that are not its label. -/
theorem positionOf?_signed :
    let f : Form := ⟨"Note",.limit [⟨0⟩,⟨1⟩],none,false⟩
    notes.Reachable ∧ notes.forms.get? ⟨2⟩ = some f ∧
    notes.forms.labelAt? ⟨2⟩ 1 = some "1" ∧ notes.forms.positionOf? ⟨2⟩ "1" = some 1 ∧
    notes.forms.positionOf? ⟨2⟩ "+1" = some 1 ∧ notes.forms.positionOf? ⟨2⟩ "01" = some 1 ∧
    ¬ (notes.forms.positionOf? ⟨2⟩ "+1" = some 1 ↔ notes.forms.labelAt? ⟨2⟩ 1 = some "+1") := by
  intro f
  have hr : notes.Reachable := ⟨_,rfl⟩
  have hf : notes.forms.get? ⟨2⟩ = some f := rfl
  obtain ⟨-,hdefault,hiff⟩ := positionOf?_iff_labelAt? hr hf
  have hlabel : notes.forms.labelAt? ⟨2⟩ 1 = some "1" := hdefault rfl 1 (by decide)
  have hsigned : notes.forms.positionOf? ⟨2⟩ "+1" = some 1 :=
    (hiff "+1" 1).mpr (.inr ⟨rfl,by decide,by decide,.inr ⟨['1'],by decide,0,by decide⟩⟩)
  have hzero : notes.forms.positionOf? ⟨2⟩ "01" = some 1 :=
    (hiff "01" 1).mpr (.inr ⟨rfl,by decide,by decide,.inl ⟨1,by decide⟩⟩)
  refine ⟨hr,hf,hlabel,(hiff "1" 1).mpr (.inl hlabel),hsigned,hzero,fun h => ?_⟩
  have hother := h.mp hsigned
  rw [hlabel] at hother
  exact absurd hother (by decide)

end Repository
end AddressedForms
