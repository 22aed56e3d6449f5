import AddressedForms.Proofs.Form.Registry
import AddressedForms.Proofs.Repository.Growth
set_option autoImplicit false

/-!
Registered forms over time. Whatever is done to a repository after a form has been registered, the
name goes on to belong to what it was registered as.
-/

namespace AddressedForms
namespace Repository

/-- Registering is idempotent and stable, and is refused for the sake of another form of the name
alone; with labels it does the same and nothing else but label the form that has the name. What is
refused changes nothing, although graphs are changed in place. -/
theorem register_stands (as bs : List Action) {id : FormId} {f : Form}
    (hf : (empty.run as).forms.get? id = some f) :
    let g := (empty.run as).forms
    (∀ held h, g.register id = .ok (held,h) →
      let s := (run {empty.run as with forms := h} bs).forms
      s.equalForms held id ∧ s.lookup? f.name = some held ∧ s.register id = .ok (held,s)) ∧
    (∀ e, g.register id = .error e ↔ e = .duplicateName f.name ∧ ∃ other k,
      g.get? other = some k ∧ k.registered ∧ k.name = f.name ∧ ¬ g.sameForm other id) ∧
    (∀ labels, ¬ f.Takes labels → g.registerLabelled id labels = .error (.invalidLabels f.name)) ∧
    (∀ labels, f.Takes labels →
      (g.registerLabelled id labels).map Prod.fst = (g.register id).map Prod.fst ∧
      ∀ held h, g.register id = .ok (held,h) →
        ∃ k, g.registerLabelled id labels = .ok (held,k) ∧ h.Relabels labels held k) ∧
    (FormGraph.InPlace.register id).answer g = FormGraph.InPlace.settled g (g.register id) ∧
    ∀ labels, (FormGraph.InPlace.registerLabelled id labels).answer g =
      FormGraph.InPlace.settled g (g.registerLabelled id labels) := by
  intro g
  have hg : g.Reachable := Reachable.forms ⟨as,rfl⟩
  refine ⟨fun held h hr => ?_,fun e => hg.sound.register_eq_error_iff hf,
    fun labels => FormGraph.registerLabelled_of_not_takes hf,
    fun labels => hg.sound.registerLabelled_of_takes hf,
    FormGraph.InPlace.answer_register g id,FormGraph.InPlace.answer_registerLabelled g id⟩
  intro s
  have hfollows : h.Follows s := (follows_run {empty.run as with forms := h} bs).forms
  have hu := (hfollows.reachable (hg.register hr)).sound.namesUnique
  have hname : s.name? id = some f.name :=
    hfollows.grows.name id f.name ((FormGraph.Grows.register hr).name id f.name
      (FormGraph.name?_of_get? hf))
  have hnames : s.Names held id := (hg.sound.names_of_register hr).grows hfollows.grows
  refine ⟨?_,hnames.lookup? hname,hnames.register hu⟩
  obtain ⟨-,-,-,hsim⟩ := hnames
  exact (FormGraph.equalForms_iff_similar hu held id).mpr hsim

def loops : List Action :=
  [.declare "A" .colimit,.define ⟨0⟩ (.colimit [⟨0⟩]) none,.declare "A" .colimit,
    .define ⟨1⟩ (.colimit [⟨1⟩]) none,.registerForm ⟨0⟩,.add "A" (.list ⟨0⟩)]

/-- The copy is registered as the sum, whatever else is registered later, so labels for the copy go
to the sum. The sequence is refused. -/
theorem register_loops :
    let g := (empty.run loops).forms
    let s := ((empty.run loops).run [.registerFormLabelled ⟨1⟩ ["next"],.registerForm ⟨2⟩]).forms
    g.register ⟨1⟩ = .ok (⟨0⟩,g) ∧ s.equalForms ⟨0⟩ ⟨1⟩ ∧ s.lookup? "A" = some ⟨0⟩ ∧
    s.register ⟨1⟩ = .ok (⟨0⟩,s) ∧ g.register ⟨2⟩ = .error (.duplicateName "A") ∧
    (∃ k, g.registerLabelled ⟨1⟩ ["next"] = .ok (⟨0⟩,k) ∧ g.Relabels ["next"] ⟨0⟩ k) ∧
    g.registerLabelled ⟨2⟩ ["next"] = .error (.invalidLabels "A") := by
  intro g s
  let sum : Form := ⟨"A",.colimit [⟨0⟩],none,true⟩
  let copy : Form := ⟨"A",.colimit [⟨1⟩],none,false⟩
  let sequence : Form := ⟨"A",.list ⟨0⟩,none,false⟩
  have hslots : g.slots = [.defined sum,.defined copy,.defined sequence] := rfl
  have hget {i : Nat} {f : Form} (hf : g.slots[i]? = some (.defined f)) : g.get? ⟨i⟩ = some f :=
    FormGraph.get?_eq_some_iff.mpr hf
  have hsum : g.get? ⟨0⟩ = some sum := hget (by rw [hslots]; rfl)
  have hcopy : g.get? ⟨1⟩ = some copy := hget (by rw [hslots]; rfl)
  have hsequence : g.get? ⟨2⟩ = some sequence := hget (by rw [hslots]; rfl)
  have hg : g.Sound := (Reachable.forms ⟨loops,rfl⟩).sound
  have hheld : g.lookup? "A" = some ⟨0⟩ := (hg.held "A" ⟨0⟩).mpr ⟨sum,hsum,rfl,rfl⟩
  have hsame := FormGraph.sameForm_iff_similar hg.namesUnique
  have hlike : g.Similar ⟨0⟩ ⟨1⟩ := by
    refine ⟨fun a b => a = ⟨0⟩ ∧ b = ⟨1⟩,⟨rfl,rfl⟩,?_⟩
    rintro a b ⟨rfl,rfl⟩
    exact .inr ⟨sum,copy,hsum,hcopy,rfl,rfl,rfl,.cons ⟨rfl,rfl⟩ .nil⟩
  have hunlike : ¬ g.Similar ⟨0⟩ ⟨2⟩ := by
    intro h
    obtain ⟨e,he,-,hbody⟩ := h.exists_form hsum
    cases hsequence.symm.trans he
    cases hbody.kind_eq
  have hr : g.register ⟨1⟩ = .ok (⟨0⟩,g) :=
    FormGraph.register_eq_ok_iff.mpr ⟨copy,hcopy,.inl ⟨hheld,.inr ((hsame _ _).mpr hlike),rfl⟩⟩
  obtain ⟨hstands,-,-,htakes,-⟩ := register_stands loops
    [.registerFormLabelled ⟨1⟩ ["next"],.registerForm ⟨2⟩] hcopy
  obtain ⟨-,hrefused,hlabels,-⟩ := register_stands loops [] hsequence
  obtain ⟨hequal,hlookup,hagain⟩ := hstands ⟨0⟩ g hr
  have hlabelled := (htakes ["next"] ⟨.inr rfl,by decide,rfl⟩).2 ⟨0⟩ g hr
  refine ⟨hr,hequal,hlookup,hagain,?_,hlabelled,?_⟩
  · exact (hrefused _).mpr ⟨rfl,⟨0⟩,sum,hsum,rfl,rfl,fun h => hunlike ((hsame _ _).mp h)⟩
  · refine hlabels ["next"] ?_
    rintro ⟨hkind | hkind,-⟩ <;> cases hkind

end Repository
end AddressedForms
