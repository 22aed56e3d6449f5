import AddressedForms.Proofs.Form.Growth
import AddressedForms.Proofs.Hash.Canonical
set_option autoImplicit false

/-!
What the fingerprint of a form tells. It covers the name, the kind, and the module or the names of
the sub-forms. Forms that agree so far have one fingerprint, whatever their sub-forms are like, and
so have forms that are the same; other forms have a different one, unless two different strings
have one hash. Nothing is supposed of the hash function.
-/

namespace AddressedForms

theorem Canonical.delimits_kind (a b : Kind) :
    Delimits (fun k => [k.ordinal.toUInt8]) a b := by
  refine @delimits_of_length _ _ 1 (fun _ => rfl) _ _ fun h => ?_
  revert h
  cases a <;> cases b <;> decide

namespace FormGraph
open Canonical
variable {hash : List UInt8 → Digest} {g : FormGraph} {a b : FormId} {x y : Form}

/-- Forms that agree as far as the names of their sub-forms. -/
structure SameSurface (g : FormGraph) (x y : Form) : Prop where
  name : x.name = y.name
  kind : x.kind = y.kind
  module : x.module? = y.module?
  parts : x.subForms.map g.name? = y.subForms.map g.name?

theorem Similar.sameSurface (h : g.Similar a b) (ha : g.get? a = some x) (hb : g.get? b = some y) :
    g.SameSurface x y := by
  have hmodule (f : Form) : f.module? = f.body.module? := by
    obtain ⟨-,body,-,-⟩ := f
    cases body <;> rfl
  obtain ⟨e,he,hname,hbody⟩ := h.exists_form ha
  cases hb.symm.trans he
  exact ⟨hname.symm,hbody.kind_eq,by rw [hmodule,hmodule,hbody.module_eq],
    map_eq_of_forall₂ hbody.subForms fun _ _ hs => hs.name?_eq⟩

def partNames (g : FormGraph) (f : Form) : List String :=
  f.subForms.map fun sub => (g.name? sub).getD ""

theorem Sound.map_name? (hg : g.Sound) (ha : g.get? a = some x) :
    x.subForms.map g.name? = (g.partNames x).map some := by
  rw [partNames,List.map_map]
  refine List.map_congr_left fun sub hsub => ?_
  obtain ⟨name,hname⟩ := contains_iff_name?.mp (hg.issued a x ha sub hsub)
  simp [hname]

def message (g : FormGraph) (f : Form) : List UInt8 :=
  separated (utf8 Domain.form.name) (g.formBytes f)

theorem fingerprint?_of_get? (ha : g.get? a = some x) :
    g.fingerprint? hash a = some (hash (g.message x)) := by
  rw [fingerprint?,ha]
  rfl

def payload (g : FormGraph) (f : Form) : List UInt8 :=
  match f.module? with
  | some m => m.canonical
  | none => count f.count ++ (g.partNames f).flatMap text

theorem formBytes_eq (f : Form) :
    g.formBytes f = text f.name ++ ([f.kind.ordinal.toUInt8] ++ g.payload f) := by
  obtain ⟨name,body,labels,registered⟩ := f
  cases body <;> simp [formBytes,bodyBytes,payload,Form.module?,Form.count,Form.subForms,partNames,
    List.flatMap_map]

/-- The surface is all that is hashed. -/
theorem SameSurface.message_eq (h : g.SameSurface x y) : g.message x = g.message y := by
  have hcount : x.count = y.count := by simpa [Form.count] using congrArg List.length h.parts
  have hnames (f : Form) : g.partNames f = (f.subForms.map g.name?).map (·.getD "") := by
    rw [List.map_map]
    rfl
  rw [message,message,formBytes_eq,formBytes_eq,payload,payload,hnames x,hnames y,h.name,h.kind,
    h.module,h.parts,hcount]

theorem Similar.fingerprint?_eq (h : g.Similar a b) :
    g.fingerprint? hash a = g.fingerprint? hash b := by
  rcases h.agree with rfl | ⟨x,y,ha,hb,-,-⟩
  · rfl
  · rw [fingerprint?_of_get? ha,fingerprint?_of_get? hb,(h.sameSurface ha hb).message_eq]

def isCountable (g : FormGraph) (f : Form) : Bool :=
  countable (utf8 f.name).length && f.module?.all Module.isCountable && countable f.count &&
    (g.partNames f).all fun name => countable (utf8 name).length

theorem payload_inj (hkind : x.kind = y.kind) (hx : g.isCountable x) (hy : g.isCountable y)
    (h : g.payload x = g.payload y) : x.module? = y.module? ∧ g.partNames x = g.partNames y := by
  simp only [isCountable,Bool.and_eq_true,List.all_eq_true] at hx hy
  obtain ⟨⟨⟨-,hxm⟩,hxc⟩,hxs⟩ := hx
  obtain ⟨⟨⟨-,hym⟩,hyc⟩,hys⟩ := hy
  obtain ⟨_,xbody,_,_⟩ := x
  obtain ⟨_,ybody,_,_⟩ := y
  cases xbody with
  | simple m =>
    cases ybody <;> cases hkind
    obtain rfl := (Module.delimits_canonical hxm hym).inj h
    exact ⟨rfl,rfl⟩
  | limit | colimit | power | list =>
    cases ybody <;> cases hkind
    obtain ⟨hcount,hparts⟩ := delimits_count hxc hyc _ _ h
    refine ⟨rfl,(delimits_flatMap ?_ fun s hs t ht => delimits_text (hxs s hs) (hys t ht)).inj hparts⟩
    rw [partNames,partNames,List.length_map,List.length_map]
    exact hcount

theorem Sound.sameSurface_of_message_eq (hg : g.Sound) (ha : g.get? a = some x)
    (hb : g.get? b = some y) (hx : g.isCountable x) (hy : g.isCountable y)
    (h : g.message x = g.message y) : g.SameSurface x y := by
  have hname {f : Form} (hf : g.isCountable f) : countable (utf8 f.name).length := by
    simp only [isCountable,Bool.and_eq_true] at hf
    exact hf.1.1.1
  have hbytes := separated_inj h
  rw [formBytes_eq,formBytes_eq] at hbytes
  obtain ⟨hnames,hbytes⟩ := delimits_text (hname hx) (hname hy) _ _ hbytes
  obtain ⟨hkind,hbytes⟩ := delimits_kind _ _ _ _ hbytes
  obtain ⟨hmodule,hparts⟩ := payload_inj hkind hx hy hbytes
  exact ⟨hnames,hkind,hmodule,by rw [hg.map_name? ha,hg.map_name? hb,hparts]⟩

/-- The fingerprint of a form is that of all forms of the same surface, the same form among them,
and of no other form unless hashes collide; and it is there to stay once it has been taken. -/
theorem Reachable.fingerprint?_eq_iff_sameSurface (hg : g.Reachable) (ha : g.get? a = some x)
    (hb : g.get? b = some y) :
    (g.sameForm a b → g.SameSurface x y ∧
      ∃ w, g.fingerprint? hash a = some w ∧ g.fingerprint? hash b = some w) ∧
    (g.SameSurface x y → g.fingerprint? hash a = g.fingerprint? hash b) ∧
    (g.isCountable x → g.isCountable y → g.fingerprint? hash a = g.fingerprint? hash b →
      g.SameSurface x y ∨ Collide hash (g.message x) (g.message y)) ∧
    ∀ h : FormGraph, h.Reachable → h.Follows g →
      ∀ id w, h.fingerprint? hash id = some w → g.fingerprint? hash id = some w := by
  have hfa : g.fingerprint? hash a = some (hash (g.message x)) := fingerprint?_of_get? ha
  have hfb : g.fingerprint? hash b = some (hash (g.message y)) := fingerprint?_of_get? hb
  refine ⟨fun hab => ?_,fun hxy => ?_,fun hx hy hw => ?_,fun h hh hf id w => ?_⟩
  · have hxy := ((sameForm_iff_similar hg.sound.namesUnique a b).mp hab).sameSurface ha hb
    exact ⟨hxy,_,hfa,by rw [hfb,hxy.message_eq]⟩
  · rw [hfa,hfb,hxy.message_eq]
  · rw [hfa,hfb,Option.some.injEq] at hw
    by_cases hm : g.message x = g.message y
    · exact .inl (hg.sound.sameSurface_of_message_eq ha hb hx hy hm)
    · exact .inr ⟨hm,hw⟩
  · exact hf.grows.fingerprint?_eq hh.sound

def chords : FormGraph :=
  let pitch (m : Module) : Slot := .defined ⟨"Pitch",.simple m,none,false⟩
  let chord (pitch : Nat) : Slot := .defined ⟨"Chord",.power ⟨pitch⟩,none,false⟩
  ⟨[pitch .z,pitch .z,pitch .q,chord 0,chord 1,chord 2],.empty⟩

theorem reachable_chords : chords.Reachable :=
  let pitches := ((Reachable.empty.add "Pitch" (.simple .z)).add "Pitch" (.simple .z)).add "Pitch"
    (.simple .q)
  ((pitches.add "Chord" (.power ⟨0⟩)).add "Chord" (.power ⟨1⟩)).add "Chord" (.power ⟨2⟩)

/-- All chords have one fingerprint, although the third ones are of another form; pitches of
different modules have the same only if their messages collide. -/
theorem fingerprint?_chords :
    let pitch (m : Module) : Form := ⟨"Pitch",.simple m,none,false⟩
    let fingerprint? := chords.fingerprint? Sha256.digest
    chords.Reachable ∧ chords.sameForm ⟨3⟩ ⟨4⟩ ∧ fingerprint? ⟨3⟩ = fingerprint? ⟨4⟩ ∧
    chords.sameForm ⟨3⟩ ⟨5⟩ = false ∧ fingerprint? ⟨3⟩ = fingerprint? ⟨5⟩ ∧
    (fingerprint? ⟨0⟩ = fingerprint? ⟨2⟩ →
      Collide Sha256.digest (chords.message (pitch .z)) (chords.message (pitch .q))) := by
  intro pitch fingerprint?
  have hsame : chords.sameForm ⟨3⟩ ⟨4⟩ := by cbv
  have hother : chords.sameForm ⟨3⟩ ⟨5⟩ = false := by cbv
  obtain ⟨hcopy,-⟩ := @Reachable.fingerprint?_eq_iff_sameSurface Sha256.digest chords ⟨3⟩ ⟨4⟩ _ _
    reachable_chords rfl rfl
  obtain ⟨-,hsurface,-⟩ := @Reachable.fingerprint?_eq_iff_sameSurface Sha256.digest chords ⟨3⟩ ⟨5⟩
    _ _ reachable_chords rfl rfl
  obtain ⟨-,-,hcollide,-⟩ := @Reachable.fingerprint?_eq_iff_sameSurface Sha256.digest chords ⟨0⟩
    ⟨2⟩ _ _ reachable_chords rfl rfl
  obtain ⟨-,w,hw,hw'⟩ := hcopy hsame
  refine ⟨reachable_chords,hsame,hw.trans hw'.symm,hother,hsurface ⟨rfl,rfl,rfl,rfl⟩,fun h => ?_⟩
  refine (hcollide (by decide) (by decide) h).resolve_left fun hs => ?_
  exact absurd hs.module (by decide)

end FormGraph
end AddressedForms
