import AddressedForms.Proofs.Address.Division
set_option autoImplicit false

/-!
Canonical morphisms as maps. One after the other they are the canonical morphism from the first to
the last module, but for maps to the reals, which round; and from ring to ring they are maps of
rings, as far as sums and products exist at all.
-/

namespace AddressedForms

namespace Module

theorem embeds_cases {a b : Module} (h : a.embeds b) (hn : b ≠ .null) (hr : b ≠ .r) :
    (a = .z ∧ b = .q) ∨ ∃ m, b = .zn m ∧
      (a = .z ∨ ∃ n, a = .zn n ∧ n ≠ m ∧ m.toNat ∣ n.toNat) := by
  cases embeds_iff.mp h with
  | null => exact absurd rfl hn
  | reals | fractionsInReals => exact absurd rfl hr
  | fractions => exact .inl ⟨rfl,rfl⟩
  | residues m => exact .inr ⟨m,rfl,.inl rfl⟩
  | @divisor n m hne _ hd =>
    have hmod := congrArg UInt64.toNat hd
    rw [UInt64.toNat_mod] at hmod
    exact .inr ⟨m,rfl,.inr ⟨n,rfl,hne,Nat.dvd_of_mod_eq_zero hmod⟩⟩

theorem embeds_zn {n m : UInt64} (h : (zn m).isProper) (hne : n ≠ m) (hd : m.toNat ∣ n.toNat) :
    (zn n).embeds (zn m) := by
  have hmod : n%m = 0 := by
    refine UInt64.toNat_inj.mp ?_
    rw [UInt64.toNat_mod]
    exact Nat.mod_eq_zero_of_dvd hd
  have hm : m ≠ 0 := fun hz => toNat_ne_zero h (congrArg UInt64.toNat hz)
  exact embeds_iff.mpr (.divisor hne hm hmod)

theorem ne_of_embeds {b c : Module} (h : b.embeds c) (hn : c ≠ .null) : b ≠ .null ∧ b ≠ .r := by
  cases embeds_iff.mp h with
  | null => exact absurd rfl hn
  | _ => exact ⟨nofun,nofun⟩

theorem embeds_trans {a b c : Module} (hc : c.isProper) (h : a.embeds b) (k : b.embeds c)
    (hn : c ≠ .null) (hr : c ≠ .r) : a.embeds c := by
  obtain ⟨hbn,hbr⟩ := ne_of_embeds k hn
  rcases embeds_cases h hbn hbr with ⟨rfl,rfl⟩ | ⟨m,rfl,hm⟩
  · cases embeds_iff.mp k with
    | null => exact absurd rfl hn
    | fractionsInReals => exact absurd rfl hr
  · rcases embeds_cases k hn hr with ⟨hz,-⟩ | ⟨l,rfl,hz | ⟨m',hm',hml,hdm⟩⟩
    · cases hz
    · cases hz
    · cases hm'
      rcases hm with rfl | ⟨n,rfl,hnm,hdn⟩
      · rfl
      · refine embeds_zn hc (fun hnl => ?_) (hdm.trans hdn)
        subst hnl
        exact hnm (UInt64.toNat_inj.mp (Nat.dvd_antisymm hdm hdn))

end Module

namespace Fraction
variable {a b c : Int64}

theorem ofRat?_val (f : Fraction) : ofRat? f.val = some f := by
  rw [ofRat?,dif_pos ⟨f.num_fits,f.den_fits⟩]

theorem add?_ofInt64 (h : c.toInt = a.toInt+b.toInt) :
    (ofInt64 a).add? (ofInt64 b) = some (ofInt64 c) := by
  have hval : (ofInt64 a).val+(ofInt64 b).val = (ofInt64 c).val := by simp [ofInt64,h]
  have hone : fitsWord 1 := by decide
  rw [add?,hval]
  simpa [ofInt64,fitsWord_toInt,← h,hone] using ofRat?_val (ofInt64 c)

theorem mul?_ofInt64 (h : c.toInt = a.toInt*b.toInt) :
    (ofInt64 a).mul? (ofInt64 b) = some (ofInt64 c) := by
  have hval : (ofInt64 a).val*(ofInt64 b).val = (ofInt64 c).val := by simp [ofInt64,h]
  have hone : fitsWord 1 := by decide
  rw [mul?,hval]
  simpa [ofInt64,fitsWord_toInt,← h,hone] using ofRat?_val (ofInt64 c)

end Fraction

namespace Element
variable {x : Element} {n m : UInt64} {a b c : Int64}

theorem residue_congr (hn : (Module.zn n).isProper) (h : a.toInt ≡ b.toInt [ZMOD n.toNat]) :
    residue a n = residue b n := by
  rw [residue_of_modulus hn,residue_of_modulus hn,h]

theorem add_residue (hn : (Module.zn n).isProper)
    (h : c.toInt ≡ a.toInt+b.toInt [ZMOD n.toNat]) :
    (residue a n).add (residue b n) = .ok (residue c n) := by
  simp only [residue_of_modulus hn,add,if_true,toInt_remainder hn]
  rw [h,← Int.add_emod,Int.emod_emod_of_dvd _ (dvd_refl _)]

theorem mul_residue (hn : (Module.zn n).isProper)
    (h : c.toInt ≡ a.toInt*b.toInt [ZMOD n.toNat]) :
    (residue a n).mul (residue b n) = .ok (residue c n) := by
  simp only [residue_of_modulus hn,mul,module,if_true,toInt_remainder hn]
  rw [h,← Int.mul_emod,Int.emod_emod_of_dvd _ (dvd_refl _)]

theorem modEq_of_dvd (h : m.toNat ∣ n.toNat) (k : Int) : k%n.toNat ≡ k [ZMOD m.toNat] :=
  (Int.mod_modEq k n.toNat).of_dvd (by exact_mod_cast h)

theorem exists_of_module_z (h : x.module = .z) : ∃ k, x = .z k := by
  cases x <;> cases h
  exact ⟨_,rfl⟩

theorem exists_of_module_zn (h : x.module = .zn n) : ∃ k, x = .zn k n := by
  cases x <;> cases h
  exact ⟨_,rfl⟩

end Element

namespace Morphism
variable {a b c : Module} {f g : Morphism} {x y z : Element}

/-- Every element of the one module has a value in the other, found without a division by zero. -/
def IsMap (m : Morphism) (a b : Module) : Prop := ∀ x, x.module = a →
  ∃ y, y.module = b ∧ m.apply x = .ok y ∧ m.guardedApply x = Guarded.reached (.ok y)

/-- Wherever an operation has a result in a module, the images have the image of it for a result. -/
def Carries (f : Morphism) (a : Module) (op : Element → Element → Except MappingError Element) :
    Prop :=
  ∀ x y z, x.module = a → y.module = a → op x y = .ok z →
    ∃ x' y' z', f.apply x = .ok x' ∧ f.apply y = .ok y' ∧ f.apply z = .ok z' ∧ op x' y' = .ok z'

structure IsRingMap (f : Morphism) (a b : Module) : Prop where
  one : ∃ u v, a.one? = some u ∧ b.one? = some v ∧ f.apply u = .ok v
  add : f.Carries a Element.add
  mul : f.Carries a Element.mul

theorem isMap_of_canonical? (ha : a.isProper) (hb : b.isProper) (h : canonical? a b = some f) :
    f.IsMap a b := by
  intro x hx
  have hleads := leads_of_canonical? h ha hb
  obtain ⟨y,hy⟩ := exists_of_canonical? h hx
  have hmodule := (module_of_apply hy hleads.proper).trans hleads.codomain
  exact ⟨y,hmodule,hy,hy ▸ guardedApply_eq hleads.proper x⟩

/-- An embedding that follows another one takes elements where the embedding of the first module
takes them; residues are reduced twice, or at once. -/
theorem embed_embed (hb : b.isProper) (hc : c.isProper) (h : x.module.embeds b) (k : b.embeds c)
    (hn : c ≠ .null) (hr : c ≠ .r) (hy : embed x b = .ok y) : embed x c = embed y c := by
  obtain ⟨hbn,hbr⟩ := Module.ne_of_embeds k hn
  rcases Module.embeds_cases k hn hr with ⟨rfl,-⟩ | ⟨l,rfl,rfl | ⟨m,rfl,-,hdm⟩⟩
  · cases x <;> cases h
  · cases x <;> cases h
  · have hval (v : Int64) : Element.residue v l =
        Element.residue (Int64.ofInt (v.toInt%m.toNat)) l := by
      refine Element.residue_congr hc ?_
      rw [Element.toInt_remainder hb]
      exact (Element.modEq_of_dvd hdm _).symm
    rcases Module.embeds_cases h hbn hbr with ⟨-,hz⟩ | ⟨m',hm',hx | ⟨n,hx,-,-⟩⟩
    · cases hz
    · obtain ⟨v,rfl⟩ := Element.exists_of_module_z hx
      cases hy
      rw [Element.residue_of_modulus hb,embed,embed,hval]
    · obtain ⟨v,rfl⟩ := Element.exists_of_module_zn hx
      cases hy
      rw [Element.residue_of_modulus hb,embed,embed,hval]

theorem exists_canonical? (ha : a.isProper) (hb : b.isProper) (hc : c.isProper) (hr : c ≠ .r)
    (hf : canonical? a b = some f) (hg : canonical? b c = some g) :
    ∃ h, canonical? a c = some h ∧
      ∀ x, x.module = a → h.apply x = f.apply x >>= g.apply := by
  have hmap := isMap_of_canonical? ha hb hf
  cases canonical?_eq_some_iff.mp hg with
  | identity =>
    refine ⟨f,hf,fun x hx => ?_⟩
    obtain ⟨y,hyb,hy,-⟩ := hmap x hx
    rw [hy]
    exact (apply_identity hyb).symm
  | zero hb' =>
    have hnull : a ≠ .null := by
      rintro rfl
      cases canonical?_eq_some_iff.mp hf with
      | identity => exact hb' rfl
      | zero => exact hb' rfl
      | embedding he hn => exact (Module.ne_of_embeds he hn).1 rfl
    refine ⟨.constant a .null,canonical?_eq_some_iff.mpr (.zero hnull),fun x hx => ?_⟩
    obtain ⟨y,hyb,hy,-⟩ := hmap x hx
    rw [hy,apply_constant hx]
    exact (apply_constant hyb _).symm
  | embedding k hn =>
    cases canonical?_eq_some_iff.mp hf with
    | identity =>
      refine ⟨.embedding a c,hg,fun x hx => ?_⟩
      rw [apply_identity hx]
      rfl
    | zero => exact absurd rfl (Module.ne_of_embeds k hn).1
    | embedding h =>
      refine ⟨.embedding a c,
        canonical?_eq_some_iff.mpr (.embedding (Module.embeds_trans hc h k hn hr) hn),
        fun x hx => ?_⟩
      obtain ⟨y,hyb,hy,-⟩ := hmap x hx
      have hembed : embed x b = .ok y := (apply_embedding hx b).symm.trans hy
      calc (embedding a c).apply x = embed x c := apply_embedding hx c
        _ = embed y c := embed_embed hb hc (hx ▸ h) k hn hr hembed
        _ = (embedding b c).apply y := (apply_embedding hyb c).symm
        _ = (embedding a b).apply x >>= (embedding b c).apply := by rw [hy]; rfl

theorem isRingMap_identity (ha : a.isProper) (hring : a.isRing) : (identity a).IsRingMap a a := by
  have hone : ∃ u, a.one? = some u ∧ u.module = a := by
    cases a <;> cases hring <;> refine ⟨_,rfl,?_⟩
    · rfl
    · exact Element.module_residue ha 1
    · rfl
    · rfl
  obtain ⟨u,hu,hmodule⟩ := hone
  refine ⟨⟨u,u,hu,hu,apply_identity hmodule⟩,fun x y z hx hy hz => ?_,fun x y z hx hy hz => ?_⟩
  · have hza := (Element.module_of_add hz (hx ▸ ha)).trans hx
    exact ⟨x,y,z,apply_identity hx,apply_identity hy,apply_identity hza,hz⟩
  · have hza := (Element.module_of_mul hz (hy ▸ ha)).trans hy
    exact ⟨x,y,z,apply_identity hx,apply_identity hy,apply_identity hza,hz⟩

theorem isRingMap_of_integers {φ : Int64 → Element} (happly : ∀ i, f.apply (.z i) = .ok (φ i))
    (hone : b.one? = some (φ 1))
    (hadd : ∀ i j k : Int64, k.toInt = i.toInt+j.toInt → (φ i).add (φ j) = .ok (φ k))
    (hmul : ∀ i j k : Int64, k.toInt = i.toInt*j.toInt → (φ i).mul (φ j) = .ok (φ k)) :
    f.IsRingMap .z b := by
  refine ⟨⟨_,_,rfl,hone,happly 1⟩,fun x y z hx hy hz => ?_,fun x y z hx hy hz => ?_⟩
  all_goals
    obtain ⟨i,rfl⟩ := Element.exists_of_module_z hx
    obtain ⟨j,rfl⟩ := Element.exists_of_module_z hy
  · cases Element.added_of_add hz rfl rfl with
    | z h => exact ⟨_,_,_,happly _,happly _,happly _,hadd _ _ _ h⟩
  · cases Element.multiplied_of_mul hz rfl with
    | z h => exact ⟨_,_,_,happly _,happly _,happly _,hmul _ _ _ h⟩

theorem isRingMap_divisor {n m : UInt64} (hn : (Module.zn n).isProper)
    (hm : (Module.zn m).isProper) (hd : m.toNat ∣ n.toNat) :
    (embedding (.zn n) (.zn m)).IsRingMap (.zn n) (.zn m) := by
  have happly (v : Int64) :
      (embedding (.zn n) (.zn m)).apply (.zn v n) = .ok (.residue v m) := apply_embedding rfl _
  have hone : (Int64.ofInt ((1 : Int64).toInt%n.toNat)).toInt ≡ (1 : Int64).toInt
      [ZMOD m.toNat] := by
    rw [Element.toInt_remainder hn]
    exact Element.modEq_of_dvd hd _
  refine ⟨⟨_,_,rfl,rfl,?_⟩,fun x y z hx hy hz => ?_,fun x y z hx hy hz => ?_⟩
  · rw [Element.residue_of_modulus hn,happly,Element.residue_congr hm hone]
  all_goals
    obtain ⟨i,rfl⟩ := Element.exists_of_module_zn hx
    obtain ⟨j,rfl⟩ := Element.exists_of_module_zn hy
  · cases Element.added_of_add hz rfl hn with
    | zn h => exact ⟨_,_,_,happly _,happly _,happly _,
        Element.add_residue hm (h ▸ Element.modEq_of_dvd hd _)⟩
  · cases Element.multiplied_of_mul hz hn with
    | zn h => exact ⟨_,_,_,happly _,happly _,happly _,
        Element.mul_residue hm (h ▸ Element.modEq_of_dvd hd _)⟩

theorem isRingMap_of_embeds (ha : a.isProper) (hb : b.isProper) (h : a.embeds b)
    (hn : b ≠ .null) (hr : b ≠ .r) : (embedding a b).IsRingMap a b := by
  rcases Module.embeds_cases h hn hr with ⟨rfl,rfl⟩ | ⟨m,rfl,rfl | ⟨n,rfl,-,hd⟩⟩
  · refine isRingMap_of_integers (fun i => apply_embedding rfl _) rfl (fun i j k hk => ?_)
      fun i j k hk => ?_
    · rw [Element.add,Fraction.add?_ofInt64 hk,Element.ofFraction]
    · rw [Element.mul,Fraction.mul?_ofInt64 hk,Element.ofFraction]
  · exact isRingMap_of_integers (fun i => apply_embedding rfl _) rfl
      (fun i j k hk => Element.add_residue hb (hk ▸ .refl _))
      fun i j k hk => Element.mul_residue hb (hk ▸ .refl _)
  · exact isRingMap_divisor ha hb hd

/-- Canonical morphisms between modules with moduli that fit, the last one not the reals: where one
leads on from another, there is one all the way, which takes every element to where they take it in
turn; all of them are defined everywhere; and from ring to ring, reals apart, the first is a map of
rings. -/
theorem canonical?_coherent (ha : a.isProper) (hb : b.isProper) (hc : c.isProper) (hr : c ≠ .r)
    (hf : canonical? a b = some f) (hg : canonical? b c = some g) :
    ∃ h, canonical? a c = some h ∧ f.IsMap a b ∧ g.IsMap b c ∧ h.IsMap a c ∧
      (∀ x, x.module = a → h.apply x = f.apply x >>= g.apply) ∧
      (a.isRing → b.isRing → b ≠ .r → f.IsRingMap a b) := by
  obtain ⟨h,hh,happly⟩ := exists_canonical? ha hb hc hr hf hg
  refine ⟨h,hh,isMap_of_canonical? ha hb hf,isMap_of_canonical? hb hc hg,
    isMap_of_canonical? ha hc hh,happly,fun hra hrb hbr => ?_⟩
  cases canonical?_eq_some_iff.mp hf with
  | identity => exact isRingMap_identity ha hra
  | zero => cases hrb
  | embedding he hn => exact isRingMap_of_embeds ha hb he hn hbr

/-- Of twelve pitch classes the intervals of four and of two semitones are left, however a class is
written. -/
theorem canonical?_pitchClasses :
    let f : Morphism := .embedding (.zn 12) (.zn 4)
    let h : Morphism := .embedding (.zn 12) (.zn 2)
    canonical? (.zn 12) (.zn 4) = some f ∧
    canonical? (.zn 4) (.zn 2) = some (.embedding (.zn 4) (.zn 2)) ∧
    canonical? (.zn 12) (.zn 2) = some h ∧ h.IsMap (.zn 12) (.zn 2) ∧
    h.apply (.zn (-7) 12) = .ok (.zn 1 2) ∧ f.IsRingMap (.zn 12) (.zn 4) := by
  intro f h
  have hf : canonical? (.zn 12) (.zn 4) = some f := by decide
  have hg : canonical? (.zn 4) (.zn 2) = some (.embedding (.zn 4) (.zn 2)) := by decide
  obtain ⟨h',hh,-,-,hmap,happly,hring⟩ :=
    canonical?_coherent (by decide) (by decide) (by decide) (by decide) hf hg
  obtain rfl : h = h' := Option.some.inj ((show canonical? _ _ = some h by decide).symm.trans hh)
  exact ⟨hf,hg,hh,hmap,(happly _ rfl).trans (by decide),hring rfl rfl (by decide)⟩

end Morphism
end AddressedForms
