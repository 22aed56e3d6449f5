import AddressedForms.Proofs.Address.Composition
set_option autoImplicit false

/-!
Evaluation where a division by zero has no result. The moduli and denominators that are divided by
are checked on the way, and the evaluation comes to nothing if one of them is zero. It always comes
to what `apply` gives if all moduli fit a signed word, whether or not the morphism is well typed.
-/

namespace AddressedForms

def remainder? (a : Int) (n : Nat) : Option Int := if n = 0 then none else some (a%n)

theorem remainder?_eq_some (a : Int) {n : Nat} (h : n ≠ 0) : remainder? a n = some (a%n) := if_neg h

/-- Results with errors, or nothing at all after a division by zero. -/
abbrev Guarded (α : Type) := ExceptT MappingError Option α

namespace Guarded
variable {α β : Type}

def reached (r : Except MappingError α) : Guarded α := ExceptT.mk (some r)

theorem reached_bind {r : Except MappingError α} {f : α → Guarded β}
    {k : α → Except MappingError β} (h : ∀ x, r = .ok x → f x = reached (k x)) :
    reached r >>= f = reached (r >>= k) := by
  cases r with
  | error e => rfl
  | ok x => exact h x rfl

theorem some_bind (x : α) (f : α → Guarded β) :
    (liftM (some x) : Guarded α) >>= f = f x := rfl

theorem map_reached (r : Except MappingError α) (k : α → β) :
    k <$> reached r = reached (r.map k) := by cases r <;> rfl

end Guarded

open Guarded

theorem Fraction.den_ne_zero (q : Fraction) : q.den ≠ 0 := by
  intro h
  have hfits := q.den_fits
  have hpos := q.val.den_pos
  simp only [fitsWord,Bool.and_eq_true,decide_eq_true_eq] at hfits
  have hden : q.den.toInt = q.val.den := Int64.toInt_ofInt_of_le hfits.1 hfits.2
  rw [h,Int64.toInt_zero] at hden
  omega

namespace Element
variable {x y : Element}

def guardedResidue (value : Int64) (modulus : UInt64) : Guarded Element := do
  let n := max 1 (min modulus Module.maxModulus)
  let v ← remainder? value.toInt n.toNat
  pure (.zn (Int64.ofInt v) n)

mutual
def guardedAdd : Element → Element → Guarded Element
  | .zn a m, .zn b n =>
    if m = n then do
      let v ← remainder? (a.toInt+b.toInt) m.toNat
      guardedResidue (Int64.ofInt v) m
    else reached (.error (.moduleMismatch (.zn m) (.zn n)))
  | .product xs, .product ys =>
    if xs.length = ys.length then .product <$> guardedAddAll xs ys
    else reached (.error (.moduleMismatch (.product (modules xs)) (.product (modules ys))))
  | x, y => reached (x.add y)
def guardedAddAll : List Element → List Element → Guarded (List Element)
  | x :: xs, y :: ys => do
    let z ← x.guardedAdd y
    let zs ← guardedAddAll xs ys
    pure (z :: zs)
  | _, _ => pure []
end

def guardedMul : Element → Element → Guarded Element
  | .zn a m, .zn b n =>
    if m = n then do
      let v ← remainder? (a.toInt*b.toInt) m.toNat
      guardedResidue (Int64.ofInt v) m
    else reached (.error (.moduleMismatch (.zn m) (.zn n)))
  | x, y => reached (x.mul y)

/-- No modulus is zero once it has been brought into its range. -/
theorem guardedResidue_eq (value : Int64) (modulus : UInt64) :
    guardedResidue value modulus = reached (.ok (residue value modulus)) := by
  have hpos : (max 1 (min modulus Module.maxModulus)).toNat ≠ 0 := by
    intro hz
    have hone : (1 : UInt64) ≤ max 1 (min modulus Module.maxModulus) := by
      show (1 : UInt64) ≤ if _ then _ else _
      split
      · assumption
      · exact UInt64.le_refl 1
    rw [UInt64.le_iff_toNat_le,hz] at hone
    exact absurd hone (by decide)
  rw [guardedResidue,remainder?_eq_some _ hpos]
  rfl

theorem guardedAdd_eq (hx : x.module.isProper) : x.guardedAdd y = reached (x.add y) := by
  induction x using Element.rec (motive_2 := fun xs => ∀ ys, Module.allProper (modules xs) →
    guardedAddAll xs ys = reached (addAll xs ys)) generalizing y with
  | zn a m =>
    cases y <;> try rfl
    rename_i b n
    rw [guardedAdd,add]
    split
    · rw [remainder?_eq_some _ (Module.toNat_ne_zero hx),some_bind,guardedResidue_eq]
    · rfl
  | product xs ih =>
    cases y <;> try rfl
    rename_i ys
    rw [guardedAdd,add]
    split
    · rw [ih ys hx,map_reached]
    · rfl
  | nil => rename_i ys hx; cases ys <;> rfl
  | cons x xs ihx ihxs =>
    rename_i ys hx
    cases ys with
    | nil => rfl
    | cons y ys =>
      obtain ⟨hx,hxs⟩ := Bool.and_eq_true_iff.mp hx
      rw [guardedAddAll,addAll,ihx hx]
      refine reached_bind fun z _ => ?_
      rw [ihxs ys hxs]
      exact reached_bind fun zs _ => rfl
  | null | z _ | q _ | r _ => cases y <;> rfl

theorem guardedMul_eq (hy : y.module.isProper) : x.guardedMul y = reached (x.mul y) := by
  unfold guardedMul
  split
  · rename_i a m b n
    split
    · rename_i hmn
      subst hmn
      rw [remainder?_eq_some _ (Module.toNat_ne_zero hy),some_bind,guardedResidue_eq]
      simp [mul,module]
    · rename_i hmn
      simp [mul,module,hmn]
  · rfl

end Element

namespace Morphism
variable {f g : Morphism} {c : Module}

def guardedEmbed : Element → Module → Guarded Element
  | .z v, .zn n => Element.guardedResidue v n
  | .zn v _, .zn n => Element.guardedResidue v n
  | .q v, .r => if v.den = 0 then ExceptT.mk none else reached (embed (.q v) .r)
  | x, c => reached (embed x c)

def guardedApply : Morphism → Element → Guarded Element
  | .affine k a b, x => do
    reached (requireIn k x)
    let y ← a.guardedMul x
    y.guardedAdd b
  | .embedding d c, x => do
    reached (requireIn d x)
    guardedEmbed x c
  | .composition f g, x => do
    reached (requireIn g.domain x)
    let y ← g.guardedApply x
    f.guardedApply y
  | f, x => reached (f.apply x)

theorem guardedEmbed_eq (x : Element) (c : Module) : guardedEmbed x c = reached (embed x c) := by
  unfold guardedEmbed
  split
  · exact Element.guardedResidue_eq _ _
  · exact Element.guardedResidue_eq _ _
  · exact if_neg (Fraction.den_ne_zero _)
  · rfl

theorem guardedApply_eq (hf : f.modulesProper) (x : Element) :
    f.guardedApply x = reached (f.apply x) := by
  induction f generalizing x with
  | constant d v => rfl
  | identity m => rfl
  | affine k a b =>
    refine reached_bind fun _ hx => ?_
    obtain rfl := requireIn_eq_ok_iff.mp hx
    have hk : x.module.isProper := isProper_domain hf
    rw [Element.guardedMul_eq hk]
    refine reached_bind fun y hy => Element.guardedAdd_eq ?_
    exact Element.module_of_mul hy hk ▸ hk
  | embedding d c => exact reached_bind fun _ _ => guardedEmbed_eq x c
  | composition f g ihf ihg =>
    obtain ⟨hf,hg⟩ := Bool.and_eq_true_iff.mp hf
    refine reached_bind fun _ _ => ?_
    rw [ihg hg x]
    exact reached_bind fun y _ => ihf hf y

/-- Morphisms with moduli that fit, well typed or not: no evaluation divides by zero, values lie in
the codomain, and a composition exists for matching modules alone and is the composition of the
maps, from the one domain to the other codomain. -/
theorem evaluates_and_composes (hf : f.modulesProper) (hg : g.modulesProper) :
    (∀ x, f.guardedApply x = reached (f.apply x)) ∧
    (∀ x y, f.apply x = .ok y → f.codomain.contains y) ∧
    (g.codomain ≠ f.domain → f.compose g = .error (.notComposable g.codomain f.domain)) ∧
    ∀ h, f.compose g = .ok h → h.domain = g.domain ∧ h.codomain = f.codomain ∧
      (¬ (f.scalesReals ∨ g.scalesReals) → ∀ x y z w, h.apply x = .ok y → g.apply x = .ok z →
        f.apply z = .ok w → y = w) := by
  refine ⟨guardedApply_eq hf,fun x y hy => ?_,fun hne => if_pos hne,fun h hc => ?_⟩
  · exact decide_eq_true (module_of_apply hy hf)
  · obtain ⟨hdomain,hcodomain,-⟩ := leads_of_compose hc hf hg
    refine ⟨hdomain,hcodomain,fun hr x y z w hy hz hw => ?_⟩
    exact apply_compose hc hf hg (fun hs => hr (.inl hs)) hy hz hw

/-- Two affine maps of the residues of twelve, the inner one with coefficients that are no residues
themselves. -/
theorem composes_transpositions :
    let f : Morphism := .affine (.zn 12) (.zn 5 12) (.zn 7 12)
    let g : Morphism := .affine (.zn 12) (.zn (-1) 12) (.zn 26 12)
    let h : Morphism := .affine (.zn 12) (.zn 7 12) (.zn 5 12)
    f.compose g = .ok h ∧ h.domain = g.domain ∧ h.codomain = f.codomain ∧
    f.guardedApply (.zn 1 12) = reached (.ok (.zn 0 12)) ∧ f.codomain.contains (.zn 0 12) ∧
    f.compose (.identity .q) = .error (.notComposable .q (.zn 12)) ∧
    (h.apply (.zn 1 12)).isOk ∧ ∀ y, h.apply (.zn 1 12) = .ok y → y = .zn 0 12 := by
  intro f g h
  have hf : f.modulesProper := by decide
  have hg : g.modulesProper := by decide
  have hc : f.compose g = .ok h := by decide
  have hw : f.apply (.zn 1 12) = .ok (.zn 0 12) := by decide
  obtain ⟨hguarded,hvalue,-,hcompose⟩ := evaluates_and_composes hf hg
  obtain ⟨-,-,hother,-⟩ := evaluates_and_composes hf (g := .identity .q) (by decide)
  obtain ⟨hdomain,hcodomain,happly⟩ := hcompose h hc
  refine ⟨hc,hdomain,hcodomain,hw ▸ hguarded _,hvalue _ _ hw,hother (by decide),by decide,
    fun y hy => ?_⟩
  exact happly (by decide) _ _ _ _ hy (by decide) hw

end Morphism
end AddressedForms
