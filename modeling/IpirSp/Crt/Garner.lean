import Mathlib.Data.Int.ModEq
import Mathlib.Tactic

/-!
# Reconstruction from residues

An integer that is small against a product of moduli is determined by its residues.  `garner` is
the incremental algorithm: it keeps a nonnegative representative `x` modulo the product `m` of the
moduli met so far and, for the next modulus, adds the multiple of `m` that also corrects `x` there.
`signed` then picks the representative around zero.

`Represents` is the invariant, `Represents.step` one modulus, and `signed_garner` the result: an
integer of magnitude below half the product comes back exactly.
-/

namespace Crt

/-- One modulus to add: the modulus, the inverse of the product before it, and the residue. -/
structure Residue where
  modulus : ℕ
  inverse : ℕ
  residue : ℕ

/-- The state `(x, m)` after one more modulus. -/
def garnerStep (state : ℕ × ℕ) (r : Residue) : ℕ × ℕ :=
  let (acc, m) := state
  let delta := (r.residue + r.modulus - acc % r.modulus) % r.modulus
  (acc + m * (delta * r.inverse % r.modulus), m * r.modulus)

/-- The state after a list of moduli. -/
def garner (start : ℕ × ℕ) (rs : List Residue) : ℕ × ℕ := rs.foldl garnerStep start

/-- The representative around zero. -/
def signed (acc product : ℕ) : ℤ :=
  if acc > product / 2 then (acc : ℤ) - product else acc

/-- The state holds the reduced residue of `z`. -/
def Represents (z : ℤ) (state : ℕ × ℕ) : Prop :=
  state.1 < state.2 ∧ (state.1 : ℤ) ≡ z [ZMOD state.2]

/-- A residue of `z` with the inverse that the step needs. -/
structure Residue.IsFor (r : Residue) (z : ℤ) (m : ℕ) : Prop where
  pos : 0 < r.modulus
  inverse_mul : (m : ℤ) * r.inverse ≡ 1 [ZMOD r.modulus]
  residue : (r.residue : ℤ) ≡ z [ZMOD r.modulus]

/-- **One modulus.** -/
theorem Represents.step {z : ℤ} {state : ℕ × ℕ} (hstate : Represents z state) {r : Residue}
    (hr : r.IsFor z state.2) : Represents z (garnerStep state r) := by
  obtain ⟨acc, m⟩ := state
  obtain ⟨p, inverse, residue⟩ := r
  obtain ⟨hlt, hacc⟩ := hstate
  obtain ⟨hp, hinv, hres⟩ := hr
  simp only at hlt hacc hp hinv hres
  have hdelta : (((residue + p - acc % p) % p : ℕ) : ℤ) ≡ z - acc [ZMOD p] := by
    have hmod := Nat.mod_lt acc hp
    push_cast [Nat.cast_sub (by omega : acc % p ≤ residue + p)]
    have hsub := (hres.add (Int.modEq_zero_iff_dvd.mpr (dvd_refl (p : ℤ)))).sub
      (Int.mod_modEq (acc : ℤ) p)
    rw [add_zero] at hsub
    exact (Int.mod_modEq _ _).trans hsub
  have hstep : (((residue + p - acc % p) % p * inverse % p : ℕ) : ℤ) ≡ (z - acc) * inverse
      [ZMOD p] := by
    rw [Int.natCast_mod, Nat.cast_mul]
    exact (Int.mod_modEq _ _).trans (hdelta.mul_right _)
  have hsmall : (residue + p - acc % p) % p * inverse % p < p := Nat.mod_lt _ hp
  have hout : garnerStep (acc, m) ⟨p, inverse, residue⟩ =
      (acc + m * ((residue + p - acc % p) % p * inverse % p), m * p) := rfl
  rw [hout]
  generalize (residue + p - acc % p) % p * inverse % p = step at hstep hsmall
  constructor
  · show acc + m * step < m * p
    calc acc + m * step < m + m * step := by omega
      _ = m * (step + 1) := by ring
      _ ≤ m * p := Nat.mul_le_mul_left m hsmall
  · -- The new representative is right modulo both coprime factors.
    have hcop : IsCoprime (m : ℤ) p := by
      obtain ⟨t, ht⟩ := hinv.symm.dvd
      exact ⟨inverse, -t, by linear_combination ht⟩
    show ((acc + m * step : ℕ) : ℤ) ≡ z [ZMOD ((m * p : ℕ) : ℤ)]
    push_cast
    refine (Int.modEq_and_modEq_iff_modEq_mul (by simpa [Int.isCoprime_iff_gcd_eq_one]
      using hcop)).mp ⟨?_, ?_⟩
    · have hzero : (m : ℤ) * step ≡ 0 [ZMOD m] := Int.modEq_zero_iff_dvd.mpr (dvd_mul_right _ _)
      simpa using hacc.add hzero
    · have hmul : (m : ℤ) * step ≡ z - acc [ZMOD p] := by
        calc (m : ℤ) * step ≡ m * ((z - acc) * inverse) [ZMOD p] := hstep.mul_left _
          _ = m * inverse * (z - acc) := by ring
          _ ≡ 1 * (z - acc) [ZMOD p] := hinv.mul_right _
          _ = z - acc := one_mul _
      simpa using hmul.add_left (acc : ℤ)

/-- The moduli of a list, each with an inverse of the product before it. -/
def IsChain (z : ℤ) : ℕ → List Residue → Prop
  | _, [] => True
  | m, r :: rs => r.IsFor z m ∧ IsChain z (m * r.modulus) rs

@[simp] theorem isChain_nil (z : ℤ) (m : ℕ) : IsChain z m [] := trivial

@[simp] theorem isChain_cons {z : ℤ} {m : ℕ} {r : Residue} {rs : List Residue} :
    IsChain z m (r :: rs) ↔ r.IsFor z m ∧ IsChain z (m * r.modulus) rs := Iff.rfl

theorem Represents.garner {z : ℤ} {state : ℕ × ℕ} (hstate : Represents z state)
    {rs : List Residue} (hrs : IsChain z state.2 rs) : Represents z (garner state rs) := by
  induction rs generalizing state with
  | nil => exact hstate
  | cons r rs ih =>
      obtain ⟨hr, hrest⟩ := hrs
      exact ih (hstate.step hr) hrest

@[simp] theorem garner_product (state : ℕ × ℕ) (rs : List Residue) :
    (garner state rs).2 = state.2 * (rs.map Residue.modulus).prod := by
  induction rs generalizing state with
  | nil => simp [garner]
  | cons r rs ih =>
      have hrest := ih (garnerStep state r)
      rw [garner] at hrest
      rw [garner, List.foldl_cons, hrest, List.map_cons, List.prod_cons, ← mul_assoc]
      rfl

/-- A small integer is the signed representative of its residue. -/
theorem signed_eq {z : ℤ} {acc product : ℕ} (hacc : Represents z (acc, product))
    (hz : 2 * |z| < product) : signed acc product = z := by
  obtain ⟨hlt, hmod⟩ := hacc
  obtain ⟨t, ht⟩ := hmod.dvd
  simp only at hlt ht
  obtain ⟨hlo, hhi⟩ := abs_lt.mp (show |2 * z| < product by rwa [abs_mul, abs_two])
  have hprod : (0 : ℤ) < product := by omega
  -- The two differ by `product` or not at all.
  have hrange : t = 0 ∨ t = -1 := by
    have h1 : (product : ℤ) * t < product * 1 := by omega
    have h2 : (product : ℤ) * (-2) < product * t := by omega
    have h1' := lt_of_mul_lt_mul_left h1 hprod.le
    have h2' := lt_of_mul_lt_mul_left h2 hprod.le
    omega
  rw [signed]
  rcases hrange with rfl | rfl
  · rw [if_neg (by omega)]
    omega
  · rw [if_pos (by omega)]
    omega

/-- **Exact reconstruction** of an integer that is small against the product of the moduli. -/
theorem signed_garner {z : ℤ} {start : ℕ × ℕ} (hstart : Represents z start) {rs : List Residue}
    (hrs : IsChain z start.2 rs) {product : ℕ}
    (hproduct : product = start.2 * (rs.map Residue.modulus).prod) (hz : 2 * |z| < product) :
    signed (garner start rs).1 product = z := by
  have hend := hstart.garner hrs
  rw [← garner_product] at hproduct
  subst hproduct
  exact signed_eq hend hz

end Crt
