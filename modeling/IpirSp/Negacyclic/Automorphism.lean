import IpirSp.Negacyclic.Ring

/-!
# Automorphisms and the trace

For odd `g` the substitution `X ↦ X^g` is a ring endomorphism of the negacyclic ring.  `tau g` is
that map; an even exponent has no such map and `tau` is then the identity, so that `tau` is total
and every lemma about it names the oddness it needs.

The main result is `sum_tau`: over a power-of-two degree, summing `tau` over all `d` odd exponents
below `2 * d` keeps exactly the constant coefficient, multiplied by `d`.  It is proved over an
arbitrary commutative ring, from the factorisation of a geometric sum of `2^t` terms, because the
power-of-two ciphertext modulus needs it over `ℤ`.
-/

open Polynomial

namespace Negacyclic

variable {d : ℕ} {R : Type*} [CommRing R]

theorem odd_mod_two_mul {g : ℕ} (hg : Odd g) (d : ℕ) : Odd (g % (2 * d)) := by
  rw [Nat.odd_iff, Nat.mod_mul_right_mod]
  exact Nat.odd_iff.mp hg

/-- The automorphism `X ↦ X^g`, for odd `g`. -/
noncomputable def tau (g : ℕ) : NegRing d R →ₐ[R] NegRing d R :=
  if h : Odd g then
    AdjoinRoot.liftAlgHom _ (Algebra.ofId R (NegRing d R)) (x ^ g) (by
      rw [eval₂_add, eval₂_X_pow, eval₂_one, ← pow_mul, mul_comm, pow_mul, x_pow_d, h.neg_one_pow,
        neg_add_cancel])
  else AlgHom.id R _

@[simp] theorem tau_x {g : ℕ} (hg : Odd g) : tau g (x : NegRing d R) = x ^ g := by
  rw [tau, dif_pos hg]
  exact AdjoinRoot.liftAlgHom_root _ (Algebra.ofId R (NegRing d R)) _ _

theorem algHom_eq_of_x {f f' : NegRing d R →ₐ[R] NegRing d R} (h : f x = f' x) : f = f' :=
  AdjoinRoot.algHom_ext h

@[simp] theorem tau_one : tau 1 = AlgHom.id R (NegRing d R) :=
  algHom_eq_of_x (by simp)

/-- Automorphisms compose by multiplying exponents. -/
theorem tau_tau {g g' : ℕ} (hg : Odd g) (hg' : Odd g') (p : NegRing d R) :
    tau g (tau g' p) = tau (g * g') p := by
  have h : (tau g).comp (tau g') = tau (R := R) (d := d) (g * g') := by
    refine algHom_eq_of_x ?_
    rw [AlgHom.comp_apply, tau_x hg', map_pow, tau_x hg, tau_x (hg.mul hg'), ← pow_mul]
  exact congrArg (fun f => f p) h

/-- The exponent of an automorphism only matters modulo `2 * d`. -/
theorem tau_congr {g g' : ℕ} (hg : Odd g) (hg' : Odd g') (h : g ≡ g' [MOD 2 * d]) :
    tau (R := R) (d := d) g = tau g' := by
  refine algHom_eq_of_x ?_
  rw [tau_x hg, tau_x hg', x_pow_congr h]

theorem tau_mod {g : ℕ} (hg : Odd g) : tau (R := R) (d := d) (g % (2 * d)) = tau g :=
  tau_congr (odd_mod_two_mul hg d) hg (Nat.mod_modEq _ _)

theorem tau_ofCoeffs {g : ℕ} (hg : Odd g) (c : Fin d → R) :
    tau g (ofCoeffs c) = ∑ i, c i • x ^ ((i : ℕ) * g) := by
  rw [ofCoeffs_apply, map_sum]
  refine Finset.sum_congr rfl fun i _ => ?_
  rw [map_smul, map_pow, tau_x hg, ← pow_mul, mul_comm]

/-! ## Geometric sums of two-power length -/

section Geometric

variable {A : Type*} [CommRing A]

/-- A geometric sum of `2^t` terms factors into `t` binomials. -/
theorem sum_range_two_pow_pow (y : A) (t : ℕ) :
    ∑ k ∈ Finset.range (2 ^ t), y ^ k = ∏ i ∈ Finset.range t, (1 + y ^ 2 ^ i) := by
  induction t with
  | zero => simp
  | succ t ih =>
      rw [Finset.prod_range_succ, ← ih, pow_succ, mul_two, Finset.sum_range_add, mul_add, mul_one,
        Finset.sum_mul]
      refine congrArg₂ (· + ·) rfl (Finset.sum_congr rfl fun k _ => ?_)
      rw [pow_add, mul_comm]

/-- **Orthogonality**: over a root of `X^(2^t) + 1`, the sum over all odd powers of a monomial
vanishes unless `2^t` divides the exponent. -/
theorem sum_range_pow_eq_zero {ζ : A} {t j : ℕ} (hζ : ζ ^ 2 ^ t = -1) (hj : ¬2 ^ t ∣ j) :
    ∑ k ∈ Finset.range (2 ^ t), (ζ ^ (2 * j)) ^ k = 0 := by
  have hj0 : j ≠ 0 := fun h => hj (h ▸ dvd_zero _)
  obtain ⟨v, m, hm, rfl⟩ := Nat.exists_eq_two_pow_mul_odd hj0
  have hv : v < t := by
    by_contra hle
    exact hj ((pow_dvd_pow 2 (not_lt.mp hle)).mul_right m)
  rw [sum_range_two_pow_pow]
  refine Finset.prod_eq_zero (Finset.mem_range.mpr (show t - 1 - v < t by omega)) ?_
  have hexp : 2 * (2 ^ v * m) * 2 ^ (t - 1 - v) = 2 ^ t * m := by
    have h2 : 2 ^ t = 2 * 2 ^ v * 2 ^ (t - 1 - v) := by
      rw [← pow_succ', ← pow_add]
      congr 1
      omega
    rw [h2]
    ring
  rw [← pow_mul, hexp, pow_mul, hζ, hm.neg_one_pow, add_neg_cancel]

end Geometric

/-! ## The trace -/

/-- **The trace keeps the constant coefficient**, multiplied by the degree. -/
theorem sum_tau {t : ℕ} (hd : d = 2 ^ t) [NeZero d] (p : NegRing d R) :
    ∑ k ∈ Finset.range d, tau (2 * k + 1) p = ((d : R) * coeff p 0) • 1 := by
  have hodd (k : ℕ) : Odd (2 * k + 1) := ⟨k, rfl⟩
  have hmono (j : Fin d) : ∑ k ∈ Finset.range d, (x : NegRing d R) ^ ((j : ℕ) * (2 * k + 1)) =
      if j = 0 then (d : NegRing d R) else 0 := by
    have hterm (k : ℕ) : (x : NegRing d R) ^ ((j : ℕ) * (2 * k + 1)) =
        x ^ (j : ℕ) * (x ^ (2 * (j : ℕ))) ^ k := by
      rw [← pow_mul, ← pow_add]
      ring_nf
    simp only [hterm, ← Finset.mul_sum]
    split
    · subst j
      simp
    · rename_i hj
      have hndvd : ¬2 ^ t ∣ (j : ℕ) := by
        rw [← hd]
        intro hdvd
        exact hj (Fin.ext (by simpa using Nat.eq_zero_of_dvd_of_lt hdvd j.2))
      have hx : (x : NegRing d R) ^ 2 ^ t = -1 := by rw [← hd, x_pow_d]
      have hzero := sum_range_pow_eq_zero hx hndvd
      rw [← hd] at hzero
      rw [hzero, mul_zero]
  calc ∑ k ∈ Finset.range d, tau (2 * k + 1) p
      = ∑ k ∈ Finset.range d, ∑ j : Fin d, coeff p j • x ^ ((j : ℕ) * (2 * k + 1)) := by
        refine Finset.sum_congr rfl fun k _ => ?_
        conv_lhs => rw [← ofCoeffs_coeffs p]
        exact tau_ofCoeffs (hodd k) _
    _ = ∑ j : Fin d, coeff p j • (if j = 0 then (d : NegRing d R) else 0) := by
        rw [Finset.sum_comm]
        refine Finset.sum_congr rfl fun j _ => ?_
        rw [← Finset.smul_sum, hmono]
    _ = ((d : R) * coeff p 0) • 1 := by
        simp only [smul_ite, smul_zero]
        rw [Finset.sum_ite_eq' Finset.univ (0 : Fin d)]
        simp [Algebra.smul_def, mul_comm]

/-! ## Negative exponents -/

section MaskPoly

variable [NeZero d]

/-- Negating the exponents of a vector is the automorphism `X ↦ X^(2d-1)`. -/
theorem maskPoly_eq_tau (a : Fin d → R) : maskPoly a = tau (2 * d - 1) (ofCoeffs a) := by
  have hd := NeZero.pos d
  have hodd : Odd (2 * d - 1) := ⟨d - 1, by omega⟩
  rw [tau_ofCoeffs hodd, maskPoly]
  refine Finset.sum_congr rfl fun i _ => congrArg (a i • ·) (x_pow_congr ?_)
  -- `2d - i` and `i · (2d - 1)` differ by a multiple of `2d`
  have hi := i.2
  have hprod : (i : ℕ) * (2 * d - 1) + i = 2 * d * i := by
    rw [← Nat.mul_succ, Nat.succ_eq_add_one, Nat.sub_add_cancel (by omega), mul_comm]
  have hsum : 2 * d - (i : ℕ) + i = 2 * d := Nat.sub_add_cancel (by omega)
  refine Nat.ModEq.add_right_cancel' (i : ℕ) ?_
  rw [hprod, hsum]
  exact (Nat.mod_self _).trans (Nat.mul_mod_right _ _).symm

/-- **Moving a product across an inner product.**  The coefficients of `a(X⁻¹) · s` against a vector
`v` are the coefficients of `a · v` against `s`. -/
theorem sum_mul_coeff_maskPoly_mul (a v : Fin d → R) (s : NegRing d R) :
    ∑ i, v i * coeff (maskPoly a * s) i = ∑ j, coeff (ofCoeffs a * ofCoeffs v) j * coeff s j := by
  have hproduct : maskPoly v * maskPoly a = maskPoly (coeffs (ofCoeffs a * ofCoeffs v)) := by
    rw [maskPoly_eq_tau, maskPoly_eq_tau, maskPoly_eq_tau, ofCoeffs_coeffs, map_mul, mul_comm]
  rw [← coeff_zero_maskPoly_mul, ← mul_assoc, hproduct, coeff_zero_maskPoly_mul]
  rfl

end MaskPoly

end Negacyclic
