import IpirSp.Negacyclic.Automorphism

/-!
# Integer lifts

A product modulo `q` can be computed exactly over `ℤ` and reduced, and an error is small when its
integer coefficients are.  `baseChange` is the ring map that reduces the coefficients; it commutes
with everything the other modules use.  `abs_coeff_mul_le` bounds the coefficients of an integer
product: multiplying by a monomial only moves coefficients and changes signs
(`coeff_x_pow_mul`), so the sum of the magnitudes of one factor times a bound for the other is
enough.
-/

open Polynomial

namespace Negacyclic

variable {d : ℕ}

section BaseChange

variable {R S : Type*} [CommRing R] [CommRing S] (f : R →+* S)

/-- Map the coefficients through a ring homomorphism. -/
noncomputable def baseChange : NegRing d R →+* NegRing d S :=
  AdjoinRoot.lift ((algebraMap S (NegRing d S)).comp f) x (by
    rw [eval₂_add, eval₂_X_pow, eval₂_one, x_pow_d, neg_add_cancel])

@[simp] theorem baseChange_x : baseChange f (x : NegRing d R) = x :=
  AdjoinRoot.lift_root _

@[simp] theorem baseChange_smul (r : R) (p : NegRing d R) :
    baseChange f (r • p) = f r • baseChange f p := by
  rw [Algebra.smul_def, map_mul, Algebra.smul_def]
  exact congrArg (· * _) (AdjoinRoot.lift_of _)

@[simp] theorem baseChange_ofCoeffs (c : Fin d → R) :
    baseChange f (ofCoeffs c) = ofCoeffs fun i => f (c i) := by
  simp only [ofCoeffs_apply, map_sum, baseChange_smul, map_pow, baseChange_x]

@[simp] theorem coeff_baseChange [NeZero d] (p : NegRing d R) (i : Fin d) :
    coeff (baseChange f p) i = f (coeff p i) := by
  conv_lhs => rw [← ofCoeffs_coeffs p, baseChange_ofCoeffs, coeff_ofCoeffs]
  rfl

/-- Base change commutes with the automorphisms. -/
theorem baseChange_tau {g : ℕ} (hg : Odd g) [NeZero d] (p : NegRing d R) :
    baseChange f (tau g p) = tau g (baseChange f p) := by
  conv_lhs => rw [← ofCoeffs_coeffs p]
  conv_rhs => rw [← ofCoeffs_coeffs p]
  rw [baseChange_ofCoeffs, tau_ofCoeffs hg, tau_ofCoeffs hg]
  simp only [map_sum, baseChange_smul, map_pow, baseChange_x]

end BaseChange

section Rotation

variable {R : Type*} [CommRing R] [NeZero d]

/-- **The coefficients of a rotated polynomial**: moved up by `n`, and negated where they come
around. -/
theorem coeff_x_pow_mul {n : ℕ} (hn : n < d) (p : NegRing d R) (k : Fin d) :
    coeff (x ^ n * p) k =
      if h : n ≤ k then coeff p ⟨k - n, by omega⟩ else -coeff p ⟨k + d - n, by omega⟩ := by
  have hterm (j : Fin d) : coeff (x ^ n * (coeff p j • x ^ (j : ℕ))) k =
      coeff p j * if (n + j) % d = k then (-1) ^ ((n + j) / d) else 0 := by
    rw [mul_smul_comm, ← pow_add, coeff_smul, coeff_x_pow]
  conv_lhs => rw [← sum_coeff_smul p, Finset.mul_sum, coeff_sum]
  split
  · rename_i hle
    rw [Finset.sum_eq_single ⟨k - n, by omega⟩]
    · have hsum : n + ((k : ℕ) - n) = k := by omega
      rw [hterm, hsum, Nat.mod_eq_of_lt k.2, Nat.div_eq_of_lt k.2, if_pos rfl, pow_zero, mul_one]
    · intro j _ hj
      rw [hterm, if_neg, mul_zero]
      intro hmod
      refine hj (Fin.ext ?_)
      show (j : ℕ) = k - n
      rcases Nat.lt_or_ge (n + j) d with hlt | hge
      · rw [Nat.mod_eq_of_lt hlt] at hmod
        omega
      · rw [Nat.mod_eq_sub_mod hge, Nat.mod_eq_of_lt (by omega)] at hmod
        omega
    · simp
  · rename_i hlt
    rw [Finset.sum_eq_single ⟨k + d - n, by omega⟩]
    · have hsum : n + ((k : ℕ) + d - n) = k + d := by omega
      rw [hterm, hsum, Nat.add_mod_right, Nat.mod_eq_of_lt k.2, Nat.add_div_right _ (NeZero.pos d),
        Nat.div_eq_of_lt k.2, if_pos rfl, pow_one, mul_neg_one]
    · intro j _ hj
      rw [hterm, if_neg, mul_zero]
      intro hmod
      refine hj (Fin.ext ?_)
      show (j : ℕ) = k + d - n
      rcases Nat.lt_or_ge (n + j) d with hlt' | hge
      · rw [Nat.mod_eq_of_lt hlt'] at hmod
        omega
      · rw [Nat.mod_eq_sub_mod hge, Nat.mod_eq_of_lt (by omega)] at hmod
        omega
    · simp

/-- The same for the exponents below `2 * d`, with the position before the rotation taken modulo
`2 * d`. -/
theorem coeff_x_pow_mul_of_lt_two_mul {n : ℕ} (hn : n < 2 * d) (p : NegRing d R) (k : Fin d) :
    coeff (x ^ n * p) k =
      if h : (k + 2 * d - n) % (2 * d) < d then coeff p ⟨(k + 2 * d - n) % (2 * d), h⟩
      else -coeff p ⟨(k + 2 * d - n) % (2 * d) - d, by
        have := Nat.mod_lt (k + 2 * d - n) (show 0 < 2 * d by omega)
        omega⟩ := by
  have hk := k.2
  rcases Nat.lt_or_ge n d with hlt | hge
  · rw [coeff_x_pow_mul hlt]
    rcases Nat.lt_or_ge k n with hkn | hkn
    · have hsrc : (k + 2 * d - n) % (2 * d) = k + 2 * d - n := Nat.mod_eq_of_lt (by omega)
      rw [dif_neg (by omega), dif_neg (by omega)]
      congr 3
      omega
    · have hsrc : (k + 2 * d - n) % (2 * d) = k - n := by
        rw [show (k : ℕ) + 2 * d - n = k - n + 2 * d by omega, Nat.add_mod_right]
        exact Nat.mod_eq_of_lt (by omega)
      rw [dif_pos hkn, dif_pos (by omega)]
      congr 2
      exact hsrc.symm
  · -- Past `d` the rotation has one more sign.
    obtain ⟨m, rfl⟩ := Nat.exists_eq_add_of_le' hge
    have hsrc : (k + 2 * d - (m + d)) % (2 * d) = k + d - m := by
      rw [show (k : ℕ) + 2 * d - (m + d) = k + d - m by omega]
      exact Nat.mod_eq_of_lt (by omega)
    rw [pow_add, x_pow_d, mul_neg_one, neg_mul, coeff_neg, coeff_x_pow_mul (by omega)]
    rcases Nat.lt_or_ge k m with hkm | hkm
    · rw [dif_neg (by omega), dif_pos (by omega), neg_neg]
      congr 2
      exact hsrc.symm
    · rw [dif_pos hkm, dif_neg (by omega)]
      congr 3
      omega

end Rotation

section Magnitude

variable [NeZero d] {B : ℤ}

/-- A bound on all coefficients. -/
def CoeffsLe (p : NegRing d ℤ) (B : ℤ) : Prop := ∀ i, |coeff p i| ≤ B

theorem CoeffsLe.nonneg {p : NegRing d ℤ} (hp : CoeffsLe p B) : 0 ≤ B :=
  (abs_nonneg _).trans (hp 0)

/-- Rotations keep magnitudes. -/
theorem CoeffsLe.x_pow_mul {p : NegRing d ℤ} (hp : CoeffsLe p B) {n : ℕ} (hn : n < d) :
    CoeffsLe (x ^ n * p) B := by
  intro k
  rw [coeff_x_pow_mul hn]
  split
  · exact hp _
  · rw [abs_neg]
    exact hp _

/-- The coefficients of an image under an automorphism. -/
theorem coeff_tau {g : ℕ} (hg : Odd g) (p : NegRing d ℤ) (k : Fin d) :
    coeff (tau g p) k =
      ∑ i : Fin d, coeff p i * if (i * g) % d = k then (-1) ^ ((i * g) / d) else 0 := by
  conv_lhs => rw [← ofCoeffs_coeffs p, tau_ofCoeffs hg, coeff_sum]
  exact Finset.sum_congr rfl fun i _ => by rw [coeff_smul, coeff_x_pow]; rfl

/-- **Automorphisms permute coefficients up to sign**, so they keep magnitudes. -/
theorem CoeffsLe.tau {p : NegRing d ℤ} (hp : CoeffsLe p B) {g : ℕ} (hg : Odd g)
    (hcop : Nat.Coprime g d) : CoeffsLe (tau g p) B := by
  intro k
  rw [coeff_tau hg]
  -- At most one coefficient reaches position `k`.
  by_cases hex : ∃ i : Fin d, (i * g) % d = k
  · obtain ⟨i, hi⟩ := hex
    rw [Finset.sum_eq_single i]
    · rw [if_pos hi, abs_mul, abs_neg_one_pow, mul_one]
      exact hp i
    · intro j _ hj
      rw [if_neg, mul_zero]
      intro hk
      have hmod : j * g ≡ i * g [MOD d] := hk.trans hi.symm
      have hji := Nat.ModEq.cancel_right_of_coprime hcop.symm hmod
      exact hj (Fin.ext (Nat.ModEq.eq_of_lt_of_lt hji j.2 i.2))
    · simp
  · rw [Finset.sum_eq_zero, abs_zero]
    · exact hp.nonneg
    · intro i _
      rw [if_neg fun hi => hex ⟨i, hi⟩, mul_zero]

/-- **The coefficients of an integer product.** -/
theorem abs_coeff_mul_le (p : NegRing d ℤ) {p' : NegRing d ℤ} (hp' : CoeffsLe p' B) (k : Fin d) :
    |coeff (p * p') k| ≤ (∑ i, |coeff p i|) * B := by
  conv_lhs => rw [← sum_coeff_smul p, Finset.sum_mul, coeff_sum]
  rw [Finset.sum_mul]
  refine (Finset.abs_sum_le_sum_abs _ _).trans (Finset.sum_le_sum fun i _ => ?_)
  rw [smul_mul_assoc, coeff_smul, abs_mul]
  exact mul_le_mul_of_nonneg_left (hp'.x_pow_mul i.2 k) (abs_nonneg _)

theorem CoeffsLe.mul {p p' : NegRing d ℤ} {A : ℤ} (hp : CoeffsLe p A) (hp' : CoeffsLe p' B) :
    CoeffsLe (p * p') (d * A * B) := by
  intro k
  refine (abs_coeff_mul_le p hp' k).trans (mul_le_mul_of_nonneg_right ?_ hp'.nonneg)
  refine (Finset.sum_le_sum fun i _ => hp i).trans ?_
  rw [Finset.sum_const, Finset.card_univ, Fintype.card_fin, nsmul_eq_mul]

end Magnitude

end Negacyclic
