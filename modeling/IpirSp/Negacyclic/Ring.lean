import Mathlib.RingTheory.AdjoinRoot
import Mathlib.Tactic

/-!
# The negacyclic ring

Ring packing works in `R[X]/(X^d + 1)`, where `R` is `ZMod q` for the ciphertext ring and `ℤ` for
the integer arguments about a modulus in which `d` has no inverse.  This module fixes that ring as
an `AdjoinRoot`, its distinguished root `x`, and the linear equivalence `coeffEquiv` between ring
elements and vectors of `d` coefficients.

The one computation everything else rests on is `x_pow`: a power of `x` is a signed monomial of
degree below `d`.  `coeff_x_pow` reads a coefficient of it, and `coeff_zero_maskPoly_mul` is the
reason an LWE inner product can be found in a ring product: with the mask placed at the *negative*
exponents, the constant coefficient of the product is the inner product of the two vectors.
-/

open Polynomial

namespace Negacyclic

/-- The negacyclic ring `R[X]/(X^d + 1)`. -/
abbrev NegRing (d : ℕ) (R : Type*) [CommRing R] := AdjoinRoot (X ^ d + 1 : R[X])

section

variable {d : ℕ} {R : Type*} [CommRing R]

/-- The class of `X`. -/
noncomputable def x : NegRing d R := AdjoinRoot.root _

/-- The negacyclic relation. -/
@[simp] theorem x_pow_d : (x : NegRing d R) ^ d = -1 := by
  have h : AdjoinRoot.mk (X ^ d + 1 : R[X]) (X ^ d + 1) = 0 := AdjoinRoot.mk_self
  rw [map_add, map_pow, map_one, AdjoinRoot.mk_X] at h
  exact eq_neg_of_add_eq_zero_left h

@[simp] theorem x_pow_two_mul_d : (x : NegRing d R) ^ (2 * d) = 1 := by
  rw [mul_comm, pow_mul, x_pow_d, neg_one_sq]

/-- **Every power of `x` is a signed monomial** of degree below `d`. -/
theorem x_pow (n : ℕ) : (x : NegRing d R) ^ n = (-1) ^ (n / d) * x ^ (n % d) := by
  conv_lhs => rw [← Nat.div_add_mod n d, pow_add, pow_mul, x_pow_d]

/-- Exponents of `x` only matter modulo `2 * d`. -/
theorem x_pow_mod (n : ℕ) : (x : NegRing d R) ^ (n % (2 * d)) = x ^ n := by
  conv_rhs => rw [← Nat.div_add_mod n (2 * d), pow_add, pow_mul, x_pow_two_mul_d, one_pow, one_mul]

theorem x_pow_congr {m n : ℕ} (h : m ≡ n [MOD 2 * d]) : (x : NegRing d R) ^ m = x ^ n := by
  rw [← x_pow_mod m, ← x_pow_mod n, h]

/-- The ring element with the given coefficient vector, `∑ i, c i · x^i`. -/
noncomputable def ofCoeffs : (Fin d → R) →ₗ[R] NegRing d R where
  toFun c := ∑ i, c i • x ^ (i : ℕ)
  map_add' c c' := by simp [add_smul, Finset.sum_add_distrib]
  map_smul' r c := by simp [mul_smul, Finset.smul_sum]

theorem ofCoeffs_apply (c : Fin d → R) :
    (ofCoeffs c : NegRing d R) = ∑ i, c i • x ^ (i : ℕ) := rfl

private theorem sum_smul_x_pow_eq_mk (c : Fin d → R) :
    ∑ i, c i • (x : NegRing d R) ^ (i : ℕ) =
      AdjoinRoot.mk _ (∑ i : Fin d, C (c i) * X ^ (i : ℕ)) := by
  rw [map_sum]
  refine Finset.sum_congr rfl fun i _ => ?_
  rw [map_mul, map_pow, AdjoinRoot.mk_X, AdjoinRoot.mk_C, Algebra.smul_def]
  rfl

variable [NeZero d]

theorem monic_modulus : (X ^ d + 1 : R[X]).Monic := by
  simpa using monic_X_pow_add_C (1 : R) (NeZero.ne d)

/-- The coefficient vector of a ring element. -/
noncomputable def coeffs : NegRing d R →ₗ[R] (Fin d → R) where
  toFun p i := (AdjoinRoot.modByMonicHom monic_modulus p).coeff i
  map_add' p p' := by ext i; simp
  map_smul' r p := by ext i; simp

/-- The coefficient of `x^i`. -/
noncomputable def coeff (p : NegRing d R) (i : Fin d) : R := coeffs p i

@[simp] theorem coeffs_ofCoeffs (c : Fin d → R) : coeffs (ofCoeffs c) = c := by
  nontriviality R
  ext j
  have hdeg : (∑ i : Fin d, C (c i) * X ^ (i : ℕ)).degree < (X ^ d + 1 : R[X]).degree := by
    rw [← C_1, degree_X_pow_add_C (NeZero.pos d)]
    exact degree_sum_fin_lt c
  have hmod := (modByMonic_eq_self_iff (monic_modulus (d := d) (R := R))).mpr hdeg
  show (AdjoinRoot.modByMonicHom monic_modulus
    (∑ i, c i • (x : NegRing d R) ^ (i : ℕ))).coeff (j : ℕ) = c j
  rw [sum_smul_x_pow_eq_mk, AdjoinRoot.modByMonicHom_mk, hmod, finsetSum_coeff]
  simp only [coeff_C_mul_X_pow, Fin.val_inj]
  rw [Finset.sum_ite_eq]
  simp

@[simp] theorem ofCoeffs_coeffs (p : NegRing d R) : ofCoeffs (coeffs p) = p := by
  rcases subsingleton_or_nontrivial R with hR | hR
  · have : Subsingleton (NegRing d R) := Module.subsingleton R _
    exact Subsingleton.elim _ _
  have hlt : (AdjoinRoot.modByMonicHom monic_modulus p).natDegree < d := by
    obtain ⟨f, rfl⟩ := AdjoinRoot.mk_surjective p
    rw [AdjoinRoot.modByMonicHom_mk]
    have hne : (X ^ d + 1 : R[X]) ≠ 1 := by
      intro h
      have := congrArg natDegree h
      rw [← C_1, natDegree_X_pow_add_C, natDegree_C] at this
      exact NeZero.ne d this
    have := natDegree_modByMonic_lt f (monic_modulus (d := d) (R := R)) hne
    rwa [← C_1, natDegree_X_pow_add_C] at this
  conv_rhs => rw [← AdjoinRoot.mk_leftInverse monic_modulus p]
  rw [(AdjoinRoot.modByMonicHom monic_modulus p).as_sum_range_C_mul_X_pow' hlt,
    Finset.sum_range, ← sum_smul_x_pow_eq_mk]
  rfl

/-- Ring elements are coefficient vectors. -/
noncomputable def coeffEquiv : NegRing d R ≃ₗ[R] (Fin d → R) :=
  LinearEquiv.ofLinearMap coeffs ofCoeffs (LinearMap.ext coeffs_ofCoeffs)
    (LinearMap.ext ofCoeffs_coeffs)

@[simp] theorem coeff_ofCoeffs (c : Fin d → R) (i : Fin d) : coeff (ofCoeffs c) i = c i :=
  congrFun (coeffs_ofCoeffs c) i

theorem ext_coeff {p p' : NegRing d R} (h : ∀ i, coeff p i = coeff p' i) : p = p' :=
  coeffEquiv.injective (funext h)

theorem sum_coeff_smul (p : NegRing d R) : ∑ i, coeff p i • x ^ (i : ℕ) = p :=
  ofCoeffs_coeffs p

theorem ofCoeffs_injective : Function.Injective (ofCoeffs : (Fin d → R) → NegRing d R) :=
  coeffEquiv.symm.injective

@[simp] theorem coeff_zero (i : Fin d) : coeff (0 : NegRing d R) i = 0 := by
  simp [coeff]

@[simp] theorem coeff_add (p p' : NegRing d R) (i : Fin d) :
    coeff (p + p') i = coeff p i + coeff p' i := by
  simp [coeff]

@[simp] theorem coeff_neg (p : NegRing d R) (i : Fin d) : coeff (-p) i = -coeff p i := by
  simp [coeff]

@[simp] theorem coeff_sub (p p' : NegRing d R) (i : Fin d) :
    coeff (p - p') i = coeff p i - coeff p' i := by
  simp [coeff]

@[simp] theorem coeff_smul (r : R) (p : NegRing d R) (i : Fin d) :
    coeff (r • p) i = r * coeff p i := by
  simp [coeff]

@[simp] theorem coeff_sum {ι : Type*} (t : Finset ι) (f : ι → NegRing d R) (i : Fin d) :
    coeff (∑ k ∈ t, f k) i = ∑ k ∈ t, coeff (f k) i := by
  simp [coeff]

/-! ## Coefficients of monomials and products -/

/-- The coefficients of a monomial of degree below `d`. -/
theorem coeff_x_pow_of_lt {n : ℕ} (hn : n < d) (i : Fin d) :
    coeff ((x : NegRing d R) ^ n) i = if n = i then 1 else 0 := by
  have h : (x : NegRing d R) ^ n = ofCoeffs (Pi.single ⟨n, hn⟩ 1) := by
    rw [ofCoeffs_apply, Finset.sum_eq_single ⟨n, hn⟩]
    · simp
    · intro j _ hj
      rw [Pi.single_eq_of_ne hj, zero_smul]
    · simp
  rw [h, coeff_ofCoeffs, Pi.single_apply]
  simp only [Fin.ext_iff, eq_comm]

/-- **The coefficients of an arbitrary monomial**: one signed unit, at position `n % d`. -/
theorem coeff_x_pow (n : ℕ) (i : Fin d) :
    coeff ((x : NegRing d R) ^ n) i = if n % d = i then (-1) ^ (n / d) else 0 := by
  have hsmul : (x : NegRing d R) ^ n = ((-1 : R) ^ (n / d)) • x ^ (n % d) := by
    rw [x_pow n, Algebra.smul_def, map_pow, map_neg, map_one]
  rw [hsmul, coeff_smul, coeff_x_pow_of_lt (Nat.mod_lt _ (NeZero.pos d))]
  split <;> simp

/-! ## Inner products as constant coefficients -/

/-- The polynomial `∑ i, a i · x^(-i)` of a mask vector, with the negative exponents written as
`2 * d - i`. -/
noncomputable def maskPoly (a : Fin d → R) : NegRing d R :=
  ∑ i, a i • x ^ (2 * d - (i : ℕ))

/-- The coefficients of the mask polynomial: the vector reversed and negated around position
zero. -/
theorem maskPoly_eq_ofCoeffs (a : Fin d → R) :
    maskPoly a = ofCoeffs fun k => if k = 0 then a 0 else -a (-k) := by
  rw [maskPoly, ofCoeffs_apply, ← Equiv.sum_comp (Equiv.neg (Fin d))]
  refine Finset.sum_congr rfl fun k _ => ?_
  rw [Equiv.neg_apply]
  by_cases hk : k = 0
  · subst hk
    simp
  · have hval : ((-k : Fin d) : ℕ) = d - k := by
      rw [Fin.val_neg', Nat.mod_eq_of_lt]
      have := Fin.pos_iff_ne_zero.mpr hk
      have := k.2
      omega
    have hexp : 2 * d - (d - (k : ℕ)) = d + k := by omega
    rw [if_neg hk, hval, hexp, pow_add, x_pow_d, neg_one_mul, smul_neg, neg_smul]

omit [NeZero d] in
/-- Distinct indices stay distinct modulo `d`. -/
theorem not_dvd_two_mul_sub_add {i j : Fin d} (h : j ≠ i) : ¬d ∣ 2 * d - (i : ℕ) + j := by
  rintro ⟨t, ht⟩
  have hne : (j : ℕ) ≠ i := fun h' => h (Fin.ext h')
  rcases Nat.lt_or_ge t 2 with ht2 | ht2
  · have : d * t ≤ d * 1 := Nat.mul_le_mul_left d (by omega)
    omega
  · rcases Nat.lt_or_ge t 3 with ht3 | ht3
    · obtain rfl : t = 2 := by omega
      omega
    · have : d * 3 ≤ d * t := Nat.mul_le_mul_left d ht3
      omega

/-- Multiplying by `x^(-k)` moves coefficient `k` to the constant position. -/
theorem coeff_zero_x_pow_mul (k : Fin d) (p : NegRing d R) :
    coeff (x ^ (2 * d - (k : ℕ)) * p) 0 = coeff p k := by
  have hd := NeZero.pos d
  conv_lhs => rw [← sum_coeff_smul p, Finset.mul_sum]
  rw [coeff_sum, Finset.sum_eq_single k]
  · rw [mul_smul_comm, ← pow_add, Nat.sub_add_cancel (by omega), x_pow_two_mul_d, coeff_smul,
      ← pow_zero x, coeff_x_pow_of_lt hd]
    simp
  · intro j _ hjk
    rw [mul_smul_comm, ← pow_add, coeff_smul, coeff_x_pow, if_neg, mul_zero]
    exact fun h0 => not_dvd_two_mul_sub_add hjk (Nat.dvd_of_mod_eq_zero (by simpa using h0))
  · simp

/-- **An LWE inner product is a constant coefficient**: `⟨a, s⟩` is coefficient zero of the mask
polynomial of `a` times the secret. -/
theorem coeff_zero_maskPoly_mul (a : Fin d → R) (s : NegRing d R) :
    coeff (maskPoly a * s) 0 = ∑ i, a i * coeff s i := by
  rw [maskPoly, Finset.sum_mul, coeff_sum]
  refine Finset.sum_congr rfl fun i _ => ?_
  rw [smul_mul_assoc, coeff_smul, coeff_zero_x_pow_mul]

end

end Negacyclic
