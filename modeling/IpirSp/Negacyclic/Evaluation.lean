import IpirSp.Negacyclic.Automorphism

/-!
# Evaluation at the odd powers of a root

A number-theoretic transform stores a ring element by its values at the `d` odd powers of a root
of `X^d + 1`, one value a slot, in an order of the implementation's own.  `Slots` is such a root
together with the order; `values` is the transform as an algebra homomorphism.

Two facts make the slot form usable.  `values_injective` and `values_interpolate`: when `d` is a
power of two and a unit of the coefficient ring, the values determine the element and are arbitrary.
`eval_tau`: an automorphism moves values between slots and changes none of them, so in slot form it
is the index permutation `perm`.
-/

open Polynomial

namespace Negacyclic

/-- Evaluation points for `R[X]/(X^d + 1)`: slot `s` holds the value at `root ^ exp s`, and the
exponents run once through the odd residues modulo `2 * d`. -/
structure Slots (d : ℕ) (R : Type*) [CommRing R] where
  root : R
  root_pow : root ^ d = -1
  exp : Fin d → ℕ
  odd_exp : ∀ s, Odd (exp s)
  exp_lt : ∀ s, exp s < 2 * d
  exp_injective : Function.Injective exp

variable {d : ℕ} {R : Type*} [CommRing R]

/-- Evaluation at a root `r` of `X^d + 1`. -/
noncomputable def evalAt (r : R) (hr : r ^ d = -1) : NegRing d R →ₐ[R] R :=
  AdjoinRoot.liftAlgHom _ (AlgHom.id R R) r (by
    rw [eval₂_add, eval₂_X_pow, eval₂_one, hr, neg_add_cancel])

@[simp] theorem evalAt_x (r : R) (hr : r ^ d = -1) : evalAt r hr x = r :=
  AdjoinRoot.liftAlgHom_root _ (AlgHom.id R R) _ _

theorem evalAt_ofCoeffs (r : R) (hr : r ^ d = -1) (c : Fin d → R) :
    evalAt r hr (ofCoeffs c) = ∑ i, c i * r ^ (i : ℕ) := by
  rw [ofCoeffs_apply, map_sum]
  refine Finset.sum_congr rfl fun i _ => ?_
  rw [map_smul, map_pow, evalAt_x, smul_eq_mul]

theorem pow_pow_of_odd {r : R} (hr : r ^ d = -1) {e : ℕ} (he : Odd e) : (r ^ e) ^ d = -1 := by
  rw [← pow_mul, mul_comm, pow_mul, hr, he.neg_one_pow]

theorem pow_two_mul {r : R} (hr : r ^ d = -1) : r ^ (2 * d) = 1 := by
  rw [mul_comm, pow_mul, hr, neg_one_sq]

theorem pow_congr_of_root {r : R} (hr : r ^ d = -1) {m n : ℕ} (h : m ≡ n [MOD 2 * d]) :
    r ^ m = r ^ n := by
  have hreduce (k : ℕ) : r ^ k = r ^ (k % (2 * d)) := by
    conv_lhs => rw [← Nat.div_add_mod k (2 * d), pow_add, pow_mul, pow_two_mul hr, one_pow, one_mul]
  rw [hreduce m, hreduce n, h]

/-- Evaluating an automorphic image is evaluating at the corresponding power of the root. -/
theorem evalAt_tau {r : R} (hr : r ^ d = -1) {g : ℕ} (hg : Odd g) (p : NegRing d R) :
    evalAt r hr (tau g p) = evalAt (r ^ g) (pow_pow_of_odd hr hg) p := by
  have h : (evalAt r hr).comp (tau g) = evalAt (r ^ g) (pow_pow_of_odd hr hg) := by
    refine AdjoinRoot.algHom_ext ?_
    show evalAt r hr (tau g x) = evalAt (r ^ g) _ x
    rw [tau_x hg, map_pow, evalAt_x, evalAt_x]
  exact congrArg (fun f => f p) h

namespace Slots

variable (S : Slots d R)

/-- The value of a ring element in slot `s`. -/
noncomputable def eval (s : Fin d) : NegRing d R →ₐ[R] R :=
  evalAt (S.root ^ S.exp s) (pow_pow_of_odd S.root_pow (S.odd_exp s))

theorem eval_ofCoeffs (s : Fin d) (c : Fin d → R) :
    S.eval s (ofCoeffs c) = ∑ i, c i * (S.root ^ S.exp s) ^ (i : ℕ) :=
  evalAt_ofCoeffs _ _ c

@[simp] theorem eval_x (s : Fin d) : S.eval s x = S.root ^ S.exp s := evalAt_x _ _

/-- All slot values at once. -/
noncomputable def values : NegRing d R →ₐ[R] (Fin d → R) := AlgHom.pi S.eval

@[simp] theorem values_apply (p : NegRing d R) (s : Fin d) : S.values p s = S.eval s p := rfl

/-! ### Slots and exponents -/

/-- The index of the slot's exponent among the odd residues. -/
def half (s : Fin d) : Fin d := ⟨S.exp s / 2, by have := S.exp_lt s; omega⟩

theorem exp_eq (s : Fin d) : S.exp s = 2 * (S.half s : ℕ) + 1 := by
  obtain ⟨k, hk⟩ := S.odd_exp s
  simp only [half]
  omega

theorem half_bijective : Function.Bijective S.half := by
  refine Finite.injective_iff_bijective.mp fun s s' h => S.exp_injective ?_
  rw [S.exp_eq s, S.exp_eq s', h]

/-- Every odd exponent is that of exactly one slot. -/
theorem exists_exp_eq {g : ℕ} (hg : Odd g) (hd : 0 < d) : ∃ s, S.exp s = g % (2 * d) := by
  have hlt : g % (2 * d) < 2 * d := Nat.mod_lt _ (by omega)
  obtain ⟨k, hk⟩ := odd_mod_two_mul hg d
  obtain ⟨s, hs⟩ := S.half_bijective.2 ⟨k, by omega⟩
  exact ⟨s, by rw [S.exp_eq s, hs, hk]⟩

/-- A sum over the slots is a sum over the odd exponents. -/
theorem sum_exp {M : Type*} [AddCommMonoid M] (f : ℕ → M) :
    ∑ s, f (S.exp s) = ∑ k ∈ Finset.range d, f (2 * k + 1) := by
  rw [← Fin.sum_univ_eq_sum_range fun k => f (2 * k + 1)]
  refine Fintype.sum_bijective S.half S.half_bijective _ _ fun s => ?_
  rw [S.exp_eq s]

/-! ### Automorphisms permute slots -/

/-- The slot whose exponent is `g` times that of `s`. -/
noncomputable def perm (g : ℕ) (s : Fin d) : Fin d :=
  if h : Odd g then (S.exists_exp_eq (h.mul (S.odd_exp s)) s.pos).choose else s

theorem exp_perm {g : ℕ} (hg : Odd g) (s : Fin d) :
    S.exp (S.perm g s) = g * S.exp s % (2 * d) := by
  rw [perm, dif_pos hg]
  exact (S.exists_exp_eq (hg.mul (S.odd_exp s)) s.pos).choose_spec

theorem perm_eq {g : ℕ} (hg : Odd g) {s s' : Fin d} (h : S.exp s' = g * S.exp s % (2 * d)) :
    S.perm g s = s' :=
  S.exp_injective ((S.exp_perm hg s).trans h.symm)

@[simp] theorem perm_one (s : Fin d) : S.perm 1 s = s :=
  S.perm_eq odd_one (by rw [one_mul, Nat.mod_eq_of_lt (S.exp_lt s)])

theorem perm_perm {g g' : ℕ} (hg : Odd g) (hg' : Odd g') (s : Fin d) :
    S.perm g (S.perm g' s) = S.perm (g * g') s :=
  S.perm_eq hg (by rw [S.exp_perm (hg.mul hg'), S.exp_perm hg', Nat.mul_mod_mod, mul_assoc])

theorem perm_congr {g g' : ℕ} (hg : Odd g) (hg' : Odd g') (h : g ≡ g' [MOD 2 * d]) (s : Fin d) :
    S.perm g s = S.perm g' s :=
  S.perm_eq hg (by rw [S.exp_perm hg']; exact (h.mul_right _).symm)

theorem perm_bijective {t : ℕ} (hd : d = 2 ^ t) {g : ℕ} (hg : Odd g) :
    Function.Bijective (S.perm g) := by
  refine Finite.injective_iff_bijective.mp fun s s' h => S.exp_injective ?_
  have hcop : Nat.gcd (2 * d) g = 1 := by
    rw [hd, ← pow_succ']
    exact (Nat.coprime_two_left.mpr hg).pow_left _
  have hmod : g * S.exp s ≡ g * S.exp s' [MOD 2 * d] := by
    rw [Nat.ModEq, ← S.exp_perm hg, ← S.exp_perm hg, h]
  exact Nat.ModEq.eq_of_lt_of_lt (Nat.ModEq.cancel_left_of_coprime hcop hmod) (S.exp_lt s)
    (S.exp_lt s')

/-- **An automorphism is a permutation of the slot values.** -/
theorem eval_tau {g : ℕ} (hg : Odd g) (s : Fin d) (p : NegRing d R) :
    S.eval s (tau g p) = S.eval (S.perm g s) p := by
  have hroot : (S.root ^ S.exp s) ^ g = S.root ^ S.exp (S.perm g s) := by
    rw [← pow_mul, S.exp_perm hg, Nat.mul_comm (S.exp s) g]
    exact pow_congr_of_root S.root_pow (Nat.mod_modEq _ _).symm
  rw [eval, evalAt_tau _ hg]
  simp only [hroot, eval]

/-! ### The transform is invertible -/

variable {t : ℕ}

/-- Orthogonality of the slot roots. -/
theorem sum_root_pow (hd : d = 2 ^ t) {n : ℕ} (hn : ¬d ∣ n) :
    ∑ s, S.root ^ (S.exp s * n) = 0 := by
  have hroot : S.root ^ 2 ^ t = -1 := by rw [← hd, S.root_pow]
  have hzero := sum_range_pow_eq_zero hroot (hd ▸ hn)
  rw [← hd] at hzero
  rw [S.sum_exp fun e => S.root ^ (e * n)]
  calc ∑ k ∈ Finset.range d, S.root ^ ((2 * k + 1) * n)
      = S.root ^ n * ∑ k ∈ Finset.range d, (S.root ^ (2 * n)) ^ k := by
        rw [Finset.mul_sum]
        refine Finset.sum_congr rfl fun k _ => ?_
        rw [← pow_mul, ← pow_add]
        ring_nf
    _ = 0 := by rw [hzero, mul_zero]

/-- The interpolation map, before division by `d`. -/
def interpolate : (Fin d → R) →ₗ[R] (Fin d → R) where
  toFun v i := ∑ s, v s * S.root ^ (S.exp s * (2 * d - i))
  map_add' v v' := by
    ext i
    simp [add_mul, Finset.sum_add_distrib]
  map_smul' r v := by
    ext i
    simp [Finset.mul_sum, mul_assoc]

theorem interpolate_apply (v : Fin d → R) (i : Fin d) :
    S.interpolate v i = ∑ s, v s * S.root ^ (S.exp s * (2 * d - i)) := rfl

/-- **Interpolation inverts evaluation up to the factor `d`.** -/
theorem interpolate_values (hd : d = 2 ^ t) [NeZero d] (p : NegRing d R) (i : Fin d) :
    S.interpolate (S.values p) i = d * coeff p i := by
  have hterm (s j : Fin d) : coeff p j * (S.root ^ S.exp s) ^ (j : ℕ) *
      S.root ^ (S.exp s * (2 * d - i)) = coeff p j * S.root ^ (S.exp s * (2 * d - i + j)) := by
    rw [mul_assoc, ← pow_mul, ← pow_add]
    ring_nf
  have hself : ∑ s, S.root ^ (S.exp s * (2 * d - i + i)) = (d : R) := by
    have hone (s : Fin d) : S.root ^ (S.exp s * (2 * d - i + i)) = 1 := by
      rw [Nat.sub_add_cancel (by omega), mul_comm, pow_mul, pow_two_mul S.root_pow, one_pow]
    simp [hone]
  calc S.interpolate (S.values p) i
      = ∑ s, ∑ j, coeff p j * S.root ^ (S.exp s * (2 * d - i + j)) := by
        rw [S.interpolate_apply]
        refine Finset.sum_congr rfl fun s _ => ?_
        conv_lhs => rw [← ofCoeffs_coeffs p]
        rw [S.values_apply, S.eval_ofCoeffs, Finset.sum_mul]
        exact Finset.sum_congr rfl fun j _ => hterm s j
    _ = ∑ j, coeff p j * ∑ s, S.root ^ (S.exp s * (2 * d - i + j)) := by
        rw [Finset.sum_comm]
        exact Finset.sum_congr rfl fun j _ => (Finset.mul_sum _ _ _).symm
    _ = coeff p i * ∑ s, S.root ^ (S.exp s * (2 * d - i + i)) := by
        rw [Finset.sum_eq_single i (fun j _ hji => ?_) (by simp)]
        rw [S.sum_root_pow hd (not_dvd_two_mul_sub_add hji), mul_zero]
    _ = d * coeff p i := by rw [hself, mul_comm]

theorem values_injective (hd : d = 2 ^ t) (hunit : IsUnit (d : R)) :
    Function.Injective S.values := by
  have : NeZero d := ⟨by rw [hd]; positivity⟩
  intro p p' h
  refine ext_coeff fun i => hunit.mul_left_cancel ?_
  rw [← S.interpolate_values hd, ← S.interpolate_values hd, h]

/-- **Interpolation is the inverse transform**: dividing it by `d` recovers an element with the
given slot values. -/
theorem values_interpolate (hd : d = 2 ^ t) {dInv : R} (hinv : dInv * d = 1) (v : Fin d → R) :
    S.values (ofCoeffs (dInv • S.interpolate v)) = v := by
  have : NeZero d := ⟨by rw [hd]; positivity⟩
  have hsurj : Function.Surjective S.interpolate := by
    intro c
    refine ⟨S.values (ofCoeffs (dInv • c)), funext fun i => ?_⟩
    rw [S.interpolate_values hd, coeff_ofCoeffs, Pi.smul_apply, smul_eq_mul, ← mul_assoc,
      mul_comm _ dInv, hinv, one_mul]
  have hbij := OrzechProperty.bijective_of_surjective_endomorphism S.interpolate hsurj
  refine hbij.1 (funext fun i => ?_)
  rw [S.interpolate_values hd, coeff_ofCoeffs, Pi.smul_apply, smul_eq_mul, ← mul_assoc,
    mul_comm _ dInv, hinv, one_mul]

end Slots

end Negacyclic
