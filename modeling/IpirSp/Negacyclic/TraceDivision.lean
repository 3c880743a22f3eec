import IpirSp.Negacyclic.Integer

/-!
# Traces that are divided by the degree

Over a power of two the degree has no inverse.  A trace is then taken over the integers, where it is
a multiple of the degree as a whole; what is divided, and rounded down, are its parts
`∑ j, X^j · τ_g(a_j)` for the odd exponents `g`.  `exists_divisionError` is what that costs: the
images of a small `s` times the floors sum up to the inner products, up to a small error.
-/

namespace Negacyclic

variable {d t : ℕ} [NeZero d] {B : ℤ}

/-- Every coefficient divided by the degree, rounded down. -/
noncomputable def floorDiv (p : NegRing d ℤ) : NegRing d ℤ := ofCoeffs fun i => coeff p i / d

/-- What the division leaves. -/
noncomputable def leftOver (p : NegRing d ℤ) : NegRing d ℤ := ofCoeffs fun i => coeff p i % d

/-- The part of a trace at one exponent. -/
noncomputable def traceAt (a : Fin d → NegRing d ℤ) (g : ℕ) : NegRing d ℤ :=
  ∑ j : Fin d, x ^ (j : ℕ) * tau g (a j)

@[simp] theorem coeff_floorDiv (p : NegRing d ℤ) (i : Fin d) :
    coeff (floorDiv p) i = coeff p i / d :=
  coeff_ofCoeffs _ i

theorem floorDiv_add_leftOver (p : NegRing d ℤ) : (d : ℤ) • floorDiv p + leftOver p = p := by
  refine ext_coeff fun i => ?_
  rw [coeff_add, coeff_smul, coeff_floorDiv, leftOver, coeff_ofCoeffs]
  exact Int.mul_ediv_add_emod _ _

theorem coeffsLe_leftOver (p : NegRing d ℤ) : CoeffsLe (leftOver p) (d - 1) := by
  intro i
  have hd : (0 : ℤ) < d := by exact_mod_cast NeZero.pos d
  have hnonneg := Int.emod_nonneg (coeff p i) hd.ne'
  have hlt := Int.emod_lt_of_pos (coeff p i) hd
  rw [leftOver, coeff_ofCoeffs, abs_of_nonneg hnonneg]
  exact Int.le_sub_one_of_lt hlt

theorem CoeffsLe.sum {ι : Type*} {l : Finset ι} {p : ι → NegRing d ℤ}
    (hp : ∀ n ∈ l, CoeffsLe (p n) B) : CoeffsLe (∑ n ∈ l, p n) (l.card * B) := by
  intro i
  rw [coeff_sum, ← nsmul_eq_mul]
  exact (Finset.abs_sum_le_sum_abs _ _).trans (Finset.sum_le_card_nsmul _ _ _ fun n hn => hp n hn i)

/-- **The images of `s` times the parts of the trace** sum up to the inner products, times the
degree. -/
theorem sum_tau_mul_traceAt (hd : d = 2 ^ t) (s : NegRing d ℤ) (a : Fin d → NegRing d ℤ) :
    ∑ k ∈ Finset.range d, tau (2 * k + 1) s * traceAt a (2 * k + 1) =
      (d : ℤ) • ∑ j : Fin d, coeff (a j * s) 0 • x ^ (j : ℕ) := by
  have hterm (k : ℕ) : tau (2 * k + 1) s * traceAt a (2 * k + 1) =
      ∑ j : Fin d, x ^ (j : ℕ) * tau (2 * k + 1) (a j * s) := by
    rw [traceAt, Finset.mul_sum]
    refine Finset.sum_congr rfl fun j _ => ?_
    rw [map_mul]
    ring
  simp only [hterm]
  rw [Finset.sum_comm, Finset.smul_sum]
  refine Finset.sum_congr rfl fun j _ => ?_
  rw [← Finset.mul_sum, sum_tau hd, mul_smul_comm, mul_one, smul_smul]

/-- **Dividing the parts costs little.** -/
theorem exists_divisionError (hd : d = 2 ^ t) {s : NegRing d ℤ} (hs : CoeffsLe s B)
    (a : Fin d → NegRing d ℤ) :
    ∃ e : NegRing d ℤ, CoeffsLe e (d * (d - 1) * B) ∧
      ∑ k ∈ Finset.range d, tau (2 * k + 1) s * floorDiv (traceAt a (2 * k + 1)) =
        ∑ j : Fin d, coeff (a j * s) 0 • x ^ (j : ℕ) - e := by
  have hpos : (0 : ℤ) < d := by exact_mod_cast NeZero.pos d
  have hodd (k : ℕ) : Odd (2 * k + 1) := ⟨k, rfl⟩
  have hcoprime (k : ℕ) : Nat.Coprime (2 * k + 1) d := by
    rw [hd]
    exact Nat.Coprime.pow_right t (hodd k).coprime_two_right
  set floors := ∑ k ∈ Finset.range d, tau (2 * k + 1) s * floorDiv (traceAt a (2 * k + 1))
  set inner := ∑ j : Fin d, coeff (a j * s) 0 • (x : NegRing d ℤ) ^ (j : ℕ)
  refine ⟨inner - floors, fun i => ?_, (sub_sub_cancel _ _).symm⟩
  -- the error is what the divisions leave, divided by the degree
  have hwhole := sum_tau_mul_traceAt hd s a
  have hscaled : (d : ℤ) • (inner - floors) =
      ∑ k ∈ Finset.range d, tau (2 * k + 1) s * leftOver (traceAt a (2 * k + 1)) := by
    rw [smul_sub, ← hwhole, Finset.smul_sum, ← Finset.sum_sub_distrib]
    refine Finset.sum_congr rfl fun k _ => ?_
    have hsplit := floorDiv_add_leftOver (traceAt a (2 * k + 1))
    generalize floorDiv (traceAt a (2 * k + 1)) = floor at hsplit ⊢
    rw [← hsplit, mul_add, mul_smul_comm, add_sub_cancel_left, hsplit]
  have hbound : CoeffsLe ((d : ℤ) • (inner - floors)) (d * (d * B * (d - 1))) := by
    rw [hscaled]
    have hsum := CoeffsLe.sum (l := Finset.range d) fun k _ =>
      (hs.tau (hodd k) (hcoprime k)).mul (coeffsLe_leftOver (traceAt a (2 * k + 1)))
    rwa [Finset.card_range] at hsum
  have hi := hbound i
  rw [coeff_smul, abs_mul, abs_of_pos hpos] at hi
  have hle := le_of_mul_le_mul_left hi hpos
  exact hle.trans (le_of_eq (by ring))

end Negacyclic
