import IpirSp.Inspiring.Automorph

/-!
# LWE ciphertexts and their embedding

An LWE mask is a `Vec<u64>` of any length; the embedding `a_tilde` asserts the ring degree and
reduces every word.  It stores the mask at the negative exponents, `ã = ∑ a_i X^(-i)`, so that the
constant coefficient of `ã · s` is the inner product of the mask with the coefficients of `s`:
this is `ring_aTildeCoeffs` together with `Negacyclic.coeff_zero_maskPoly_mul`.
-/

namespace Inspiring

open Negacyclic SpiralRs

/-- An LWE ciphertext `(a, b)` as it arrives. -/
structure LweCiphertext where
  a : List ℕ
  b : ℕ
deriving DecidableEq

/-- The ciphertexts of one packing. -/
structure LweBatch where
  inner : List LweCiphertext
deriving DecidableEq

/-- A `Vec` of known length read by index. -/
def vecGet {n : ℕ} (a : List ℕ) (i : Fin n) : ℕ := a.getD i 0

variable (P : RlweParams)

/-- `LweBatch::validate`. -/
def LweBatch.validate (batch : LweBatch) : Outcome Unit :=
  if batch.inner.length ≠ P.d then
    .error (.err (.lweShape
      s!"expected {P.d} LWE ciphertexts, got {batch.inner.length}"))
  else
    match batch.inner.zipIdx.find? fun (ct, _) => ct.a.length ≠ P.d with
    | some (ct, idx) => .error (.err (.lweShape
        s!"ciphertext {idx} has a length {ct.a.length}, expected {P.d}"))
    | none => .ok ()

/-- The words that `a_tilde` and `a_tilde_coeffs` write: word `0` is `a[0]`, and `a[i]` is negated
into word `d - i`. -/
def aTildeCoeffs (a : Fin P.d → ℕ) : Poly P.d := fun k =>
  if k = 0 then a 0 % P.q
  else
    let reduced := a (-k) % P.q
    if reduced = 0 then 0 else P.q - reduced

/-- `lwe::a_tilde`. -/
def aTilde (a : List ℕ) : Outcome (Poly P.d) :=
  if a.length = P.d then .ok (aTildeCoeffs P (vecGet a))
  else .error (.panic "lwe::a_tilde expects an LWE vector of length d")

/-- `lwe::b_tilde`. -/
def bTilde (b : ℕ) : Poly P.d := fun k => if k = 0 then b % P.q else 0

variable {P}

theorem aTildeCoeffs_lt (a : Fin P.d → ℕ) (k : Fin P.d) : aTildeCoeffs P a k < P.q := by
  have hq := P.q_pos
  have hmod (x : ℕ) : x % P.q < P.q := Nat.mod_lt _ hq
  simp only [aTildeCoeffs]
  split
  · exact hmod _
  · split
    · exact hq
    · omega

/-- Negating a reduced word the way the code does is negation in `Z_q`. -/
theorem cast_negWord {q r : ℕ} (hr : r ≤ q) :
    ((if r = 0 then 0 else q - r : ℕ) : ZMod q) = -(r : ZMod q) := by
  split
  · rename_i h0
    simp [h0]
  · rw [Nat.cast_sub hr, ZMod.natCast_self, zero_sub]

/-- **The embedded mask is the mask polynomial.** -/
theorem ring_aTildeCoeffs (a : Fin P.d → ℕ) :
    Poly.ring P.q (aTildeCoeffs P a) = maskPoly fun i => (a i : ZMod P.q) := by
  rw [maskPoly_eq_ofCoeffs, Poly.ring]
  refine congrArg ofCoeffs (funext fun k => ?_)
  simp only [aTildeCoeffs]
  split
  · simp
  · rw [cast_negWord (Nat.mod_lt _ P.q_pos).le, ZMod.natCast_mod]

theorem ring_bTilde (b : ℕ) : Poly.ring P.q (bTilde P b) = (b : ZMod P.q) • 1 := by
  refine ext_coeff fun k => ?_
  rw [Poly.coeff_ring, coeff_smul, ← pow_zero x, coeff_x_pow_of_lt P.d_pos]
  by_cases hk : k = 0
  · simp [bTilde, hk]
  · have : (0 : ℕ) ≠ k := fun h0 => hk (Fin.ext h0.symm)
    simp [bTilde, hk, this]

end Inspiring
