import IpirSp.Inspiring.Lwe
import IpirSp.KeySwitch.Cascade
import Mathlib.Data.List.GetD

/-!
# Key switching

`signedGadgetInvertAlloc` writes a polynomial in base `z = 2^bits_per`.  The low `ell - 1` digits
are balanced: a low part of at least `z/2` becomes its difference to `z`, stored modulo `q`, and
carries one upwards; the top digit keeps the whole remaining quotient.  `sum_signedDigits` is the
exactness of that decomposition modulo `q`, which needs neither a bound on the carries nor the
coverage of the gadget.  `ringDigits_recompose` lifts it to the ring.

`ksSwitchWithDigits` is one switch: the digits times both rows of the matrix, and the second
component added to the body.
-/

namespace Inspiring

open Negacyclic SpiralRs Matrix

/-- The digit loop of one coefficient, with `n` balanced digits to come before the top one. -/
def signedDigits (g : GadgetParams) (q : ℕ) : ℕ → ℕ → List ℕ
  | 0, x => [if x ≥ q then x % q else x]
  | n + 1, x =>
      let low := x &&& (g.z - 1)
      let rest := x >>> g.bitsPer
      if low ≥ g.z / 2 then (q - (g.z - low)) :: signedDigits g q n (rest + 1)
      else low :: signedDigits g q n rest

theorem low_bits (g : GadgetParams) (x : ℕ) : x &&& (g.z - 1) = x % g.z :=
  Nat.and_two_pow_sub_one_eq_mod x g.bitsPer

theorem high_bits (g : GadgetParams) (x : ℕ) : x >>> g.bitsPer = x / g.z :=
  Nat.shiftRight_eq_div_pow x g.bitsPer

theorem length_signedDigits (g : GadgetParams) (q n x : ℕ) :
    (signedDigits g q n x).length = n + 1 := by
  induction n generalizing x with
  | zero => rfl
  | succ n ih =>
      simp only [signedDigits]
      split <;> rw [List.length_cons, ih]

/-- **The digits recompose modulo `q`**, for every input word. -/
theorem sum_signedDigits {g : GadgetParams} {q : ℕ} (hhalf : g.z / 2 ≤ q) (hz : 2 ∣ g.z) (n x : ℕ) :
    ∑ k ∈ Finset.range (n + 1), ((signedDigits g q n x).getD k 0 : ZMod q) * (g.z : ZMod q) ^ k =
      x := by
  induction n generalizing x with
  | zero =>
      simp only [signedDigits, zero_add, Finset.sum_range_one, List.getD_cons_zero,
        pow_zero, mul_one]
      split <;> simp
  | succ n ih =>
      have hsplit : ((x % g.z : ℕ) : ZMod q) + g.z * ((x / g.z : ℕ) : ZMod q) = x := by
        rw [← Nat.cast_mul, ← Nat.cast_add, Nat.mod_add_div]
      have hshift (l : List ℕ) (a : ℕ) :
          ∑ k ∈ Finset.range (n + 1 + 1), ((a :: l).getD k 0 : ZMod q) * (g.z : ZMod q) ^ k =
            a + g.z * ∑ k ∈ Finset.range (n + 1), (l.getD k 0 : ZMod q) * (g.z : ZMod q) ^ k := by
        rw [Finset.sum_range_succ', Finset.mul_sum, add_comm]
        refine congrArg₂ (· + ·) (by simp) (Finset.sum_congr rfl fun k _ => ?_)
        rw [List.getD_cons_succ, pow_succ]
        ring
      simp only [signedDigits, low_bits, high_bits]
      split
      · rename_i hlow
        have hlt : x % g.z < g.z := Nat.mod_lt _ (Nat.two_pow_pos _)
        rw [hshift, ih, Nat.cast_sub (by omega), Nat.cast_sub hlt.le, ZMod.natCast_self]
        push_cast
        linear_combination hsplit
      · rw [hshift, ih, hsplit]

theorem signedDigits_lt {g : GadgetParams} {q : ℕ} (hq : 0 < q) (hhalf : g.z / 2 ≤ q) (n x : ℕ) :
    ∀ w ∈ signedDigits g q n x, w < q := by
  induction n generalizing x with
  | zero =>
      intro w hw
      rw [signedDigits, List.mem_singleton] at hw
      rw [hw]
      split
      · exact Nat.mod_lt _ hq
      · omega
  | succ n ih =>
      have hlt : x % g.z < g.z := Nat.mod_lt _ (Nat.two_pow_pos _)
      simp only [signedDigits, low_bits, high_bits]
      split
      · rename_i hlow
        intro w hw
        rcases List.mem_cons.mp hw with rfl | hw
        · omega
        · exact ih _ w hw
      · intro w hw
        rcases List.mem_cons.mp hw with rfl | hw
        · omega
        · exact ih _ w hw

section Switch

variable (P : RlweParams)

/-- `signed_gadget_invert_alloc`, once its assertion has passed. -/
def signedGadgetInvert (input : Poly P.d) (k : ℕ) : Poly P.d := fun coeffIdx =>
  let x := input coeffIdx
  let x := if x ≥ P.q then x % P.q else x
  (signedDigits P.gadget P.q (P.gadget.ell - 1) x).getD k 0

/-- `signed_gadget_invert_alloc`: the `ell` digit polynomials. -/
def signedGadgetInvertAlloc (input : Poly P.d) : Outcome (ℕ → Poly P.d) :=
  if P.gadget.z / 2 ≤ P.q then .ok (signedGadgetInvert P input)
  else .error (.panic "signed digits must be representable modulo q")

/-- The NTT-form digits of an NTT-form component, as an `ell × 1` matrix. -/
def digitsNtt (c1 : Ntt P.d P.q) : PolyMatrixNTT P.d P.q :=
  .ofCol P.gadget.ell fun k =>
    P.spiral.toNttAlloc (signedGadgetInvert P (P.spiral.fromNttAlloc c1) k)

/-- `ks_digits_ntt_from_c1`. -/
def ksDigitsNttFromC1 (c1 : Ntt P.d P.q) : Outcome (PolyMatrixNTT P.d P.q) := do
  let digitsRaw ← signedGadgetInvertAlloc P (P.spiral.fromNttAlloc c1)
  .ok (.ofCol P.gadget.ell fun k => P.spiral.toNttAlloc (digitsRaw k))

/-- A key-switching matrix: two rows of `ell` polynomials when well shaped. -/
structure KeySwitchingMatrix where
  mat : PolyMatrixNTT P.d P.q

variable {P}

/-- The mask row of a well-shaped key. -/
def KeySwitchingMatrix.top (k : KeySwitchingMatrix P) : Fin P.gadget.ell → Ntt P.d P.q :=
  k.mat.row 0 P.gadget.ell

/-- The body row of a well-shaped key. -/
def KeySwitchingMatrix.body (k : KeySwitchingMatrix P) : Fin P.gadget.ell → Ntt P.d P.q :=
  k.mat.row 1 P.gadget.ell

/-- The shape that every switch asserts. -/
def KeySwitchingMatrix.WellShaped (k : KeySwitchingMatrix P) : Prop :=
  k.mat.rows = 2 ∧ k.mat.cols = P.gadget.ell

instance (k : KeySwitchingMatrix P) : Decidable k.WellShaped :=
  inferInstanceAs (Decidable (_ ∧ _))

/-- `ks_switch_with_digits_ntt`: the new component to add and the new body. -/
def ksSwitchWithDigitsNtt (k : KeySwitchingMatrix P) (digits : PolyMatrixNTT P.d P.q)
    (c2 : Ntt P.d P.q) : Outcome (Ntt P.d P.q × Ntt P.d P.q) :=
  if k.mat.rows ≠ 2 then .error (.panic "KS matrix must have 2 rows ([w; y])")
  else if k.mat.cols ≠ P.gadget.ell then
    .error (.panic "KS matrix width must match the gadget length ℓ")
  else if digits.rows ≠ P.gadget.ell ∨ digits.cols ≠ 1 then
    .error (.panic "assertion failed: digits_ntt.rows == params.gadget.ell")
  else
    let deltaA := P.spiral.multiply k.top (digits.col P.gadget.ell)
    let deltaB := P.spiral.multiply k.body (digits.col P.gadget.ell)
    .ok (deltaA, P.spiral.addInto deltaB c2)

/-- `ks_switch`. -/
def ksSwitch (k : KeySwitchingMatrix P) (c1 c2 : Ntt P.d P.q) :
    Outcome (Ntt P.d P.q × Ntt P.d P.q) :=
  if k.mat.rows ≠ 2 then .error (.panic "KS matrix must have 2 rows ([w; y])")
  else if k.mat.cols ≠ P.gadget.ell then
    .error (.panic "KS matrix width must match the gadget length ℓ")
  else do
    let digits ← ksDigitsNttFromC1 P c1
    ksSwitchWithDigitsNtt k digits c2

/-- `automorphic_image_with_table`. -/
def automorphicImageWithTable (k : KeySwitchingMatrix P) (table : NttAutomorphTable P.d) :
    KeySwitchingMatrix P :=
  ⟨k.mat.map fun v => applyTauNtt v table⟩

/-! ## Specifications -/

/-- The condition under which the digit loop does not stop at its assertion. -/
def DigitsFit (P : RlweParams) : Prop := P.gadget.z / 2 ≤ P.q

instance : Decidable (DigitsFit P) := inferInstanceAs (Decidable (_ ≤ _))

theorem ksDigitsNttFromC1_eq (hfit : DigitsFit P) (c1 : Ntt P.d P.q) :
    ksDigitsNttFromC1 P c1 = .ok (digitsNtt P c1) := by
  have hassert : P.gadget.z / 2 ≤ P.q := hfit
  rw [ksDigitsNttFromC1, signedGadgetInvertAlloc, if_pos hassert]
  rfl

theorem ksSwitchWithDigitsNtt_eq {k : KeySwitchingMatrix P} (hk : k.WellShaped)
    {digits : PolyMatrixNTT P.d P.q} (hrows : digits.rows = P.gadget.ell) (hcols : digits.cols = 1)
    (c2 : Ntt P.d P.q) :
    ksSwitchWithDigitsNtt k digits c2 =
      .ok (P.spiral.multiply k.top (digits.col P.gadget.ell),
        P.spiral.addInto (P.spiral.multiply k.body (digits.col P.gadget.ell)) c2) := by
  rw [ksSwitchWithDigitsNtt, if_neg (not_not.mpr hk.1), if_neg (not_not.mpr hk.2),
    if_neg (by simp [hrows, hcols])]

theorem ksSwitch_eq (hfit : DigitsFit P) {k : KeySwitchingMatrix P} (hk : k.WellShaped)
    (c1 c2 : Ntt P.d P.q) :
    ksSwitch k c1 c2 =
      .ok (P.spiral.multiply k.top ((digitsNtt P c1).col P.gadget.ell),
        P.spiral.addInto (P.spiral.multiply k.body ((digitsNtt P c1).col P.gadget.ell)) c2) := by
  rw [ksSwitch, if_neg (not_not.mpr hk.1), if_neg (not_not.mpr hk.2), ksDigitsNttFromC1_eq hfit]
  exact ksSwitchWithDigitsNtt_eq hk rfl rfl c2

/-- A row of NTT-form polynomials as a vector of ring elements. -/
noncomputable def ringVec {n : ℕ} (v : Fin n → Ntt P.d P.q) (k : Fin n) : NegRing P.d (ZMod P.q) :=
  P.spiral.ring (v k)

/-- A digit column as a vector of ring elements. -/
noncomputable def ringDigits (digits : PolyMatrixNTT P.d P.q) :
    Fin P.gadget.ell → NegRing P.d (ZMod P.q) :=
  ringVec (digits.col P.gadget.ell)

variable (P) in
/-- The gadget vector `[1, z, z², …]`. -/
noncomputable def gadgetVec (k : Fin P.gadget.ell) : NegRing P.d (ZMod P.q) :=
  ((P.gadget.z : NegRing P.d (ZMod P.q))) ^ (k : ℕ)

theorem ring_multiply_eq_dotProduct {n : ℕ} (v w : Fin n → Ntt P.d P.q) :
    P.spiral.ring (P.spiral.multiply v w) = ringVec v ⬝ᵥ ringVec w :=
  P.spiral.ring_multiply v w

theorem two_dvd_z : 2 ∣ P.gadget.z := dvd_pow_self 2 P.bitsPer_pos.ne'

theorem signedGadgetInvert_lt (hfit : DigitsFit P) (input : Poly P.d) (k : ℕ) (i : Fin P.d) :
    signedGadgetInvert P input k i < P.q := by
  have hwords := signedDigits_lt P.q_pos hfit (P.gadget.ell - 1)
    (if input i ≥ P.q then input i % P.q else input i)
  simp only [signedGadgetInvert]
  by_cases hk : k < (signedDigits P.gadget P.q (P.gadget.ell - 1)
      (if input i ≥ P.q then input i % P.q else input i)).length
  · rw [List.getD_eq_getElem _ _ hk]
    exact hwords _ (List.getElem_mem hk)
  · rw [List.getD_eq_default _ _ (not_lt.mp hk)]
    exact P.q_pos

/-- **The digits of a component recompose to it.** -/
theorem gadgetVec_dotProduct_digits (hfit : DigitsFit P) (c1 : Ntt P.d P.q) :
    gadgetVec P ⬝ᵥ ringDigits (digitsNtt P c1) = P.spiral.ring c1 := by
  have hell : P.gadget.ell - 1 + 1 = P.gadget.ell := Nat.sub_add_cancel P.ell_pos
  have hdigit (k : Fin P.gadget.ell) : ringDigits (digitsNtt P c1) k =
      Poly.ring P.q (signedGadgetInvert P (P.spiral.fromNttAlloc c1) k) :=
    P.spiral.ring_toNttAlloc fun i =>
      P.spiral.lt_word_of_le (signedGadgetInvert_lt hfit _ k i).le
  refine ext_coeff fun i => ?_
  have hsum := sum_signedDigits hfit two_dvd_z (P.gadget.ell - 1) (P.spiral.fromNttAlloc c1 i)
  rw [hell, Finset.sum_range] at hsum
  rw [dotProduct, coeff_sum, Params.ring, Poly.coeff_ring, ← hsum]
  refine Finset.sum_congr rfl fun k _ => ?_
  have hscalar : gadgetVec P k * ringDigits (digitsNtt P c1) k =
      ((P.gadget.z : ZMod P.q) ^ (k : ℕ)) • ringDigits (digitsNtt P c1) k := by
    rw [gadgetVec, Algebra.smul_def, map_pow, map_natCast]
  have hlt := P.spiral.fromNttAlloc_lt c1 i
  rw [hscalar, coeff_smul, hdigit, Poly.coeff_ring, mul_comm, signedGadgetInvert]
  simp only [ge_iff_le, not_le.mpr hlt, if_false]

end Switch

end Inspiring
