import IpirSp.Inspiring.Trace

/-!
# The phase of a packing

What a packed ciphertext `(c1, c2)` decrypts to is its phase `c1 · s + c2`.  This module computes
it.  The argument has three parts.

`phase_block` follows the schedule: each half is a generic cascade whose component `i` is meant for
`τ_{5^i}(s)`, respectively `τ_{-5^i}(s)`, so by `KeySwitch.phase_foldSlots_of_exact` it keeps its
phase up to key errors, and the last switch brings the survivor of the right half back to `s`.

`sum_aggregates` is the trace: the phases `τ_e(s) · â_e` of all components sum to the inner products
`⟨a_k, s⟩` in their slots, because `∑ τ_e` is `d` times the constant coefficient and the aggregates
carry the factor `d⁻¹`.

`build_spec` and `packB_spec` put the functions of the preprocessing around it.
-/

namespace Inspiring

open Negacyclic SpiralRs KeySwitch Loops Matrix

variable {P : RlweParams}

/-! ## Keys -/

/-- `body` encrypts the gadget multiples of `target` under `s`, with mask row `mask` and errors
`err`: its entry `k` is `s · mask_k + e_k + target · z^k`. -/
def IsKeyBody (s target : NegRing P.d (ZMod P.q))
    (mask err body : Fin P.gadget.ell → NegRing P.d (ZMod P.q)) : Prop :=
  ∀ k, body k = s * mask k + err k + target * gadgetVec P k

variable (P) in
/-- The fixed masks as ring elements. -/
noncomputable def maskRow (seed : Seed) (k : Fin P.gadget.ell) : NegRing P.d (ZMod P.q) :=
  Poly.ring P.q (referenceMaskRaw P seed k)

/-- The uploaded keys of secret `s` with errors `eg` and `eh`. -/
structure PackingKeys.IsFor (keys : PackingKeys P) (s : NegRing P.d (ZMod P.q))
    (eg eh : Fin P.gadget.ell → NegRing P.d (ZMod P.q)) : Prop where
  kg_shape : BodyShape keys.kgBody P.gadget.ell
  kh_shape : BodyShape keys.khBody P.gadget.ell
  kg : IsKeyBody s (tau G s) (maskRow P REFERENCE_W_SEED) eg (ringVec (bodyRow keys.kgBody))
  kh : IsKeyBody s (tau (h P.d) s) (maskRow P REFERENCE_V_SEED) eh (ringVec (bodyRow keys.khBody))

/-- The rows of the fixed keys are the negated masks. -/
theorem ringVec_fixedReferenceKey_top (seed : Seed) :
    ringVec (fixedReferenceKey P seed).top = -maskRow P seed := by
  funext k
  have hle (i : Fin P.d) : referenceMaskRaw P seed k i ≤ P.q := (P.spiral.randomRng_lt _ _ i).le
  show P.spiral.ring (P.spiral.toNttAlloc _) = _
  rw [P.spiral.ring_toNttAlloc fun i => P.spiral.lt_word_of_le (P.spiral.negRaw_le _ hle i),
    P.spiral.ring_negRaw hle]
  rfl

/-- The gadget position `2^(bits_per · k)` of a generated body is the constant `z^k`. -/
theorem ring_gadgetEntry {k : ℕ} (hk : P.gadget.bitsPer * k < 64) :
    P.spiral.ring (P.spiral.toNttAlloc fun i =>
      if i = 0 then P.spiral.buildGadget P.gadget.ell k else 0) =
        ((P.gadget.z : NegRing P.d (ZMod P.q))) ^ k := by
  have hval : P.spiral.buildGadget P.gadget.ell k = P.gadget.z ^ k := by
    rw [P.spiral.buildGadget_eq, P.bitsPer_eq, if_pos hk, GadgetParams.z, pow_mul]
  have hlt : P.gadget.z ^ k < 2 ^ 64 := by
    rw [GadgetParams.z, ← pow_mul]
    exact Nat.pow_lt_pow_right (by decide) hk
  rw [P.spiral.ring_toNttAlloc fun i => by split <;> omega]
  refine ext_coeff fun i => ?_
  have hcast : ((P.gadget.z : NegRing P.d (ZMod P.q))) ^ k =
      ((P.gadget.z ^ k : ℕ) : ZMod P.q) • x ^ 0 := by
    rw [pow_zero, ← Algebra.algebraMap_eq_smul_one, map_natCast, Nat.cast_pow]
  rw [Poly.coeff_ring, hval, hcast, coeff_smul, coeff_x_pow_of_lt P.d_pos]
  by_cases hi : i = 0
  · simp [hi]
  · have hne : (0 : ℕ) ≠ i := fun h0 => hi (Fin.ext h0.symm)
    simp [hi, hne]

/-- **Generated key bodies are key bodies**, as long as every gadget power is a machine word. -/
theorem generateReferenceBody_isKeyBody (hgadget : P.gadget.bitsPer * (P.gadget.ell - 1) < 64)
    (secretNtt : Ntt P.d P.q) {e : ℕ} (he : Odd e) (seed : Seed) {error : ℕ → Poly P.d}
    (herror : ∀ k i, error k i < 2 ^ 64) :
    IsKeyBody (P.spiral.ring secretNtt) (tau e (P.spiral.ring secretNtt)) (maskRow P seed)
      (fun k => Poly.ring P.q (error k))
      (ringVec (bodyRow (generateReferenceBody P secretNtt e seed error))) := by
  intro k
  have hk : P.gadget.bitsPer * (k : ℕ) < 64 :=
    (Nat.mul_le_mul_left _ (Nat.le_sub_one_of_lt k.2)).trans_lt hgadget
  have hsecret (i : Fin P.d) : P.spiral.fromNttAlloc secretNtt i ≤ P.q :=
    (P.spiral.fromNttAlloc_lt _ i).le
  have hmask (i : Fin P.d) : referenceMaskRaw P seed k i < 2 ^ 64 :=
    P.spiral.lt_word_of_le (P.spiral.randomRng_lt _ _ i).le
  show P.spiral.ring (P.spiral.addInto (P.spiral.addInto _ _) _) = _
  rw [P.spiral.ring_addInto, P.spiral.ring_addInto, P.spiral.ring_multiply,
    P.spiral.ring_scalarMultiply, ring_gadgetEntry hk, P.spiral.ring_toNttAlloc (herror k)]
  rw [P.spiral.ring_toNttAlloc fun i => P.spiral.lt_word_of_le
      (P.spiral.automorphAlloc_le _ _ he hsecret i),
    P.spiral.ring_automorphAlloc _ _ he hsecret]
  simp only [Finset.univ_unique, Finset.sum_singleton, P.spiral.ring_toNttAlloc hmask]
  rfl

/-- **Generated uploads are keys for their secret.** -/
theorem generateFull_isFor (hgadget : P.gadget.bitsPer * (P.gadget.ell - 1) < 64)
    (secretNtt : Ntt P.d P.q) {kgError khError : ℕ → Poly P.d}
    (hkg : ∀ k i, kgError k i < 2 ^ 64) (hkh : ∀ k i, khError k i < 2 ^ 64) :
    (PackingKeys.generateFull P secretNtt kgError khError).IsFor (P.spiral.ring secretNtt)
      (fun k => Poly.ring P.q (kgError k)) fun k => Poly.ring P.q (khError k) where
  kg_shape := ⟨rfl, rfl⟩
  kh_shape := ⟨rfl, rfl⟩
  kg := by
    have hG : tau (R := ZMod P.q) (tauGPow 1 P.d) = tau (d := P.d) G := by
      rw [tauGPow_eq P.d_pos, leftExp, pow_one]
      exact tau_mod odd_G
    rw [← hG]
    refine generateReferenceBody_isKeyBody hgadget secretNtt ?_ _ hkg
    rw [tauGPow_eq P.d_pos]
    exact odd_leftExp P.d 1
  kh := generateReferenceBody_isKeyBody hgadget secretNtt (odd_h P.d_pos) _ hkh

/-! ## The schedule -/

section Schedule

variable {kg kh : KeySwitchingMatrix P} {s : NegRing P.d (ZMod P.q)}
  {eg eh kgBody khBody : Fin P.gadget.ell → NegRing P.d (ZMod P.q)}

theorem ring_blockComponent (aHat : ℕ → Ntt P.d P.q) :
    P.spiral.ring (blockComponent kg kh aHat) = P.spiral.ring (leftSurvivor kg aHat) +
      ringVec kh.top ⬝ᵥ ringDigits (finalDigits kg aHat) := by
  rw [blockComponent, P.spiral.ring_addInto, ring_multiply_eq_dotProduct]
  rfl

theorem tau_gadgetVec (e : ℕ) (k : Fin P.gadget.ell) : tau e (gadgetVec P k) = gadgetVec P k := by
  rw [gadgetVec, map_pow, map_natCast]

/-- The images of a key for `τ_g(s)` under a family of automorphisms with ratio `g` are a family of
switching keys. -/
theorem isKeyFamily_images {exp : ℕ → ℕ} (hodd : ∀ i, Odd (exp i))
    (hsucc : ∀ i, exp i * 5 ≡ exp (i + 1) [MOD 2 * P.d])
    (hkey : IsKeyBody s (tau G s) (-ringVec kg.top) eg kgBody) (n : ℕ) :
    IsKeyFamily n (gadgetVec P) (fun i => tau (exp i) s)
      (fun i => ringVec (keyImage kg (exp i)).top) (fun i k => tau (exp i) (kgBody k))
      fun i k => tau (exp i) (eg k) := by
  intro i _ k
  have htarget : tau (exp i) (tau G s) = tau (exp (i + 1)) s := by
    rw [tau_tau (hodd i) odd_G]
    exact DFunLike.congr_fun (tau_congr ((hodd i).mul odd_G) (hodd _) (hsucc i)) s
  simp only [hkey k, ringVec_keyImage_top (hodd i), map_add, map_mul, htarget, tau_gadgetVec,
    Pi.neg_apply, map_neg, mul_neg]

/-- One half keeps its phase up to the key errors. -/
theorem phase_half (hfit : DigitsFit P) {exp : ℕ → ℕ} (hodd : ∀ i, Odd (exp i))
    (hsucc : ∀ i, exp i * 5 ≡ exp (i + 1) [MOD 2 * P.d])
    (hkey : IsKeyBody s (tau G s) (-ringVec kg.top) eg kgBody) (a : ℕ → Ntt P.d P.q) (n : ℕ) :
    tau (exp 0) s * P.spiral.ring
          (foldLast (fun i => (keyImage kg (exp i)).top) (a n) (stackBelow a n)) +
        halfBody exp kgBody (foldDigits (fun i => (keyImage kg (exp i)).top) (a n)
          (stackBelow a n)) =
      ∑ i ∈ Finset.range (n + 1), tau (exp i) s * P.spiral.ring (a i) +
        halfBody exp eg (foldDigits (fun i => (keyImage kg (exp i)).top) (a n)
          (stackBelow a n)) := by
  have hrun := phase_foldSlots_of_exact (P.spiral.ring (a n)) ((stackBelow a n).map P.spiral.ring)
    ((foldDigits (fun i => (keyImage kg (exp i)).top) (a n) (stackBelow a n)).map ringDigits)
    (by simp) (isKeyFamily_images hodd hsucc hkey _) (residues_foldDigits _ hfit _ _)
  have hstack : P.spiral.ring (a n) :: (stackBelow a n).map P.spiral.ring =
      ((List.range (n + 1)).map fun i => P.spiral.ring (a i)).reverse := by
    simp [stackBelow, List.range_succ, Function.comp_def]
  rw [hstack, slotSum_reverse_map_range, ← ring_foldLast] at hrun
  exact hrun

/-- **The phase of a block.**  The schedule keeps the phase of all components, up to the key
errors that `blockSum` collects. -/
theorem phase_block (hfit : DigitsFit P)
    (hkg : IsKeyBody s (tau G s) (-ringVec kg.top) eg kgBody)
    (hkh : IsKeyBody s (tau (h P.d) s) (-ringVec kh.top) eh khBody) (aHat : ℕ → Ntt P.d P.q) :
    P.spiral.ring (blockComponent kg kh aHat) * s +
        blockSum P kgBody khBody (leftDigits kg aHat) (rightDigits kg aHat) (finalDigits kg aHat) =
      (∑ i ∈ Finset.range (P.d / 2), tau (leftExp P.d i) s * P.spiral.ring (aHat i) +
        ∑ i ∈ Finset.range (P.d / 2), tau (rightExp P.d i) s * P.spiral.ring (aHat (P.d / 2 + i))) +
      blockSum P eg eh (leftDigits kg aHat) (rightDigits kg aHat) (finalDigits kg aHat) := by
  have hleft : s * P.spiral.ring (leftSurvivor kg aHat) +
      halfBody (leftExp P.d) kgBody (leftDigits kg aHat) =
        ∑ i ∈ Finset.range (P.d / 2), tau (leftExp P.d i) s * P.spiral.ring (aHat i) +
          halfBody (leftExp P.d) eg (leftDigits kg aHat) := by
    have hrun := phase_half hfit (odd_leftExp P.d) (leftExp_succ P.d) hkg aHat (halfSteps P)
    rwa [halfSteps_succ, leftExp_zero P.d_pos, tau_one] at hrun
  have hright : tau (h P.d) s * P.spiral.ring (rightSurvivor kg aHat) +
      halfBody (rightExp P.d) kgBody (rightDigits kg aHat) =
        ∑ i ∈ Finset.range (P.d / 2), tau (rightExp P.d i) s * P.spiral.ring (aHat (P.d / 2 + i)) +
          halfBody (rightExp P.d) eg (rightDigits kg aHat) := by
    have hrun := phase_half hfit (odd_rightExp P.d_pos) (rightExp_succ P.d) hkg
      (fun i => aHat (P.d / 2 + i)) (halfSteps P)
    rwa [halfSteps_succ, rightExp_zero P.d_pos] at hrun
  -- The last switch is a cascade of one step, from `τ_h(s)` to `s`.
  have hlast : IsKeyFamily 1 (gadgetVec P) (fun i => if i = 0 then s else tau (h P.d) s)
      (fun _ => ringVec kh.top) (fun _ => khBody) fun _ => eh := by
    intro i hi k
    obtain rfl : i = 0 := by omega
    simp only [hkh k, if_true, Pi.neg_apply, mul_neg]
    rfl
  have hstep := step_phase hlast (i := 0) one_pos (P.spiral.ring (rightSurvivor kg aHat))
    (P.spiral.ring (leftSurvivor kg aHat)) (ringDigits (finalDigits kg aHat))
  rw [if_pos rfl, if_neg (by decide), show gadgetVec P ⬝ᵥ ringDigits (finalDigits kg aHat) = _ from
    gadgetVec_dotProduct_digits hfit _, sub_self, mul_zero, sub_zero] at hstep
  rw [ring_blockComponent, blockSum, blockSum]
  linear_combination hleft + hright + hstep

end Schedule

/-! ## The trace -/

section TraceSum

variable {s : NegRing P.d (ZMod P.q)}

/-- The packed LWE phases: `b_k + ⟨a_k, s⟩` at slot `k`. -/
noncomputable def packedPhase (masks : Fin P.d → Poly P.d) (b : Fin P.d → ℕ)
    (s : NegRing P.d (ZMod P.q)) : NegRing P.d (ZMod P.q) :=
  ofCoeffs fun k => (b k : ZMod P.q) + ∑ i, (masks k i : ZMod P.q) * coeff s i

/-- The product of one aggregate with the matching image of the secret. -/
theorem tau_mul_aggregateOf (aTildes : Fin P.d → Poly P.d) (e : ℕ) :
    tau e s * aggregateOf P aTildes e = (P.dInv : ZMod P.q) •
      ∑ j : Fin P.d, x ^ (j : ℕ) * tau e (Poly.ring P.q (aTildes j) * s) := by
  rw [aggregateOf, mul_smul_comm, Finset.mul_sum]
  refine congrArg _ (Finset.sum_congr rfl fun j _ => ?_)
  rw [map_mul]
  ring

/-- **The aggregates carry the LWE inner products**, one a slot and without a factor `d`. -/
theorem sum_aggregates (aTildes : Fin P.d → Poly P.d) :
    ∑ i ∈ Finset.range (P.d / 2), tau (leftExp P.d i) s * aggregateOf P aTildes (leftExp P.d i) +
        ∑ i ∈ Finset.range (P.d / 2),
          tau (rightExp P.d i) s * aggregateOf P aTildes (rightExp P.d i) =
      ∑ j : Fin P.d, coeff (Poly.ring P.q (aTildes j) * s) 0 • x ^ (j : ℕ) := by
  simp only [tau_mul_aggregateOf, ← Finset.smul_sum, ← smul_add]
  rw [Finset.sum_comm, Finset.sum_comm (s := Finset.range (P.d / 2)), ← Finset.sum_add_distrib,
    Finset.smul_sum]
  refine Finset.sum_congr rfl fun j _ => ?_
  rw [← Finset.mul_sum, ← Finset.mul_sum, ← mul_add, trace_eq P.d_eq P.logLen_pos, mul_smul_comm,
    mul_one, smul_smul, ← mul_assoc, P.dInv_mul_d, one_mul]

/-- The packed phase, with the embedded masks in the place of the inner products. -/
theorem packedPhase_eq (masks : Fin P.d → Poly P.d) (b : Fin P.d → ℕ) :
    packedPhase masks b s = Poly.ring P.q b +
      ∑ j : Fin P.d, coeff (Poly.ring P.q (aTildeCoeffs P (masks j)) * s) 0 • x ^ (j : ℕ) := by
  rw [packedPhase, Poly.ring, ofCoeffs_apply, ofCoeffs_apply, ← Finset.sum_add_distrib]
  refine Finset.sum_congr rfl fun j _ => ?_
  rw [ring_aTildeCoeffs, coeff_zero_maskPoly_mul, add_smul]

end TraceSum

/-! ## Key errors -/

section KeyError

variable (eg eh : Fin P.gadget.ell → NegRing P.d (ZMod P.q))

/-- The key-error term of a block with recorded digits `digits`.  Step `t` of a half uses the image
of `K_g` under `5^(m-1-t)`, respectively `-5^(m-1-t)`, where `m = d/2 - 1`; the last digits meet
`K_h`. -/
noncomputable def keyError (digits : List (PolyMatrixNTT P.d P.q)) : NegRing P.d (ZMod P.q) :=
  let m := P.d / 2 - 1
  let step (t : ℕ) : Fin P.gadget.ell → NegRing P.d (ZMod P.q) := (digits.map ringDigits).getD t 0
  ∑ t ∈ Finset.range m, (fun k => tau (5 ^ (m - 1 - t)) (eg k)) ⬝ᵥ step t +
    ∑ t ∈ Finset.range m, (fun k => tau (5 ^ (m - 1 - t) * (2 * P.d - 1)) (eg k)) ⬝ᵥ step (m + t) +
      eh ⬝ᵥ step (2 * m)

theorem keyError_zero (digits : List (PolyMatrixNTT P.d P.q)) : keyError 0 0 digits = 0 := by
  have hzero (e : ℕ) (D : Fin P.gadget.ell → NegRing P.d (ZMod P.q)) :
      (fun k => tau e ((0 : Fin P.gadget.ell → NegRing P.d (ZMod P.q)) k)) ⬝ᵥ D = 0 := by
    simp [dotProduct]
  simp only [keyError, hzero, Finset.sum_const_zero, zero_dotProduct, add_zero]

/-- Half of the key-error term. -/
theorem halfBody_eq_sum {exp : ℕ → ℕ} {ds : List (PolyMatrixNTT P.d P.q)} {m : ℕ}
    (hlen : ds.length = m) (body : Fin P.gadget.ell → NegRing P.d (ZMod P.q)) :
    halfBody exp body ds = ∑ t ∈ Finset.range m,
      (fun k => tau (exp (m - 1 - t)) (body k)) ⬝ᵥ (ds.map ringDigits).getD t 0 := by
  rw [halfBody, dotSum_eq_sum, List.length_map, hlen]

/-- The errors that the schedule collects are the key-error term of its digits. -/
theorem keyError_blockDigits (kg : KeySwitchingMatrix P) (aHat : ℕ → Ntt P.d P.q) :
    keyError eg eh (blockDigits kg aHat) =
      blockSum P eg eh (leftDigits kg aHat) (rightDigits kg aHat) (finalDigits kg aHat) := by
  have hl := length_leftDigits kg aHat
  have hr := length_rightDigits kg aHat
  have hsteps : P.d / 2 - 1 = halfSteps P := rfl
  rw [blockSum, halfBody_eq_sum hl, halfBody_eq_sum hr]
  simp only [keyError, hsteps, blockDigits, List.map_append, List.map_cons, List.map_nil]
  refine congrArg₂ (· + ·) (congrArg₂ (· + ·) ?_ ?_) ?_
  · refine Finset.sum_congr rfl fun t ht => ?_
    have ht := Finset.mem_range.mp ht
    rw [List.append_assoc, List.getD_append _ _ _ _ (by simpa [hl] using ht), leftExp,
      tau_mod (odd_five_pow _)]
  · refine Finset.sum_congr rfl fun t ht => ?_
    have ht := Finset.mem_range.mp ht
    rw [List.append_assoc, List.getD_append_right _ _ _ _ (by simp [hl]),
      List.getD_append _ _ _ _ (by simp [hl, hr, ht]), rightExp,
      tau_mod ((odd_five_pow _).mul (odd_two_mul_sub_one P.d_pos))]
    simp [hl]
  · rw [List.getD_append_right _ _ _ _ (by simp [hl, hr]; omega)]
    simp [hl, hr, two_mul]

end KeyError

/-! ## The packing functions -/

section Packing

variable (P) in
/-- A CRS block from its rows. -/
def crsOfRows (masks : Fin P.d → Poly P.d) : PolyMatrixNTT P.d P.q :=
  .ofCol P.d fun row => P.spiral.toNttAlloc (masks (lane P row))

theorem crsRows_crsOfRows {masks : Fin P.d → Poly P.d} (hmasks : ∀ k i, masks k i < P.q) :
    crsRows (crsOfRows P masks) = masks := by
  funext row
  have hring : Poly.ring P.q (P.spiral.fromNttAlloc (P.spiral.toNttAlloc (masks row))) =
      Poly.ring P.q (masks row) :=
    P.spiral.ring_toNttAlloc fun i => P.spiral.lt_word_of_le (hmasks row i).le
  funext i
  have hcoeff := congrArg (coeff · i) hring
  simp only [Poly.coeff_ring] at hcoeff
  have hmod := (ZMod.natCast_eq_natCast_iff _ _ P.q).mp hcoeff
  rw [Nat.ModEq, Nat.mod_eq_of_lt (P.spiral.fromNttAlloc_lt _ i),
    Nat.mod_eq_of_lt (hmasks row i)] at hmod
  show P.spiral.fromNttAlloc (P.spiral.toNttAlloc (masks (lane P row))) i = _
  rw [lane_fin, hmod]

/-- The public preprocessing of a block of rows. -/
theorem publicBuild_eq (hsep : ProbesSeparate P) {masks : Fin P.d → Poly P.d}
    (hmasks : ∀ k i, masks k i < P.q) :
    ∃ aHat : ℕ → Ntt P.d P.q,
      PackPublicPreprocessed.build P (crsOfRows P masks) = .ok ⟨(List.range P.d).map aHat⟩ ∧
      ∀ slot < P.d, P.spiral.ring (aHat slot) =
        aggRing (fun row => aTildeCoeffs P (masks row)) slot := by
  obtain ⟨aHat, hrun, hring⟩ := ring_buildAAgg hsep
    (fun row => aTildeCoeffs P (masks row)) fun _ _ => aTildeCoeffs_lt _ _
  refine ⟨aHat, ?_, hring⟩
  have hshape : ¬((crsOfRows P masks).rows ≠ P.d ∨ (crsOfRows P masks).cols ≠ 1) := by
    simp [crsOfRows, PolyMatrixNTT.ofCol]
  rw [PackPublicPreprocessed.build, if_neg hshape, crsRows_crsOfRows hmasks]
  simp only [hrun, ok_bind]

/-- The key-independent preprocessing of a block of rows. -/
theorem queryBuild_eq (hsep : ProbesSeparate P) (hfit : DigitsFit P) {masks : Fin P.d → Poly P.d}
    (hmasks : ∀ k i, masks k i < P.q) :
    ∃ aHat : ℕ → Ntt P.d P.q,
      QueryPackPreprocessed.build P (crsOfRows P masks) =
        .ok ⟨blockComponent (fixedReferenceKey P REFERENCE_W_SEED)
            (fixedReferenceKey P REFERENCE_V_SEED) aHat,
          blockDigits (fixedReferenceKey P REFERENCE_W_SEED) aHat⟩ ∧
      ∀ slot < P.d, P.spiral.ring (aHat slot) =
        aggRing (fun row => aTildeCoeffs P (masks row)) slot := by
  obtain ⟨aHat, hpub, hring⟩ := publicBuild_eq hsep hmasks
  refine ⟨aHat, ?_, hring⟩
  rw [QueryPackPreprocessed.build, hpub]
  exact precomputeReferenceTrace_eq aHat hsep hfit

/-- Without separating probes no block can be preprocessed. -/
theorem queryBuild_panic (hsep : ¬ProbesSeparate P) (masks : Fin P.d → Poly P.d) :
    QueryPackPreprocessed.build P (crsOfRows P masks) = .error tableSearchPanic := by
  have hshape : ¬((crsOfRows P masks).rows ≠ P.d ∨ (crsOfRows P masks).cols ≠ 1) := by
    simp [crsOfRows, PolyMatrixNTT.ofCol]
  rw [QueryPackPreprocessed.build, PackPublicPreprocessed.build, if_neg hshape]
  simp only [buildAAgg, tauGPowerTables_panic hsep, error_bind]

theorem validateReferenceBody_ok {body : PolyMatrixNTT P.d P.q}
    (hbody : BodyShape body P.gadget.ell)
    (label : String) : validateReferenceBody P body label = .ok () := by
  rw [validateReferenceBody, if_neg (by simp [hbody.1, hbody.2])]

theorem validateTopImages_ok (side : String) {tops : List (PolyMatrixNTT P.d P.q)}
    (htops : ∀ top ∈ tops, BodyShape top P.gadget.ell) : validateTopImages side tops = .ok () := by
  refine forM_eq_ok fun pair hpair => ?_
  obtain ⟨top, idx⟩ := pair
  have hshape := htops top (List.fst_mem_of_mem_zipIdx hpair)
  simp only [validateReferenceBody_ok hshape]

/-- The fixed top images are built and pass their own validation. -/
theorem topImages_build (hsep : ProbesSeparate P) :
    ∃ top, TopKeyImages.build P = .ok top ∧ top.validate = .ok () ∧
      top.kgBodyLeftTables = leftTables P 0 (P.d / 2 - 1) ∧
      top.kgBodyRightTables = rightTables P 0 (P.d / 2 - 1) := by
  refine ⟨_, by rw [TopKeyImages.build, tauGPowerTables_eq hsep]; rfl, ?_, rfl, rfl⟩
  have himages (tables : List (NttAutomorphTable P.d)) :
      ∀ top ∈ tables.map (applyTauNttAlloc (referenceMaskTop P REFERENCE_W_SEED)),
        BodyShape top P.gadget.ell := by
    intro top htop
    obtain ⟨table, -, rfl⟩ := List.mem_map.mp htop
    exact ⟨rfl, rfl⟩
  rw [TopKeyImages.validate, if_neg (by simp [leftTables]), if_neg (by simp [rightTables]),
    if_neg (by simp [leftTables]), if_neg (by simp [rightTables]),
    validateReferenceBody_ok ⟨rfl, rfl⟩, ok_bind, validateTopImages_ok "left" (himages _), ok_bind,
    validateTopImages_ok "right" (himages _)]

/-- **`pack_b`** on the recorded digits of a block. -/
theorem packB_eq (hq : P.q < 2 ^ 62) (kg kh : KeySwitchingMatrix P) (aHat : ℕ → Ntt P.d P.q)
    (workers : Scheduler (CollapseTerm P)) {bScalars : List ℕ} (hb : bScalars.length = P.d)
    {keys : PackingKeys P} (hkg : BodyShape keys.kgBody P.gadget.ell)
    (hkh : BodyShape keys.khBody P.gadget.ell) {top : TopKeyImages P}
    (hvalid : top.validate = .ok ())
    (hleft : top.kgBodyLeftTables = leftTables P 0 (P.d / 2 - 1))
    (hright : top.kgBodyRightTables = rightTables P 0 (P.d / 2 - 1)) :
    ∃ c2, QueryPackPreprocessed.packB workers ⟨blockComponent kg kh aHat, blockDigits kg aHat⟩
        bScalars keys top = .ok ⟨blockComponent kg kh aHat, c2⟩ ∧
      P.spiral.ring c2 = Poly.ring P.q (fun k => vecGet bScalars k) +
        blockSum P (ringVec (bodyRow keys.kgBody)) (ringVec (bodyRow keys.khBody))
          (leftDigits kg aHat) (rightDigits kg aHat) (finalDigits kg aHat) := by
  obtain ⟨c2, hrun, hring⟩ := collapseUploadedBodyB_eq kg aHat hq workers
    (P.spiral.toNttAlloc fun idx => vecGet bScalars idx % P.q) hkg hkh hleft hright
  refine ⟨c2, ?_, ?_⟩
  · rw [QueryPackPreprocessed.packB, PackingKeys.validate, validateReferenceBody_ok hkg, ok_bind,
      validateReferenceBody_ok hkh, ok_bind, hvalid, ok_bind,
      QueryPackPreprocessed.packBPrevalidated, if_neg (not_not.mpr hb)]
    simp only [hrun, ok_bind]
  · rw [hring, P.spiral.ring_toNttAlloc fun i =>
      P.spiral.lt_word_of_le (Nat.mod_lt _ P.q_pos).le, Poly.ring_mod]

/-- The aggregates of the masks at the exponents of the two halves. -/
theorem sum_aggRing {s : NegRing P.d (ZMod P.q)} {aTildes : Fin P.d → Poly P.d}
    {aHat : ℕ → Ntt P.d P.q}
    (hring : ∀ slot < P.d, P.spiral.ring (aHat slot) = aggRing aTildes slot) :
    ∑ i ∈ Finset.range (P.d / 2), tau (leftExp P.d i) s * P.spiral.ring (aHat i) +
        ∑ i ∈ Finset.range (P.d / 2), tau (rightExp P.d i) s * P.spiral.ring (aHat (P.d / 2 + i)) =
      ∑ j : Fin P.d, coeff (Poly.ring P.q (aTildes j) * s) 0 • x ^ (j : ℕ) := by
  rw [← sum_aggregates]
  refine congrArg₂ (· + ·) (Finset.sum_congr rfl fun i hi => ?_)
    (Finset.sum_congr rfl fun i hi => ?_)
  · have hi := Finset.mem_range.mp hi
    rw [hring i (by omega), aggRing, aggExp, if_pos hi]
  · have hi := Finset.mem_range.mp hi
    rw [hring (P.d / 2 + i) (by omega), aggRing, aggExp, if_neg (by omega), Nat.add_sub_cancel_left]

/-- **The phase identity of packing.**  For every block of mask rows, every secret, every pair of
uploaded key bodies for it and every body vector, building and `pack_b` succeed and the phase of
the result is `∑ k, (b_k + ⟨a_k, s⟩) X^k` plus the key-error term of the recorded digits, which
vanishes with the key errors.  If the random probes of the table search never separate the slots,
building ends in the panic of that search instead. -/
theorem packB_phase (P : RlweParams) (hq : P.q < 2 ^ 62) (hfit : DigitsFit P)
    (masks : Fin P.d → Poly P.d) (hmasks : ∀ k i, masks k i < P.q) (s : NegRing P.d (ZMod P.q))
    (eg eh : Fin P.gadget.ell → NegRing P.d (ZMod P.q)) (keys : PackingKeys P)
    (hkeys : keys.IsFor s eg eh) (workers : Scheduler (CollapseTerm P)) (bScalars : List ℕ)
    (hb : bScalars.length = P.d) :
    (ProbesSeparate P → ∃ pre top out,
      QueryPackPreprocessed.build P (crsOfRows P masks) = .ok pre ∧ TopKeyImages.build P = .ok top ∧
        pre.packB workers bScalars keys top = .ok out ∧
        P.spiral.ring out.c1 * s + P.spiral.ring out.c2 =
          packedPhase masks (fun k => vecGet bScalars k) s + keyError eg eh pre.digitsNtt ∧
        (eg = 0 → eh = 0 → P.spiral.ring out.c1 * s + P.spiral.ring out.c2 =
          packedPhase masks (fun k => vecGet bScalars k) s)) ∧
      (¬ProbesSeparate P →
        QueryPackPreprocessed.build P (crsOfRows P masks) = .error tableSearchPanic) := by
  refine ⟨fun hsep => ?_, fun hsep => queryBuild_panic hsep masks⟩
  obtain ⟨aHat, hbuild, hring⟩ := queryBuild_eq hsep hfit hmasks
  obtain ⟨top, htop, hvalid, hleft, hright⟩ := topImages_build hsep
  obtain ⟨c2, hpack, hc2⟩ := packB_eq hq (fixedReferenceKey P REFERENCE_W_SEED)
    (fixedReferenceKey P REFERENCE_V_SEED) aHat workers hb hkeys.kg_shape hkeys.kh_shape
      hvalid hleft
    hright
  have hkg := hkeys.kg
  have hkh := hkeys.kh
  rw [← neg_neg (maskRow P _), ← ringVec_fixedReferenceKey_top] at hkg hkh
  have hblock := phase_block hfit hkg hkh aHat
  rw [sum_aggRing hring] at hblock
  have hphase : P.spiral.ring (blockComponent (fixedReferenceKey P REFERENCE_W_SEED)
        (fixedReferenceKey P REFERENCE_V_SEED) aHat) * s + P.spiral.ring c2 =
      packedPhase masks (fun k => vecGet bScalars k) s +
        keyError eg eh (blockDigits (fixedReferenceKey P REFERENCE_W_SEED) aHat) := by
    rw [hc2, packedPhase_eq, keyError_blockDigits]
    linear_combination hblock
  refine ⟨_, top, _, hbuild, htop, hpack, hphase, fun heg heh => ?_⟩
  rw [hphase, heg, heh, keyError_zero, add_zero]

/-- Small errors for the small parameter set. -/
def smallError (k : ℕ) : Poly smallParams.d := fun i => (k + i) % 3

/-- Keys generated over the small parameter set pack a block of it. -/
theorem packB_phase_small :
    ∃ pre top out,
      QueryPackPreprocessed.build smallParams (crsOfRows smallParams fun k i => (5 * k + i) % 17) =
          .ok pre ∧ TopKeyImages.build smallParams = .ok top ∧
        pre.packB (Scheduler.perItem _) [3, 1, 4, 16] (PackingKeys.generateFull smallParams
          (smallParams.spiral.toNttAlloc fun i => i) smallError smallError) top = .ok out := by
  have herror (k : ℕ) (i : Fin smallParams.d) : smallError k i < 2 ^ 64 :=
    (Nat.mod_lt _ three_pos).trans (by decide)
  obtain ⟨pre, top, out, hbuild, htop, hpack, -⟩ := (packB_phase smallParams (by decide) (by decide)
    (fun k i => (5 * k + i) % 17) (fun _ _ => Nat.mod_lt _ (by decide)) _ _ _ _
    (generateFull_isFor (by decide) (smallParams.spiral.toNttAlloc fun i => i) herror herror)
    (Scheduler.perItem _) [3, 1, 4, 16] rfl).1 probesSeparate_smallParams
  exact ⟨pre, top, out, hbuild, htop, hpack⟩

end Packing

end Inspiring
