import IpirSp.MachineWord.Vector
import IpirSp.Reinspiring.KeyBodies
import IpirSp.Rounding.Scaled

/-!
# Native selections

A selection hides the scaled selector of one row behind an error and the inner products of public
polynomials with the secret.  `sum_column` is what a column of a database makes of it, and
`decodeWord_phase` that a phase close to a scaled entry is decoded to the entry.
-/

namespace Reinspiring

open Negacyclic SpiralRs Inspiring Loops MachineWord

variable {d q : ℕ} {P : NativeParams d q} {R : Type} {gen : Generator R} {lib : NumberTheory}

/-- The step of the plaintext. -/
def NativeParams.delta (P : NativeParams d q) : ℕ := q / P.p

/-- The words of a selection over public polynomials: the scaled selector and an error, less the
inner product of the mask of the row with the secret. -/
structure IsSelection (P : NativeParams d q) (secret : Poly d) (polys : List (Poly d)) (target : ℕ)
    (errs query : List ℕ) : Prop where
  length : query.length = polys.length * d
  lt : ∀ x ∈ query, x < q
  ring : ∀ block < polys.length,
    Poly.ring q (fun i : Fin d => query.getD (block * d + i) 0) =
      ofCoeffs (fun i : Fin d => if block * d + i = target then (P.delta : ZMod q) else 0) +
        Poly.ring q (fun i => errs.getD (block * d + i) 0) -
        tau (2 * d - 1) (Poly.ring q (polys.getD block fun _ => 0)) * Poly.ring q secret

/-- The word of the selector: the step under a mask of ones, or under no mask. -/
theorem cast_selector (P : NativeParams d q) (c : Prop) [Decidable c] :
    ((q / P.p &&& wrappingNeg (if c then 1 else 0) : ℕ) : ZMod q) =
      if c then (P.delta : ZMod q) else 0 := by
  have hdelta : q / P.p < 2 ^ 64 := (Nat.div_le_self q P.p).trans_lt (P.q_le.trans_lt (by decide))
  split
  · rw [show wrappingNeg 1 = 2 ^ 64 - 1 from rfl, Nat.and_two_pow_sub_one_eq_mod,
      Nat.mod_eq_of_lt hdelta]
    rfl
  · rw [show wrappingNeg 0 = 0 from rfl, Nat.and_zero, Nat.cast_zero]

/-- **An encrypted block** hides the selector behind an error. -/
theorem yields_encryptBlock (hgen : gen.Bounded q) {lift : LiftContext d q}
    {secret : NativeSecret P} (hsecret : ∀ i, secret.coeffs i < q) (poly : Poly d)
    (target block : ℕ) :
    Yields (secret.encryptBlock gen lift target (poly, block)) fun out =>
      ∃ err : Poly d, SmallPoly q gaussianMaxVal err ∧ Poly.ring q out =
        ofCoeffs (fun i : Fin d => if block * d + i = target then (P.delta : ZMod q) else 0) +
          Poly.ring q err - tau (2 * d - 1) (Poly.ring q poly) * Poly.ring q secret.coeffs := by
  refine (yields_stateless _).bind fun _ _ => ?_
  refine (yields_stateless _).bind fun inner hinner => ?_
  refine (yields_gaussian hgen).bind fun err herr => Yields.pure ⟨err, herr, ?_⟩
  obtain ⟨inner', hinner', hlt, hring⟩ :=
    lift.multiply_spec (tauCoeffs_lt P.q_pos poly (2 * d - 1)) hsecret
  obtain rfl : inner = inner' := Except.ok.inj (hinner.symm.trans hinner')
  have hword (i : Fin d) : inner i ≤ W64 := (hlt i).le.trans (P.q_le.trans (by decide))
  rw [← ring_tauCoeffs P.q_pos (odd_two_mul_sub_one P.d_pos), ← hring, Poly.ring, Poly.ring,
    Poly.ring, ← map_add, ← map_sub]
  congr 1
  funext i
  rw [cast_mask P.isPowerOfTwo, cast_wrappingSub P.dvd_W64 _ (hword i), cast_wrappingAdd P.dvd_W64]
  rw [cast_selector]
  rfl

/-- **An encrypted selection** is a selection with small errors. -/
theorem yields_encryptSelection_isSelection (hgen : gen.Bounded q) {secret : NativeSecret P}
    (hsecret : ∀ i, secret.coeffs i < q) (polys : List (Poly d)) (target : ℕ) :
    Yields (secret.encryptSelection lib gen polys target) fun blocks =>
      ∃ errs : List (Poly d), (∀ a ∈ errs, SmallPoly q gaussianMaxVal a) ∧
        errs.length = polys.length ∧
        IsSelection P secret.coeffs polys target (flatWords errs) (flatWords blocks) := by
  intro rng blocks rng' hrun
  obtain ⟨hcount, hlt⟩ := secret.yields_encryptSelection lib gen polys target rng blocks rng' hrun
  have hitems : Yields (secret.encryptSelection lib gen polys target) (List.Forall₂
      (fun (item : Poly d × ℕ) out => ∃ err : Poly d, SmallPoly q gaussianMaxVal err ∧
        Poly.ring q out = ofCoeffs (fun i : Fin d =>
            if item.2 * d + i = target then (P.delta : ZMod q) else 0) + Poly.ring q err -
          tau (2 * d - 1) (Poly.ring q item.1) * Poly.ring q secret.coeffs) polys.zipIdx) := by
    rw [NativeSecret.encryptSelection]
    split
    · exact (yields_stateless _).mono fun _ h => absurd h (by rintro ⟨⟩)
    · refine (yields_stateless _).bind fun lift _ => yields_mapM ?_
      rintro ⟨poly, block⟩ -
      exact yields_encryptBlock hgen hsecret poly target block
  have hall := hitems rng blocks rng' hrun
  -- the errors of the blocks, position by position
  have herr (k : Fin polys.length) : ∃ err : Poly d, SmallPoly q gaussianMaxVal err ∧
      Poly.ring q (blocks.get (k.cast hcount.symm)) = ofCoeffs (fun i : Fin d =>
          if (k : ℕ) * d + i = target then (P.delta : ZMod q) else 0) + Poly.ring q err -
        tau (2 * d - 1) (Poly.ring q polys[k]) * Poly.ring q secret.coeffs := by
    have hk := hall.get (i := k) (by rw [List.length_zipIdx]; exact k.2) (by rw [hcount]; exact k.2)
    simp only [List.get_eq_getElem, List.getElem_zipIdx, zero_add] at hk
    exact hk
  choose err hsmall hring using herr
  have hlen : (List.ofFn err).length = polys.length := List.length_ofFn
  refine ⟨List.ofFn err, fun a ha => ?_, hlen, ?_, fun x hx => lt_of_mem_flatWords hlt hx,
    fun block hblock => ?_⟩
  · obtain ⟨k, rfl⟩ := (List.mem_ofFn' err a).mp ha
    exact hsmall k
  · rw [length_flatWords, hcount]
  · have hout (i : Fin d) : (flatWords blocks).getD (block * d + i) 0 =
        blocks.get (Fin.cast hcount.symm ⟨block, hblock⟩) i :=
      getD_flatWords (by rwa [hcount]) i
    have herrs (i : Fin d) : (flatWords (List.ofFn err)).getD (block * d + i) 0 =
        err ⟨block, hblock⟩ i := by
      rw [getD_flatWords (by rwa [hlen]) i, List.getElem_ofFn]
    simp only [hout, herrs]
    rw [List.getD_eq_getElem _ _ hblock]
    exact hring ⟨block, hblock⟩

/-- The masks of a selection on a column are the product of the column with the public polynomials,
against the secret. -/
theorem sum_masks [NeZero d] (secret : Poly d) {polys : List (Poly d)} (x : ℕ → ℕ) {mask : Poly d}
    (hmask : IsDot q polys
      ((List.range polys.length).map fun k (i : Fin d) => x (k * d + i)) mask) :
    ∑ k ∈ Finset.range polys.length, ∑ i : Fin d, (x (k * d + i) : ZMod q) *
        coeff (tau (2 * d - 1) (Poly.ring q (polys.getD k fun _ => 0)) * Poly.ring q secret) i =
      ∑ j, (mask j : ZMod q) * secret j := by
  have hlen : ((List.range polys.length).map fun k (i : Fin d) => x (k * d + i)).length =
      polys.length := by rw [List.length_map, List.length_range]
  have hcoeff (j : Fin d) : (mask j : ZMod q) = coeff (dot q polys
      ((List.range polys.length).map fun k (i : Fin d) => x (k * d + i))) j := by
    rw [← hmask.ring, Poly.coeff_ring]
  rw [dot_eq_sum rfl hlen] at hcoeff
  have hblock (k : ℕ) : ∑ i : Fin d, (x (k * d + i) : ZMod q) *
      coeff (tau (2 * d - 1) (Poly.ring q (polys.getD k fun _ => 0)) * Poly.ring q secret) i =
      ∑ j, coeff (Poly.ring q (polys.getD k fun _ => 0) *
        Poly.ring q fun i : Fin d => x (k * d + i)) j * secret j := by
    have hmove := sum_mul_coeff_maskPoly_mul (fun j => ((polys.getD k fun _ => 0) j : ZMod q))
      (fun i : Fin d => (x (k * d + i) : ZMod q)) (Poly.ring q secret)
    rw [maskPoly_eq_tau] at hmove
    simp only [Poly.coeff_ring] at hmove
    exact hmove
  simp only [hblock, hcoeff]
  rw [Finset.sum_comm]
  refine Finset.sum_congr rfl fun j _ => ?_
  rw [coeff_sum, Finset.sum_mul, Finset.sum_range]
  refine Finset.sum_congr rfl fun k _ => ?_
  rw [List.getD_eq_getElem _ _ (k.2.trans_eq hlen.symm), List.getElem_map, List.getElem_range]

/-- **A column against a selection** is the scaled entry of the selected row, with the errors of the
rows and less the mask of the column. -/
theorem IsSelection.sum_column {secret : Poly d} {polys : List (Poly d)} {target : ℕ}
    {errs query : List ℕ} (h : IsSelection P secret polys target errs query)
    (htarget : target < polys.length * d) (x : ℕ → ℕ) {mask : Poly d}
    (hmask : IsDot q polys
      ((List.range polys.length).map fun k (i : Fin d) => x (k * d + i)) mask) :
    ∑ row ∈ Finset.range (polys.length * d), (x row : ZMod q) * query.getD row 0 =
      P.delta * x target +
        ∑ row ∈ Finset.range (polys.length * d), (x row : ZMod q) * errs.getD row 0 -
        ∑ j, (mask j : ZMod q) * secret j := by
  have : NeZero d := ⟨P.d_pos.ne'⟩
  have hselected : ∑ row ∈ Finset.range (polys.length * d), (x row : ZMod q) *
      (if row = target then (P.delta : ZMod q) else 0) = P.delta * x target := by
    simp only [mul_ite, mul_zero]
    rw [Finset.sum_ite_eq', if_pos (Finset.mem_range.mpr htarget), mul_comm]
  rw [← hselected, ← sum_masks secret x hmask, ← sum_range_blocks, ← sum_range_blocks,
    ← sum_range_blocks, ← Finset.sum_add_distrib, ← Finset.sum_sub_distrib]
  refine Finset.sum_congr rfl fun k hk => ?_
  rw [Finset.sum_range, Finset.sum_range, Finset.sum_range, ← Finset.sum_add_distrib,
    ← Finset.sum_sub_distrib]
  refine Finset.sum_congr rfl fun i _ => ?_
  have hword := congrArg (coeff · i) (h.ring k (Finset.mem_range.mp hk))
  simp only [coeff_add, coeff_sub, coeff_ofCoeffs, Poly.coeff_ring] at hword
  rw [hword]
  ring

/-! ## Decoding -/

/-- A phase that is close to a scaled entry is rounded to the entry. -/
theorem decodeWord_phase (P : NativeParams d q) {phase m : ℕ} (hphase : phase < q) (hm : m < P.p)
    {noise : ZMod q} (hcast : (phase : ZMod q) = P.delta * m + noise)
    (hnoise : 2 * |noise.valMinAbs| < P.delta) : P.decodeWord phase = m := by
  have hdvd : P.p ∣ q := (pow_dvd_pow 2 P.pBits_lt.le).trans (dvd_of_eq P.q_eq.symm)
  have hq : q = P.p * P.delta + 0 := (Nat.mul_div_cancel' hdvd).symm
  have hpow : IsPowerOfTwo P.p := by rw [IsPowerOfTwo, NativeParams.p, Nat.log2_two_pow]
  have hmod : (phase : ℤ) ≡ P.delta * m + noise.valMinAbs [ZMOD q] := by
    rw [← ZMod.intCast_eq_intCast_iff]
    push_cast
    exact hcast
  rw [NativeParams.decodeWord, and_sub_one_eq_mod hpow]
  exact Rounding.roundDiv_phase hq hm (Nat.zero_le _) hphase hmod hnoise

end Reinspiring
