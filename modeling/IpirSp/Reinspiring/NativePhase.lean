import IpirSp.Negacyclic.TraceDivision
import IpirSp.Reinspiring.KeyBodies
import IpirSp.Reinspiring.Refinement

/-!
# The phase of a native block

Over a power of two the degree has no inverse, so a block packs floors of integer traces.  The phase
of what it packs misses the inner products for four reasons: the errors of the generator key, which
meet the compiled matrix; those of the conjugation key, which meet the digits of the last step; what
the digits of every step leave, which meets an image of the secret; and the floors.

`phase_chain` is one chain, `action_eq_keySum` says that the compiled matrix acts as the switches of
both chains do, and `native_phase` puts the chains, the last step and the floors together.
-/

namespace Reinspiring

open Negacyclic SpiralRs Inspiring Loops MachineWord KeySwitch Matrix

variable {d q : ℕ} {P : NativeParams d q}

/-- `division_error_bound`. -/
def divisionErrorBound (d secretBound : ℕ) : ℕ := d * d * secretBound

/-- `decomposition_error_bound`. -/
def NativeParams.decompositionErrorBound (P : NativeParams d q) (secretBound : ℕ) : ℕ :=
  if P.dropped = 0 then 0 else (d - 1) * d * 2 ^ (P.dropped - 1) * secretBound

/-! ## One chain -/

section Chain

variable {S : NativeSetup P} {s : NegRing d (ZMod q)} {eg kg : List (Poly d)}

/-- The switches of scheduled steps: the images of a key under the exponents, times the digits. -/
noncomputable def keySum (P : NativeParams d q) (key : List (Poly d))
    (schedule : List (TraceStep d × ℕ)) : NegRing d (ZMod q) :=
  (schedule.map fun step =>
    (fun j => tau step.2 (digitVector P key j)) ⬝ᵥ digitVector P step.1.2).sum

/-- What the digits of scheduled steps leave, times the images of the secret that their keys
carry. -/
noncomputable def restSum (P : NativeParams d q) (s : NegRing d (ZMod q))
    (schedule : List (TraceStep d × ℕ)) : NegRing d (ZMod q) :=
  (schedule.map fun step => tau (step.2 * 5 % (2 * d)) s * P.roundOff step.1.1).sum

@[simp] theorem keySum_append (key : List (Poly d)) (l l' : List (TraceStep d × ℕ)) :
    keySum P key (l ++ l') = keySum P key l + keySum P key l' := by
  rw [keySum, List.map_append, List.sum_append]
  rfl

@[simp] theorem restSum_append (s : NegRing d (ZMod q)) (l l' : List (TraceStep d × ℕ)) :
    restSum P s (l ++ l') = restSum P s l + restSum P s l' := by
  rw [restSum, List.map_append, List.sum_append]
  rfl

/-- The steps of a chain with their exponents, as the collapse lists them. -/
def chainSchedule (exp : ℕ → ℕ) (steps : List (TraceStep d)) : List (TraceStep d × ℕ) :=
  steps.zip ((List.range steps.length).map exp).reverse

theorem chainSchedule_cons (exp : ℕ → ℕ) (step : TraceStep d) (steps : List (TraceStep d)) :
    chainSchedule exp (step :: steps) = (step, exp steps.length) :: chainSchedule exp steps := by
  rw [chainSchedule, List.length_cons, List.range_succ, List.map_append, List.reverse_append,
    List.map_singleton, List.reverse_singleton, List.singleton_append, List.zip_cons_cons]
  rfl

theorem dotSum_eq_keySum (exp : ℕ → ℕ) (key : List (Poly d)) (steps : List (TraceStep d)) :
    dotSum (fun i j => tau (exp i) (digitVector P key j))
      (steps.map fun step => digitVector P step.2) = keySum P key (chainSchedule exp steps) := by
  induction steps with
  | nil => rfl
  | cons step steps ih =>
      rw [chainSchedule_cons, keySum, List.map_cons, List.map_cons, List.sum_cons, dotSum_cons, ih,
        List.length_map]
      rfl

theorem slotSum_eq_restSum {exp : ℕ → ℕ} (hodd : ∀ i, Odd (exp i))
    (hsucc : ∀ i, exp i * 5 ≡ exp (i + 1) [MOD 2 * d]) (s : NegRing d (ZMod q))
    (steps : List (TraceStep d)) :
    slotSum (fun i => tau (exp (i + 1)) s) (steps.map fun step => P.roundOff step.1) =
      restSum P s (chainSchedule exp steps) := by
  have hnext (i : ℕ) : tau (exp (i + 1)) s = tau (exp i * 5 % (2 * d)) s :=
    congrArg (fun f => f s) (tau_congr (hodd (i + 1))
      (odd_mod_two_mul ((hodd i).mul (by decide)) d)
        ((hsucc i).symm.trans (Nat.mod_modEq _ _).symm))
  induction steps with
  | nil => rfl
  | cons step steps ih =>
      rw [chainSchedule_cons, restSum, List.map_cons, List.map_cons, List.sum_cons,
        slotSum_cons, ih, List.length_map, hnext]
      rfl

/-- **The phase of a chain.** -/
theorem phase_chain [NeZero d] (hkg : IsNativeBody P s (tau 5 s) S.w eg kg) {exp : ℕ → ℕ}
    (hodd : ∀ i, Odd (exp i)) (hsucc : ∀ i, exp i * 5 ≡ exp (i + 1) [MOD 2 * d]) {m : ℕ}
    (slot : ℕ → Poly d) {steps : List (TraceStep d)} {out : Poly d}
    (h : IsChain S exp (slot m) ((List.range m).map slot).reverse steps out) :
    tau (exp 0) s * Poly.ring q out + keySum P kg (chainSchedule exp steps) =
      ∑ i ∈ Finset.range (m + 1), tau (exp i) s * Poly.ring q (slot i) +
        keySum P eg (chainSchedule exp steps) + restSum P s (chainSchedule exp steps) := by
  have hlen : (steps.map fun step => digitVector P step.2).length =
      (((List.range m).map slot).reverse.map (Poly.ring q)).length := by
    rw [List.length_map, List.length_map, h.length]
  have hkeys := isKeyFamily_native hkg hodd hsucc
    (((List.range m).map slot).reverse.map (Poly.ring q)).length
  have hrun := phase_foldSlots (Poly.ring q (slot m)) _ _ hlen hkeys
  have hstack : Poly.ring q (slot m) :: ((List.range m).map slot).reverse.map (Poly.ring q) =
      ((List.range (m + 1)).map fun i => Poly.ring q (slot i)).reverse := by
    rw [List.range_succ, List.map_append, List.reverse_append, List.map_reverse, List.map_map]
    rfl
  -- every step leaves what its limbs leave of the polynomial it decomposes
  have hrest : steps.map (fun step => Poly.ring q step.1 - P.gadgetVec ⬝ᵥ digitVector P step.2) =
      (steps.map fun step => P.roundOff step.1).map fun a => -a := by
    rw [List.map_map]
    refine List.map_congr_left fun step hstep => ?_
    rw [h.steps_digits step hstep, gadgetVec_dotProduct_limbs, Function.comp_apply]
    ring
  rw [h.residues, hrest, slotSum_neg, sub_neg_eq_add, hstack, slotSum_reverse_map_range,
    ← h.ring_out, dotSum_eq_keySum, dotSum_eq_keySum, slotSum_eq_restSum hodd hsucc] at hrun
  exact hrun

end Chain

/-! ## The compiled matrix -/

section Compiled

/-- A stored matrix times stacked polynomials. -/
noncomputable def NativeMatrix.action (M : NativeMatrix) (q : ℕ) (ys : List (Poly d)) :
    NegRing d (ZMod q) :=
  ofCoeffs fun r => ∑ c ∈ Finset.range M.cols,
    ((M.words.value r c : ℤ) : ZMod q) * ((joinLimbs ys).getD c 0 : ℕ)

/-- **A compiled matrix acts as the switches do.** -/
theorem action_eq_keySum {supportsPacked : Bool} {steps : List (TraceStep d)}
    {blocks : List PackingMatrix} {M : NativeMatrix}
    (hblocks : List.Forall₂ (fun j B => IsCompiled d q B (digitTerms steps j)) (List.range P.ell)
      blocks) (h : NativeMatrix.fromBlocks supportsPacked blocks = .ok M) {ys : List (Poly d)}
    (hlen : ys.length = P.ell) :
    M.action q ys = keySum P ys (steps.zip (collapseKgExponents d)) := by
  have : NeZero q := ⟨P.q_pos.ne'⟩
  have hcols : ∀ b ∈ blocks, b.cols = d ∧ b.q = q ∧ b.rows = d := by
    intro b hb
    obtain ⟨j, hj, rfl⟩ := List.getElem_of_mem hb
    have hspec := hblocks.get (hblocks.length_eq ▸ hj) hj
    exact ⟨hspec.cols, hspec.modulus, hspec.rows⟩
  have hwidth : blocks.length = ys.length := by
    rw [hlen, ← hblocks.length_eq, List.length_range]
  have hys : ys = (List.range P.ell).map fun j => ys.getD j fun _ => 0 := by
    refine List.ext_getElem (by simp [hlen]) fun j hj hj' => ?_
    rw [List.getElem_map, List.getElem_range, List.getD_eq_getElem _ _ hj]
  -- row by row, the stored entries are those of the blocks
  have hrows : M.action q ys = ((blocks.zip ys).map fun p =>
      ∑ c : Fin d, (p.2 c : ZMod q) • Poly.ring q (p.1.column d c)).sum := by
    cases blocks with
    | nil => cases h
    | cons first rest =>
        obtain ⟨hMrows, hMq, hMcols, hvalue⟩ := NativeMatrix.fromBlocks_spec h
        obtain ⟨-, hfirstQ, hfirstRows⟩ := hcols first List.mem_cons_self
        rw [hMq, hfirstQ, hMrows, hfirstRows] at hvalue
        have hsum (r : ℕ) (hr : r < d) : ∑ c ∈ Finset.range M.cols,
            ((M.words.value r c : ℤ) : ZMod q) * ((joinLimbs ys).getD c 0 : ℕ) =
              (((first :: rest).zip ys).map fun p =>
                ∑ c : Fin d, (p.1.entry r c : ZMod q) * (p.2 c : ℕ)).sum := by
          rw [← sum_concatEntry (fun b hb => (hcols b hb).1) hwidth, ← hMcols]
          exact Finset.sum_congr rfl fun c hc => by rw [hvalue r hr c (Finset.mem_range.mp hc)]
        have hout (r : ℕ) (hr : r < d) : ((∑ c ∈ Finset.range M.cols,
            ((M.words.value r c : ℤ) : ZMod q) * ((joinLimbs ys).getD c 0 : ℕ)).val : ZMod q) = _ :=
          (ZMod.natCast_zmod_val _).trans (hsum r hr)
        rw [← ring_rowSums hout]
        refine congrArg ofCoeffs (funext fun r => (ZMod.natCast_zmod_val _).symm)
  -- a block of digit `j` meets the images of the limb `j`
  have hblock (j : ℕ) (B : PackingMatrix) (hB : IsCompiled d q B (digitTerms steps j)) :
      ∑ c : Fin d, ((ys.getD j fun _ => 0) c : ZMod q) • Poly.ring q (B.column d c) =
        ((steps.zip (collapseKgExponents d)).map fun step =>
          tau step.2 (Poly.ring q (ys.getD j fun _ => 0)) *
            Poly.ring q (step.1.2.getD j fun _ => 0)).sum := by
    rw [hB.action fun t ht => odd_of_mem_collapseKgExponents P.d_pos (List.of_mem_zip ht).2,
      digitTerms, List.zip_map_left, List.map_map]
    refine congrArg List.sum (List.map_congr_left fun step _ => ?_)
    exact mul_comm _ _
  rw [hrows]
  conv_lhs => rw [hys]
  rw [sum_zip_of_forall₂ hblocks hblock, sum_map_range, keySum]
  -- exchange the sums over the limbs and over the steps
  generalize steps.zip (collapseKgExponents d) = schedule
  induction schedule with
  | nil => simp
  | cons step schedule ih =>
      simp only [List.map_cons, List.sum_cons, Finset.sum_add_distrib, ih]
      rfl

end Compiled

/-! ## The floors -/

section Floors

/-- The inner products of the masks with a secret. -/
noncomputable def innerProducts (q : ℕ) (masks : Fin d → Poly d) (secret : Poly d) :
    NegRing d (ZMod q) := ofCoeffs fun i => ∑ j, (masks i j : ZMod q) * secret j

variable [NeZero d]

theorem ring_floorTrace (hq : 0 < q) (masks : Fin d → Poly d) (g : ℕ) :
    Poly.ring q (floorTrace q masks g) =
      reduce q (floorDiv (traceAt (fun j => intMask (masks j)) g)) := by
  refine ring_emod hq fun i => ?_
  rw [coeff_floorDiv]
  rfl

/-- An integer inner product, modulo `q`. -/
theorem reduce_innerProducts (masks : Fin d → Poly d) (secret : Poly d) :
    reduce q (∑ j : Fin d, coeff (intMask (masks j) * intPoly q secret) 0 • x ^ (j : ℕ)) =
      innerProducts q masks secret := by
  rw [← ofCoeffs_apply, reduce, baseChange_ofCoeffs, innerProducts]
  congr 1
  funext i
  rw [intMask, coeff_zero_maskPoly_mul, map_sum]
  refine Finset.sum_congr rfl fun j _ => ?_
  rw [map_mul, intPoly, coeff_ofCoeffs, eq_intCast, eq_intCast, cast_centered, Int.cast_natCast]

/-- What the floors of the traces add to the inner products. -/
noncomputable def floorError (q : ℕ) (masks : Fin d → Poly d) (secret : Poly d) :
    NegRing d (ZMod q) :=
  ∑ k ∈ Finset.range d, tau (2 * k + 1) (Poly.ring q secret) *
    Poly.ring q (floorTrace q masks (2 * k + 1)) - innerProducts q masks secret

/-- **Both stacks of slots** hold the inner products, up to what the floors add. -/
theorem sum_slots_eq (P : NativeParams d q) (masks : Fin d → Poly d) (secret : Poly d) :
    ∑ i ∈ Finset.range (d / 2), tau (leftExp d i) (Poly.ring q secret) *
        Poly.ring q (floorTrace q masks (leftExp d i)) +
      ∑ i ∈ Finset.range (d / 2), tau (rightExp d i) (Poly.ring q secret) *
        Poly.ring q (floorTrace q masks (rightExp d i)) =
      innerProducts q masks secret + floorError q masks secret := by
  obtain ⟨t, hd, -⟩ := P.exists_d_eq
  rw [floorError, add_sub_cancel, ← sum_odd_eq hd t.succ_pos fun g =>
    tau g (Poly.ring q secret) * Poly.ring q (floorTrace q masks g)]

/-- **What the floors add** is small for a small secret. -/
theorem exists_floorError (P : NativeParams d q) (masks : Fin d → Poly d) {secret : Poly d} {B : ℕ}
    (hsecret : ∀ i, (centered (secret i) q).natAbs ≤ B) :
    ∃ e : NegRing d ℤ, CoeffsLe e (d * (d - 1) * B) ∧
      floorError q masks secret = -reduce q e := by
  obtain ⟨t, hd, -⟩ := P.exists_d_eq
  obtain ⟨e, he, hfloors⟩ := exists_divisionError hd (coeffsLe_of_natAbs hsecret)
    fun j => intMask (masks j)
  refine ⟨e, he, ?_⟩
  have hsum : ∑ k ∈ Finset.range d, tau (2 * k + 1) (Poly.ring q secret) *
      Poly.ring q (floorTrace q masks (2 * k + 1)) = innerProducts q masks secret - reduce q e := by
    calc ∑ k ∈ Finset.range d, tau (2 * k + 1) (Poly.ring q secret) *
          Poly.ring q (floorTrace q masks (2 * k + 1))
        = reduce q (∑ k ∈ Finset.range d, tau (2 * k + 1) (intPoly q secret) *
            floorDiv (traceAt (fun j => intMask (masks j)) (2 * k + 1))) := by
          rw [map_sum]
          refine Finset.sum_congr rfl fun k _ => ?_
          rw [map_mul, ring_floorTrace P.q_pos, reduce, baseChange_tau _ ⟨k, rfl⟩, ← reduce_intPoly]
      _ = innerProducts q masks secret - reduce q e := by
          rw [hfloors, map_sub, reduce_innerProducts]
  rw [floorError, hsum]
  abel

end Floors

/-! ## Blocks and their traces -/

section Built

variable {lib : NumberTheory} {S : NativeSetup P}

/-- What a block keeps of the trace that it is compiled from. -/
structure IsBuiltFrom (S : NativeSetup P) (trace : NativeTrace d q) (B : NativePreprocessed P) :
    Prop where
  action : ∀ ys : List (Poly d), ys.length = P.ell →
    B.h.action q ys = keySum P ys (trace.steps.zip (collapseKgExponents d))
  a_eq : B.a = trace.a
  two_mask : trace.last = none → B.aOther = some trace.right
  one_mask : ∀ last, trace.last = some last →
    B.aOther = none ∧ ∃ op, B.leftover = some op ∧ op.Fits B.lift (q / 2) last

theorem canonical_of_traceMasks {masks : Fin d → Poly d} {twoMask : Bool} {trace : NativeTrace d q}
    (h : traceMasks lib S (List.ofFn masks) twoMask = .ok trace) (j i : Fin d) : masks j i < q := by
  by_contra hge
  have hbad : ∃ row ∈ List.ofFn masks, ∃ e, validatePoly P row = .error e :=
    ⟨masks j, (List.mem_ofFn' masks _).mpr ⟨j, rfl⟩, _, if_pos ⟨i, not_lt.mp hge⟩⟩
  obtain ⟨-, -, e, -, herror⟩ := forM_eq_error hbad
  rw [traceMasks, dif_neg (not_not.mpr List.length_ofFn), herror] at h
  cases h

/-- The steps of a trace, with the exponents that the collapse lists. -/
theorem IsTrace.schedule [NeZero d] {masks : Fin d → Poly d} {twoMask : Bool}
    {left right : List (TraceStep d)} {trace : NativeTrace d q}
    (h : IsTrace S masks twoMask left right trace) :
    trace.steps.zip (collapseKgExponents d) =
      chainSchedule (leftExp d) left ++ chainSchedule (rightExp d) right := by
  have hleft := h.left.length
  have hright := h.right.length
  rw [List.length_reverse, List.length_map, List.length_range] at hleft hright
  rw [h.steps, collapseKgExponents_eq P.d_pos, List.zip_append (by simp [hleft])]
  rw [chainSchedule, chainSchedule, hleft, hright]

/-- **A built block comes from its trace.** -/
theorem exists_builtTrace [NeZero d] (hinv : lib.InvertsOdd d) {supportsPacked : Bool}
    {masks : Fin d → Poly d} {twoMask : Bool} {B : NativePreprocessed P}
    (h : NativePreprocessed.build lib supportsPacked S (List.ofFn masks) twoMask = .ok B) :
    ∃ trace left right, traceMasks lib S (List.ofFn masks) twoMask = .ok trace ∧
      IsTrace S masks twoMask left right trace ∧ IsBuiltFrom S trace B := by
  unfold NativePreprocessed.build at h
  obtain ⟨trace, htrace, hcompile⟩ := bind_eq_ok h
  obtain ⟨hlift, -⟩ := traceMasks_spec htrace
  obtain ⟨trace', left, right, htrace', -, hspec⟩ := traceMasks_ok (S := S) hlift hinv masks
    (canonical_of_traceMasks htrace) twoMask
  obtain rfl : trace = trace' := Except.ok.inj (htrace.symm.trans htrace')
  refine ⟨trace, left, right, htrace, hspec, ?_⟩
  have hsteps : ∀ step ∈ trace.steps, step.2 = P.limbs step.1 := by
    intro step hstep
    rw [hspec.steps, List.mem_append] at hstep
    exact hstep.elim (hspec.left.steps_digits step) (hspec.right.steps_digits step)
  have hlast : ∀ last, trace.last = some last → last ≠ [] ∧ ∀ digit ∈ last, ∀ i, digit i < q := by
    intro last hlast
    cases twoMask with
    | true => rw [(hspec.two_mask rfl).1] at hlast; cases hlast
    | false =>
        rw [(hspec.one_mask rfl).1] at hlast
        cases hlast
        refine ⟨fun hnil => P.ell_pos.ne' ?_, P.limbs_lt _⟩
        rw [← P.length_limbs trace.right, hnil, List.length_nil]
  obtain ⟨B', blocks, hB', hblocks, hM, ha, hnone, hsome⟩ := compileTrace_ok supportsPacked S trace
    (by rw [hspec.steps, List.length_append, hspec.left.length, hspec.right.length]; simp)
    (fun step hstep digit hdigit => by
      rw [hsteps step hstep] at hdigit
      exact P.limbs_lt _ digit hdigit) hlast
  obtain rfl : B = B' := Except.ok.inj (hcompile.symm.trans hB')
  refine ⟨fun ys hlen => action_eq_keySum hblocks hM hlen, ha, fun h => (hnone h).1,
    fun last h => ⟨hsome last h, ?_⟩⟩
  obtain ⟨hne, hlt⟩ := hlast last h
  obtain ⟨M, -, hblock⟩ := bind_eq_ok hcompile
  rw [NativeTrace.toBlock, h] at hblock
  obtain ⟨op, hop, hblock⟩ := bind_eq_ok hblock
  cases hblock
  obtain ⟨op', hop', -, hfits⟩ := trace.lift.preparePublic_spec hne hlt
  obtain rfl : op = op' := Except.ok.inj (hop.symm.trans hop')
  exact ⟨op, rfl, hfits⟩

end Built

/-! ## Packing and its phase -/

section Phase

variable {lib : NumberTheory} {S : NativeSetup P}

/-- Packing in the mode of a block, and the phase of what it returns. -/
def NativeSecret.packedPhase (lib : NumberTheory) (secret : NativeSecret P)
    (B : NativePreprocessed P) (b : Poly d) (keys : NativeKeys d) : Result (Poly d) :=
  if B.aOther.isSome then do
    let ct ← B.packTwoMask b keys
    secret.phaseTwoMask lib ct
  else do
    let ct ← B.pack b keys
    secret.phase lib ct

/-- The errors of the conjugation key, on the digits of the last step. -/
noncomputable def NativeTrace.lastError (trace : NativeTrace d q) (eh : List (Poly d)) :
    NegRing d (ZMod q) := dot q (trace.last.getD []) eh

/-- What the digits leave of every polynomial that a trace decomposes, times images of the
secret. -/
noncomputable def NativeTrace.secretError (P : NativeParams d q) (trace : NativeTrace d q)
    (s : NegRing d (ZMod q)) : NegRing d (ZMod q) :=
  restSum P s (trace.steps.zip (collapseKgExponents d)) +
    if trace.last.isSome then tau (2 * d - 1) s * P.roundOff trace.right else 0

/-- A masked sum is the sum of residues. -/
theorem ring_addMasked (P : NativeParams d q) (u v : Poly d) :
    Poly.ring q (addMasked q u v) = Poly.ring q u + Poly.ring q v := by
  rw [Poly.ring, Poly.ring, Poly.ring, ← map_add]
  congr 1
  funext i
  rw [addMasked, cast_mask P.isPowerOfTwo, Nat.cast_add]
  rfl

theorem NativePreprocessed.BuiltFor.multiply_action {B : NativePreprocessed P}
    (hB : B.BuiltFor lib S) {kg : List (Poly d)} (hlen : kg.length = P.ell)
    (hkg : ∀ a ∈ kg, ∀ i, a i < q) :
    ∃ out, B.h.multiply (joinLimbs kg) = .ok out ∧
      Poly.ring q (fun r : Fin d => out r) = B.h.action q kg := by
  obtain ⟨out, hout, hspec⟩ := B.h.multiply_spec (y := joinLimbs kg)
    (by rw [length_joinLimbs, hlen, hB.cols_eq])
    (fun v hv => by
      obtain ⟨a, ha, i, rfl⟩ := mem_joinLimbs hv
      rw [hB.q_eq]
      exact hkg a ha i)
  rw [hB.q_eq, hB.rows_eq] at hspec
  exact ⟨out, hout, congrArg ofCoeffs (funext fun r => (hspec r r.2).2)⟩

/-- **The body of a one-mask pack.** -/
theorem pack_body {trace : NativeTrace d q} {B : NativePreprocessed P} (hB : B.BuiltFor lib S)
    (hfrom : IsBuiltFrom S trace B) {last : List (Poly d)} (hlast : trace.last = some last)
    (hlen : last.length = P.ell) {keys : NativeKeys d} (hfits : keys.FitsMode S false)
    (hcanonical : keys.Canonical q) {b : Poly d} (hb : ∀ i, b i < q) :
    ∃ ct, B.pack b keys = .ok ct ∧ ct.a = trace.a ∧ (∀ i, ct.b i < q) ∧
      Poly.ring q ct.b = B.h.action q keys.kg + dot q last keys.kh + Poly.ring q b := by
  obtain ⟨hone, op, hop, hopFits⟩ := hfrom.one_mask last hlast
  obtain ⟨hid, hkg, hkh⟩ := hfits
  have hkh' : keys.kh.length = P.ell := hkh
  obtain ⟨out, hout, haction⟩ := hB.multiply_action hkg hcanonical.kg_lt
  obtain ⟨product, hproduct, hdot⟩ := B.lift.sumPrepared_spec hopFits (hlen.trans hkh'.symm)
    hcanonical.kh_lt
  refine ⟨⟨B.a, addMasked q (addMasked q (fun i => out i) product) b⟩, ?_, hfrom.a_eq,
    fun i => mask_lt P.isPowerOfTwo _, ?_⟩
  · rw [NativePreprocessed.pack, hone, if_neg (by simp), validatePoly_ok P hb, ok_bind,
      if_neg (by simp [hid, hB.id_eq, hkg, hkh']), hout, ok_bind, hop]
    dsimp only
    rw [hproduct, ok_bind, ← addMasked_addMasked P]
    exact NativeCiphertext.fromRows_ok P hB.a_lt fun i => mask_lt P.isPowerOfTwo _
  · rw [ring_addMasked P, ring_addMasked P, haction, hdot.ring]

/-- **The body of a two-mask pack.** -/
theorem packTwoMask_body {trace : NativeTrace d q} {B : NativePreprocessed P}
    (hB : B.BuiltFor lib S) (hfrom : IsBuiltFrom S trace B) (hlast : trace.last = none)
    {keys : NativeKeys d} (hfits : keys.FitsMode S true) (hcanonical : keys.Canonical q)
    {b : Poly d} (hb : ∀ i, b i < q) :
    ∃ ct, B.packTwoMask b keys = .ok ct ∧ ct.a = trace.a ∧ ct.aOther = trace.right ∧
      (∀ i, ct.b i < q) ∧ Poly.ring q ct.b = B.h.action q keys.kg + Poly.ring q b := by
  have hother := hfrom.two_mask hlast
  obtain ⟨hid, hkg, hkh⟩ := hfits
  have hkh' : keys.kh = [] := hkh
  obtain ⟨out, hout, haction⟩ := hB.multiply_action hkg hcanonical.kg_lt
  refine ⟨⟨B.a, trace.right, addMasked q (fun i => out i) b⟩, ?_, hfrom.a_eq, rfl,
    fun i => mask_lt P.isPowerOfTwo _, ?_⟩
  · rw [NativePreprocessed.packTwoMask, validatePoly_ok P hb, ok_bind,
      if_neg (by simp [hid, hB.id_eq, hkg, hkh']), hother]
    dsimp only
    rw [hout, ok_bind]
    exact NativeTwoMaskCiphertext.fromRows_ok P hB.a_lt (hB.other_lt _ hother)
      fun i => mask_lt P.isPowerOfTwo _
  · rw [ring_addMasked P, haction]

/-- The phase of a ciphertext. -/
theorem NativeSecret.phase_spec {lift : LiftContext d q}
    (hlift : LiftContext.new lib d q = .ok lift)
    {secret : NativeSecret P} (hsecret : ∀ i, secret.coeffs i < q) (ct : NativeCiphertext d)
    (ha : ∀ i, ct.a i < q) :
    ∃ phase, secret.phase lib ct = .ok phase ∧ (∀ i, phase i < q) ∧
      Poly.ring q phase = Poly.ring q ct.a * Poly.ring q secret.coeffs + Poly.ring q ct.b := by
  obtain ⟨product, hproduct, -, hring⟩ := lift.multiply_spec ha hsecret
  refine ⟨addMasked q product ct.b, ?_, fun i => mask_lt P.isPowerOfTwo _, ?_⟩
  · rw [NativeSecret.phase, hlift, ok_bind, hproduct]
    rfl
  · rw [ring_addMasked P, hring]

/-- The phase of a two-mask ciphertext. -/
theorem NativeSecret.phaseTwoMask_spec {lift : LiftContext d q}
    (hlift : LiftContext.new lib d q = .ok lift) {secret : NativeSecret P}
    (hsecret : ∀ i, secret.coeffs i < q) (ct : NativeTwoMaskCiphertext d) (ha : ∀ i, ct.a i < q)
    (hother : ∀ i, ct.aOther i < q) :
    ∃ phase, secret.phaseTwoMask lib ct = .ok phase ∧ (∀ i, phase i < q) ∧
      Poly.ring q phase = Poly.ring q ct.b + Poly.ring q ct.a * Poly.ring q secret.coeffs +
        Poly.ring q ct.aOther * tau (2 * d - 1) (Poly.ring q secret.coeffs) := by
  obtain ⟨first, hfirst, -, hring⟩ := lift.multiply_spec ha hsecret
  obtain ⟨second, hsecond, -, hring'⟩ := lift.multiply_spec hother
    (tauCoeffs_lt P.q_pos secret.coeffs (2 * d - 1))
  refine ⟨fun i => ct.b i + first i + second i &&& (q - 1), ?_, fun i =>
    mask_lt P.isPowerOfTwo _, ?_⟩
  · rw [NativeSecret.phaseTwoMask, hlift, ok_bind, hfirst, ok_bind]
    dsimp only
    rw [hsecond]
    rfl
  · rw [← addMasked_addMasked P, ring_addMasked P, ring_addMasked P, hring, hring',
      ring_tauCoeffs P.q_pos (odd_two_mul_sub_one P.d_pos)]

/-- The conjugation key on the digits of the last step: what the mask of the key adds is taken back,
and the image of the polynomial is left. -/
theorem dot_conjugation_key {s : NegRing d (ZMod q)} [NeZero d] {eh kh : List (Poly d)}
    (hkh : IsNativeBody P s (tau (2 * d - 1) s) S.v eh kh) (hlen : kh.length = P.ell)
    (hlenE : eh.length = P.ell) (a : Poly d) :
    s * dot q S.v (P.limbs a) + dot q (P.limbs a) kh =
      tau (2 * d - 1) s * Poly.ring q a + dot q (P.limbs a) eh +
        tau (2 * d - 1) s * P.roundOff a := by
  have hdot {key : List (Poly d)} (hkey : key.length = P.ell) :
      dot q (P.limbs a) key = digitVector P key ⬝ᵥ digitVector P (P.limbs a) := by
    rw [dot_eq_sum (P.length_limbs a) hkey, dotProduct]
    exact Finset.sum_congr rfl fun j _ => mul_comm _ _
  have hv : dot q S.v (P.limbs a) = digitVector P S.v ⬝ᵥ digitVector P (P.limbs a) :=
    dot_eq_sum S.length_v (P.length_limbs a)
  have hbody : digitVector P kh =
      -(s • digitVector P S.v) + digitVector P eh + tau (2 * d - 1) s • P.gadgetVec := by
    funext j
    exact hkh j
  have hgadget := gadgetVec_dotProduct_limbs (P := P) a
  rw [hdot hlen, hdot hlenE, hv, hbody, add_dotProduct, add_dotProduct, neg_dotProduct,
    smul_dotProduct, smul_dotProduct, hgadget, smul_eq_mul, smul_eq_mul]
  ring

/-- **The phase of a native block**, as elements of the ring. -/
theorem packedPhase_ring [NeZero d] {masks : Fin d → Poly d} {twoMask : Bool}
    {left right : List (TraceStep d)} {trace : NativeTrace d q} {B : NativePreprocessed P}
    (hB : B.BuiltFor lib S) (htrace : IsTrace S masks twoMask left right trace)
    (hfrom : IsBuiltFrom S trace B) {secret : NativeSecret P} (hsecret : ∀ i, secret.coeffs i < q)
    {eg eh : List (Poly d)} {keys : NativeKeys d}
    (hkeys : keys.IsFor S secret.coeffs eg eh twoMask) {b : Poly d} (hb : ∀ i, b i < q) :
    ∃ phase : Poly d, secret.packedPhase lib B b keys = .ok phase ∧ (∀ i, phase i < q) ∧
      Poly.ring q phase = Poly.ring q b + innerProducts q masks secret.coeffs + B.h.action q eg +
        trace.lastError eh + trace.secretError P (Poly.ring q secret.coeffs) +
        floorError q masks secret.coeffs := by
  have hfloors := sum_slots_eq P masks secret.coeffs
  have hd := P.d_pos
  have htwo := P.two_le_d
  have hhalf : d / 2 - 1 + 1 = d / 2 := by omega
  -- the two chains
  have hleft := phase_chain hkeys.kg (odd_leftExp d) (leftExp_succ d)
    (fun i => floorTrace q masks (leftExp d i)) htrace.left
  have hright := phase_chain hkeys.kg (odd_rightExp hd) (rightExp_succ d)
    (fun i => floorTrace q masks (rightExp d i)) htrace.right
  have hid : tau 1 (Poly.ring q secret.coeffs) = Poly.ring q secret.coeffs := by
    rw [tau_one]
    rfl
  rw [hhalf, leftExp_zero hd, hid] at hleft
  rw [hhalf, rightExp_zero hd] at hright
  have hkg : B.h.action q keys.kg = _ := hfrom.action keys.kg hkeys.fits.2.1
  have heg : B.h.action q eg = _ := hfrom.action eg hkeys.length_eg
  rw [htrace.schedule, keySum_append] at hkg heg
  cases twoMask with
  | true =>
      obtain ⟨hlast, ha⟩ := htrace.two_mask rfl
      obtain ⟨ct, hct, hctA, hctOther, -, hbody⟩ := packTwoMask_body hB hfrom hlast hkeys.fits
        hkeys.canonical hb
      have hsome : B.aOther.isSome := by rw [hfrom.two_mask hlast]; rfl
      obtain ⟨phase, hphase, hlt, hring⟩ := NativeSecret.phaseTwoMask_spec hB.lift_eq hsecret ct
        (by rw [hctA]; exact htrace.a_lt) (by rw [hctOther]; exact htrace.right.out_lt)
      refine ⟨phase, ?_, hlt, ?_⟩
      · rw [NativeSecret.packedPhase, if_pos hsome, hct, ok_bind, hphase]
      · have hnone : trace.lastError eh = 0 := by
          rw [NativeTrace.lastError, hlast]
          exact List.sum_nil
        rw [hring, hbody, hctA, hctOther, ha, hnone, NativeTrace.secretError, hlast,
          if_neg (by simp), htrace.schedule, restSum_append, hkg, heg]
        linear_combination hleft + hright + hfloors
  | false =>
      obtain ⟨hlast, ha⟩ := htrace.one_mask rfl
      obtain ⟨ct, hct, hctA, -, hbody⟩ := pack_body hB hfrom hlast (P.length_limbs _) hkeys.fits
        hkeys.canonical hb
      have hone : ¬B.aOther.isSome := by
        rw [(hfrom.one_mask _ hlast).1]
        exact Bool.false_ne_true
      obtain ⟨phase, hphase, hlt, hring⟩ := NativeSecret.phase_spec hB.lift_eq hsecret ct
        (by rw [hctA]; exact htrace.a_lt)
      -- the last step of the collapse
      have hconjugation := dot_conjugation_key (hkeys.kh rfl) hkeys.fits.2.2 (hkeys.length_eh rfl)
        trace.right
      refine ⟨phase, ?_, hlt, ?_⟩
      · rw [NativeSecret.packedPhase, if_neg hone, hct, ok_bind, hphase]
      · rw [hring, hbody, hctA, ha, NativeTrace.lastError, NativeTrace.secretError, hlast,
          if_pos Option.isSome_some, Option.getD_some, htrace.schedule, restSum_append, hkg, heg]
        linear_combination hleft + hright + hfloors + hconjugation

/-! ### What the digits leave is small -/

/-- The largest rounding error of a digit decomposition. -/
def NativeParams.roundingBound (P : NativeParams d q) : ℕ :=
  if P.dropped = 0 then 0 else 2 ^ (P.dropped - 1)

theorem decompositionErrorBound_eq (P : NativeParams d q) (bound : ℕ) :
    P.decompositionErrorBound bound = (d - 1) * (d * bound * P.roundingBound) := by
  unfold NativeParams.decompositionErrorBound NativeParams.roundingBound
  split
  · simp
  · ring

theorem NativeParams.abs_roundingError_le_bound (P : NativeParams d q) (a : ℕ) :
    |P.roundingError a| ≤ P.roundingBound := by
  have hle := P.abs_roundingError_le a
  unfold NativeParams.roundingBound
  split at hle
  · next hzero =>
    rw [if_pos hzero]
    push_cast
    linarith
  · next hne =>
    obtain ⟨n, hn⟩ := Nat.exists_eq_succ_of_ne_zero hne
    rw [if_neg hne]
    rw [hn, pow_succ] at hle
    rw [hn, Nat.succ_sub_one]
    push_cast
    linarith

/-- One polynomial that was decomposed. -/
theorem exists_roundOffError [NeZero d] (P : NativeParams d q) {secret : Poly d} {bound : ℕ}
    (hbound : ∀ i, (centered (secret i) q).natAbs ≤ bound) {g : ℕ} (hg : Odd g) (a : Poly d) :
    ∃ r : NegRing d ℤ, CoeffsLe r (d * bound * P.roundingBound : ℕ) ∧
      reduce q r = tau g (Poly.ring q secret) * P.roundOff a := by
  refine ⟨tau g (intPoly q secret) * ofCoeffs fun i => P.roundingError (a i), ?_, ?_⟩
  · have hround : CoeffsLe (ofCoeffs fun i => P.roundingError (a i)) (P.roundingBound : ℤ) := by
      intro i
      rw [coeff_ofCoeffs]
      exact P.abs_roundingError_le_bound _
    have hmul := ((coeffsLe_of_natAbs hbound).tau hg (coprime_of_odd P hg)).mul hround
    push_cast
    exact hmul
  · rw [map_mul, reduce, baseChange_tau _ hg, ← reduce, reduce_intPoly, reduce, baseChange_ofCoeffs]
    rfl

/-- Every step of a schedule. -/
theorem exists_restError [NeZero d] (P : NativeParams d q) {secret : Poly d} {bound : ℕ}
    (hbound : ∀ i, (centered (secret i) q).natAbs ≤ bound) {schedule : List (TraceStep d × ℕ)}
    (hodd : ∀ step ∈ schedule, Odd step.2) :
    ∃ r : NegRing d ℤ, CoeffsLe r (schedule.length * (d * bound * P.roundingBound) : ℕ) ∧
      reduce q r = restSum P (Poly.ring q secret) schedule := by
  induction schedule with
  | nil =>
      refine ⟨0, fun i => by simp, ?_⟩
      rw [map_zero]
      rfl
  | cons step schedule ih =>
      obtain ⟨r, hr, hreduce⟩ := ih fun step hstep => hodd step (List.mem_cons_of_mem _ hstep)
      have hnext : Odd (step.2 * 5) := (hodd step List.mem_cons_self).mul ⟨2, rfl⟩
      obtain ⟨r', hr', hreduce'⟩ := exists_roundOffError P hbound (odd_mod_two_mul hnext d) step.1.1
      refine ⟨r' + r, fun i => ?_, ?_⟩
      · rw [coeff_add]
        refine (abs_add_le _ _).trans ((add_le_add (hr' i) (hr i)).trans (le_of_eq ?_))
        rw [List.length_cons]
        push_cast
        ring
      · rw [map_add, hreduce, hreduce', restSum, restSum, List.map_cons, List.sum_cons]

/-- **What the digits of a whole trace leave** is within the decomposition bound. -/
theorem exists_secretError [NeZero d] (P : NativeParams d q) (trace : NativeTrace d q)
    {secret : Poly d} {bound : ℕ}
    (hbound : ∀ i, (centered (secret i) q).natAbs ≤ bound) :
    ∃ r : NegRing d ℤ, CoeffsLe r (P.decompositionErrorBound bound : ℕ) ∧
      reduce q r = trace.secretError P (Poly.ring q secret) := by
  have hodd : ∀ step ∈ trace.steps.zip (collapseKgExponents d), Odd step.2 := fun step hstep =>
    odd_of_mem_collapseKgExponents P.d_pos (List.of_mem_zip hstep).2
  obtain ⟨r, hr, hreduce⟩ := exists_restError P hbound hodd
  obtain ⟨r', hr', hreduce'⟩ :=
    exists_roundOffError P hbound (odd_two_mul_sub_one P.d_pos) trace.right
  have htwo := P.two_le_d
  have hlen : (trace.steps.zip (collapseKgExponents d)).length ≤ d - 2 := by
    rw [List.length_zip, length_collapseKgExponents]
    exact (min_le_right _ _).trans (by omega)
  have hle : (trace.steps.zip (collapseKgExponents d)).length * (d * bound * P.roundingBound) +
      d * bound * P.roundingBound ≤ P.decompositionErrorBound bound := by
    rw [decompositionErrorBound_eq, ← Nat.succ_mul]
    exact Nat.mul_le_mul_right _ (by omega)
  refine ⟨r + if trace.last.isSome then r' else 0, fun i => ?_, ?_⟩
  · have hlast : |coeff (if trace.last.isSome then r' else 0) i| ≤
        (d * bound * P.roundingBound : ℕ) := by
      split
      · exact hr' i
      · rw [coeff_zero, abs_zero]
        exact Int.natCast_nonneg _
    rw [coeff_add]
    refine (abs_add_le _ _).trans ((add_le_add (hr i) hlast).trans ?_)
    exact_mod_cast hle
  · rw [map_add, hreduce, NativeTrace.secretError]
    congr 1
    split
    · exact hreduce'
    · exact map_zero _

/-! ### The identity -/

theorem reduce_eq_ofCoeffs [NeZero d] (p : NegRing d ℤ) :
    reduce q p = ofCoeffs (fun i : Fin d => ((coeff p i : ℤ) : ZMod q)) := by
  refine ext_coeff fun i => ?_
  rw [reduce, coeff_baseChange, coeff_ofCoeffs]
  rfl

/-- **The phase of native packing.**  On every build, in either mode, for every secret with small
coefficients and all keys that hide its gadget multiples behind arbitrary errors, the phase of what
the block packs is the body and the inner products of the masks with the secret, and four errors:
the compiled matrix on the errors of the generator key, the digits of the last step on those of the
conjugation key, what all the digits leave on the secret, and a division error.  The last two are
within their bounds. -/
theorem native_phase (hinv : lib.InvertsOdd d) {supportsPacked : Bool} {masks : Fin d → Poly d}
    {twoMask : Bool} {B : NativePreprocessed P}
    (h : NativePreprocessed.build lib supportsPacked S (List.ofFn masks) twoMask = .ok B)
    {secret : NativeSecret P} (hsecret : ∀ i, secret.coeffs i < q) {bound : ℕ}
    (hbound : ∀ i, (centered (secret.coeffs i) q).natAbs ≤ bound) {eg eh : List (Poly d)}
    {keys : NativeKeys d} (hkeys : keys.IsFor S secret.coeffs eg eh twoMask) {b : Poly d}
    (hb : ∀ i, b i < q) :
    ∃ (trace : NativeTrace d q) (phase : Poly d) (r e : Fin d → ℤ),
      traceMasks lib S (List.ofFn masks) twoMask = .ok trace ∧
      secret.packedPhase lib B b keys = .ok phase ∧
      Poly.ring q phase = Poly.ring q b + innerProducts q masks secret.coeffs + B.h.action q eg +
        trace.lastError eh + trace.secretError P (Poly.ring q secret.coeffs) +
        ofCoeffs (fun i => (e i : ZMod q)) ∧
      trace.secretError P (Poly.ring q secret.coeffs) = ofCoeffs (fun i => (r i : ZMod q)) ∧
      (∀ i, |r i| ≤ P.decompositionErrorBound bound) ∧ ∀ i, |e i| ≤ divisionErrorBound d bound := by
  have : NeZero d := ⟨P.d_pos.ne'⟩
  obtain ⟨trace, left, right, hrun, htrace, hfrom⟩ := exists_builtTrace hinv h
  obtain ⟨hB, -⟩ := build_builtFor h
  obtain ⟨phase, hphase, -, hring⟩ := packedPhase_ring hB htrace hfrom hsecret hkeys hb
  obtain ⟨e, he, hfloor⟩ := exists_floorError P masks hbound
  obtain ⟨r, hr, hreduce⟩ := exists_secretError P trace hbound
  refine ⟨trace, phase, fun i => coeff r i, fun i => coeff (-e) i, hrun, hphase, ?_, ?_, hr,
    fun i => ?_⟩
  · rw [hring, hfloor, ← reduce_eq_ofCoeffs, map_neg]
  · rw [← hreduce, reduce_eq_ofCoeffs]
  · have habs : |coeff (-e) i| = |coeff e i| := by rw [coeff_neg, abs_neg]
    refine (habs.trans_le (he i)).trans ?_
    have hnonneg : (0 : ℤ) ≤ d * bound := by positivity
    rw [divisionErrorBound]
    push_cast
    linarith only [hnonneg]

/-- A generator of ones. -/
def onesGenerator : Generator Unit where
  nextU64 r := (1, r)
  nextU32 r := (1, r)
  gaussian _ r := (1, r)
  exists_nextU32 _ := ⟨0, show 1 < 2 ^ 32 - 1 by decide⟩

theorem onesGenerator_bounded : onesGenerator.Bounded (2 ^ 16) where
  lt _ := Nat.one_lt_two_pow (by decide)
  le _ := show (centered 1 (2 ^ 16)).natAbs ≤ 65 by decide

/-- A secret of ones. -/
def onesSecret : NativeSecret smallNativeParams := ⟨fun _ => 1⟩

/-- A block of degree four, packed with keys that were generated for a secret of ones. -/
theorem native_phase_small : ∃ (B : NativePreprocessed smallNativeParams) (keys : NativeKeys 4)
    (phase : Poly 4), NativePreprocessed.build nativeNumberTheory false smallSetup
      (List.ofFn fun j i : Fin 4 => 4000 * (j : ℕ) + 7 * i) false = .ok B ∧
    NativeKeys.generate nativeNumberTheory onesGenerator smallSetup onesSecret () = .ok (keys, ()) ∧
    onesSecret.packedPhase nativeNumberTheory B (fun i => i) keys = .ok phase := by
  obtain ⟨lift, hlift⟩ := liftContext_new_native
  have hmasks (j i : Fin 4) : 4000 * (j : ℕ) + 7 * i < 2 ^ 16 := by omega
  obtain ⟨B, hB, -⟩ := build_ok false (S := smallSetup) hlift invertsOdd_native _ hmasks false
  have hone (i : Fin 4) : onesSecret.coeffs i < 2 ^ 16 := Nat.one_lt_two_pow (by decide)
  have hle (i : Fin 4) : (centered (onesSecret.coeffs i) (2 ^ 16)).natAbs ≤ 1 :=
    show (centered 1 (2 ^ 16)).natAbs ≤ 1 by decide
  have hbody (i : Fin 4) : (i : ℕ) < 2 ^ 16 := i.2.trans (by decide)
  obtain ⟨keys, ⟨⟩, hkeys⟩ :=
    NativeKeys.returns_generateInternal onesGenerator smallSetup hone hlift false ()
  obtain ⟨eg, eh, hfor, -⟩ :=
    yields_generateInternal_isFor onesGenerator_bounded hone false () keys () hkeys
  obtain ⟨-, phase, -, -, -, hphase, -⟩ := native_phase invertsOdd_native hB hone hle hfor hbody
  exact ⟨B, keys, phase, hB, hkeys, hphase⟩

end Phase

end Reinspiring
