import IpirSp.Fft.Radix2
import IpirSp.Inspiring.Automorph
import IpirSp.Reinspiring.Matrix
import IpirSp.MachineWord.Wrapping

/-!
# Compiling a packing matrix

One gadget limb of the cascade adds `∑ t_i · τ_{g_i}(y)` to the body, with the recorded digits
`t_i` and the exponents `g_i` in the order of the cascade.  That is linear in `y`, and its matrix
is compiled offline in two ways.  `compileNaiveFused` adds the columns of every term.
`compileFast` notices that column `c` is `X^c` times the value of a generating polynomial at
`X^(2c)` and obtains all of them with one transform whose butterflies rotate coefficients.

`compileNaiveFused_isCompiled` and `compileFast_isCompiled` say that a matrix that either returns
is compiled from its terms.
-/

namespace Reinspiring

open Negacyclic SpiralRs Inspiring Loops MachineWord

variable {d : ℕ}

/-- `collapse_kg_exponents`: the exponents of the cascade in execution order. -/
def collapseKgExponents (d : ℕ) : List ℕ :=
  let half := d / 2 - 1
  let hD := h d
  let twoD := 2 * d
  let left := (List.range half).map fun i => tauGPow i d
  let right := (List.range half).map fun i => tauGPow i d * hD % twoD
  left.reverse ++ right.reverse

/-! ## Column by column -/

section Naive

/-- `accumulate_neg_perm`. -/
def accumulateNegPerm (m : PackingMatrix) (t : Poly d) (g : ℕ) : PackingMatrix :=
  .ofColumns d m.q fun c =>
    let basis : Poly d := fun i => if (i : ℕ) = c then 1 else 0
    let imaged := tauCoeffs basis g m.q
    let col := schoolbookNegacyclic t imaged m.q
    fun r => (m.entry r c + col r) % m.q

/-- `compile_naive_fused`. -/
def compileNaiveFused (ts : List (Poly d)) (exponents : List ℕ) (q : ℕ) : Result PackingMatrix :=
  if ts.length ≠ exponents.length then
    preprocessMismatch "compile: ts/exponents length mismatch"
  else if ts.isEmpty then invalidParams "compile: empty input"
  else .ok ((ts.zip exponents).foldl (fun m t => accumulateNegPerm m t.1 t.2)
    (PackingMatrix.zero d d q))

end Naive

/-! ## By a transform -/

section Fast

/-- The butterfly over an arbitrary modulus. -/
def modButterfly (q e : ℕ) (u v : Poly d) : Poly d × Poly d :=
  let rot := 2 * e % (2 * d)
  let v := rotateByXPower v rot q
  (fun t => (u t + v t) % q, fun t => (u t + q - v t) % q)

/-- The butterfly over a power of two, on wrapping words. -/
def wrappingButterfly (q e : ℕ) (u old : Poly d) : Poly d × Poly d :=
  let mask := q - 1
  let rot := 2 * e &&& (2 * d - 1)
  let rotated : Poly d := fun i =>
    let src := i + 2 * d - rot &&& (2 * d - 1)
    if src ≥ d then wrappingNeg (coeffAt old (src - d)) else coeffAt old src
  (fun i => wrappingAdd (u i) (rotated i) &&& mask, fun i => wrappingSub (u i) (rotated i) &&& mask)

/-- `ring_fft_inplace` on `n` polynomials. -/
def ringFftInplace (n : ℕ) (a : ℕ → Poly d) (q : ℕ) : ℕ → Poly d :=
  if IsPowerOfTwo q ∧ IsPowerOfTwo d then Fft.transform (wrappingButterfly q) n a
  else Fft.transform (modButterfly q) n a

/-- The word at row `r` and column `j` of the matrix over a power of two. -/
def transposedWord (a : ℕ → Poly d) (q r j : ℕ) : ℕ :=
  let word := coeffAt (a j) (r + d - j &&& (d - 1))
  (if r < j then wrappingNeg word else word) &&& (q - 1)

/-- The writes of the tiled transpose in `compile_validated_fft`. -/
def transposeWrites (a : ℕ → Poly d) (q : ℕ) : List ((ℕ × ℕ) × ℕ) :=
  (blockStarts d 32).flatMap fun first => (blockStarts d 32).flatMap fun colStart =>
    (blockRange d 32 colStart).flatMap fun j => (blockRange d 32 first).map fun r =>
      ((r, j), transposedWord a q r j)

/-- `compile_validated_fft`. -/
def compileValidatedFft (a : ℕ → Poly d) (q : ℕ) : PackingMatrix :=
  let a := ringFftInplace d a q
  if IsPowerOfTwo q then
    ⟨d, d, q, fun r j => applyWrites (fun _ => 0) (transposeWrites a q) (r, j)⟩
  else .ofColumns d q fun j => shiftNegacyclic (a j) j q

/-- `compile_fast`; that every polynomial has degree `d` is its type. -/
def compileFast (ts : List (Poly d)) (exponents : List ℕ) (q : ℕ) : Result PackingMatrix :=
  if ts.isEmpty ∨ ts.length ≠ exponents.length ∨ ¬(2 ≤ q ∧ q ≤ 2 ^ 62) then
    invalidParams "invalid Compile inputs"
  else if ¬(2 ≤ d ∧ d ≤ 4096) ∨ ¬IsPowerOfTwo d ∨ (∃ t ∈ ts, ∃ i, t i ≥ q) ∨
      (∃ g ∈ exponents, g % 2 = 0 ∨ g ≥ 2 * d) then
    invalidParams "invalid Compile degree, coefficient or automorphism"
  else
    -- Missing exponents have zero coefficients; repeated exponents add.
    let pHat := scatter (fun (dst t : Poly d) i => (dst i + t i) % q) (fun _ _ => 0)
      ((ts.zip exponents).map fun t => ((t.2 - 1) / 2, t.1))
    .ok (compileValidatedFft pHat q)

end Fast

/-! ## The naive compiler -/

section NaiveSpec

variable {q : ℕ}

theorem ring_basis {c : ℕ} (hc : c < d) :
    Poly.ring q (fun i : Fin d => if (i : ℕ) = c then 1 else 0) = x ^ c := by
  rw [Poly.ring, ofCoeffs_apply, Finset.sum_eq_single ⟨c, hc⟩]
  · simp
  · intro i _ hi
    have hne : (i : ℕ) ≠ c := fun h => hi (Fin.ext h)
    simp [hne]
  · simp

/-- **One term** is added to every column. -/
theorem accumulateNegPerm_isCompiled (hq : 0 < q) {m : PackingMatrix} {terms : List (Term d)}
    (hm : IsCompiled d q m terms) (t : Poly d) {g : ℕ} (hg : Odd g) :
    IsCompiled d q (accumulateNegPerm m t g) (terms ++ [(t, g)]) where
  rows := rfl
  cols := rfl
  modulus := hm.modulus
  entry_lt r c := by
    have hmod := hm.modulus
    simp only [accumulateNegPerm, PackingMatrix.ofColumns]
    split
    · rw [hmod]
      exact Nat.mod_lt _ hq
    · exact hq
  ring_column c hc := by
    rw [accumulateNegPerm, hm.modulus, PackingMatrix.column_ofColumns, List.map_append,
      List.sum_append, ← hm.ring_column c hc, List.map_singleton, List.sum_singleton]
    dsimp only
    have hterm := ring_schoolbookNegacyclic hq t
      (tauCoeffs (fun i : Fin d => if (i : ℕ) = c then 1 else 0) g q)
    rw [ring_tauCoeffs hq hg, ring_basis hc, map_pow, tau_x hg, ← pow_mul, mul_comm g] at hterm
    rw [← hterm, Poly.ring, Poly.ring, Poly.ring, ← map_add]
    congr 1
    funext r
    simp [PackingMatrix.column]

/-- **A matrix of the naive compiler is compiled from its terms.** -/
theorem compileNaiveFused_isCompiled (hq : 0 < q) {ts : List (Poly d)} {exponents : List ℕ}
    (hodd : ∀ g ∈ exponents, Odd g) {M : PackingMatrix}
    (hM : compileNaiveFused ts exponents q = .ok M) : IsCompiled d q M (ts.zip exponents) := by
  unfold compileNaiveFused at hM
  split at hM; · cases hM
  split at hM; · cases hM
  cases hM
  exact foldl_isCompiled hq _ (fun m done t hm ht => accumulateNegPerm_isCompiled hq hm t.1 ht)
    fun t ht => hodd _ (List.of_mem_zip ht).2

end NaiveSpec

/-- The naive compiler accepts terms with their exponents. -/
theorem compileNaiveFused_ok {q : ℕ} {ts : List (Poly d)} {exponents : List ℕ} (hne : ts ≠ [])
    (hlen : ts.length = exponents.length) : ∃ M, compileNaiveFused ts exponents q = .ok M := by
  have hnonempty : ¬ts.isEmpty := by simp [hne]
  exact ⟨_, by rw [compileNaiveFused, if_neg (not_not.mpr hlen), if_neg hnonempty]⟩

/-! ## The butterflies -/

section Butterflies

variable {q : ℕ}

/-- Reduced coefficients. -/
def Reduced (q : ℕ) (p : Poly d) : Prop := ∀ i, p i < q

theorem isButterfly_mod (hq : 0 < q) (hd : 0 < d) :
    Fft.IsButterfly (Poly.ring q) (Reduced (d := d) q) (x ^ 2) (modButterfly q) := by
  have hrot (e : ℕ) (v : Poly d) :
      Poly.ring q (rotateByXPower v (2 * e % (2 * d)) q) = (x ^ 2) ^ e * Poly.ring q v := by
    rw [ring_rotateByXPower hq hd, x_pow_mod, pow_mul]
  refine ⟨fun _ _ _ _ _ _ => Nat.mod_lt _ hq, fun _ _ _ _ _ _ => Nat.mod_lt _ hq, ?_, ?_⟩
  · intro e u v _ _
    rw [← hrot, modButterfly, Poly.ring, Poly.ring, Poly.ring, ← map_add]
    congr 1
    funext i
    simp
  · intro e u v _ _
    rw [← hrot, modButterfly, Poly.ring, Poly.ring, Poly.ring, ← map_sub]
    congr 1
    funext i
    have hlt : rotateByXPower v (2 * e % (2 * d)) q i < q := accumulateMod_lt hq _ i
    simp only [Pi.sub_apply]
    rw [ZMod.natCast_mod, Nat.cast_sub (by omega), Nat.cast_add, ZMod.natCast_self, add_zero]

theorem isButterfly_wrapping (hq : IsPowerOfTwo q) (hle : q ≤ W64) (hd : IsPowerOfTwo d) :
    Fft.IsButterfly (Poly.ring q) (Reduced (d := d) q) (x ^ 2) (wrappingButterfly q) := by
  have : NeZero d := ⟨hd.pos.ne'⟩
  have hdvd := hq.dvd_W64 hle
  have htwo : IsPowerOfTwo (2 * d) := by
    rw [IsPowerOfTwo, Nat.log2_two_mul hd.pos.ne', pow_succ', hd]
  -- The rotated word at `i` is coefficient `i` of the rotated polynomial.
  have hrot (e : ℕ) (v : Poly d) (hv : Reduced q v) (i : Fin d) :
      let word := if i + 2 * d - (2 * e &&& (2 * d - 1)) &&& (2 * d - 1) ≥ d then
          wrappingNeg (coeffAt v ((i + 2 * d - (2 * e &&& (2 * d - 1)) &&& (2 * d - 1)) - d))
        else coeffAt v (i + 2 * d - (2 * e &&& (2 * d - 1)) &&& (2 * d - 1))
      (word : ZMod q) = coeff ((x ^ 2) ^ e * Poly.ring q v) i ∧ word ≤ W64 := by
    have hmod := Nat.mod_lt (2 * e) (show 0 < 2 * d by have := hd.pos; omega)
    have hsrc := Nat.mod_lt (i + 2 * d - 2 * e % (2 * d)) (show 0 < 2 * d by have := hd.pos; omega)
    simp only [and_sub_one_eq_mod htwo]
    rw [← pow_mul, ← x_pow_mod (2 * e), coeff_x_pow_mul_of_lt_two_mul hmod]
    by_cases hlt : (i + 2 * d - 2 * e % (2 * d)) % (2 * d) < d
    · rw [if_neg (not_le.mpr hlt), dif_pos hlt, coeffAt_of_lt _ hlt, Poly.coeff_ring]
      exact ⟨rfl, (hv _).le.trans hle⟩
    · rw [if_pos (not_lt.mp hlt), dif_neg hlt, coeffAt_of_lt _ (by omega), Poly.coeff_ring]
      exact ⟨cast_wrappingNeg hdvd ((hv _).le.trans hle), (wrappingNeg_lt _).le⟩
  refine ⟨fun _ _ _ _ _ _ => mask_lt hq _, fun _ _ _ _ _ _ => mask_lt hq _, ?_, ?_⟩
  · intro e u v _ hv
    refine ext_coeff fun i => ?_
    rw [Poly.coeff_ring, coeff_add, Poly.coeff_ring, ← (hrot e v hv i).1]
    exact (cast_mask hq _).trans (cast_wrappingAdd hdvd _ _)
  · intro e u v _ hv
    refine ext_coeff fun i => ?_
    rw [Poly.coeff_ring, coeff_sub, Poly.coeff_ring, ← (hrot e v hv i).1]
    exact (cast_mask hq _).trans (cast_wrappingSub hdvd _ (hrot e v hv i).2)

/-- **The ring transform** evaluates the generating polynomial at the powers of `X²`. -/
theorem ringFftInplace_spec (hq : 0 < q) (hle : q ≤ W64) (hd : IsPowerOfTwo d) (htwo : 2 ≤ d)
    {a : ℕ → Poly d} (ha : ∀ t < d, Reduced q (a t)) {k : ℕ} (hk : k < d) :
    Reduced q (ringFftInplace d a q k) ∧ Poly.ring q (ringFftInplace d a q k) =
      ∑ t ∈ Finset.range d, (x ^ 2) ^ (k * t) * Poly.ring q (a t) := by
  obtain ⟨m, hm⟩ : ∃ m, d = 2 ^ (m + 1) := by
    refine ⟨d.log2 - 1, ?_⟩
    have hlog : d.log2 ≠ 0 := by
      intro h0
      rw [IsPowerOfTwo, h0] at hd
      omega
    rw [Nat.sub_add_cancel (Nat.one_le_iff_ne_zero.mpr hlog), hd]
  have hω : ((x : NegRing d (ZMod q)) ^ 2) ^ 2 ^ m = -1 := by
    rw [← pow_mul, ← pow_succ', ← hm, x_pow_d]
  rw [ringFftInplace]
  split
  · rename_i hpow
    have hspec := Fft.transform_spec (isButterfly_wrapping hpow.1 hle hd) hω (a := a) (k := k)
    rw [← hm] at hspec
    exact hspec ha hk
  · have hspec := Fft.transform_spec (isButterfly_mod hq hd.pos) hω (a := a) (k := k)
    rw [← hm] at hspec
    exact hspec ha hk

end Butterflies

/-! ## The fast compiler -/

section FastSpec

variable {q : ℕ}

/-- **The tiles cover the matrix.** -/
theorem applyWrites_transposeWrites (a : ℕ → Poly d) {r j : ℕ} (hr : r < d) (hj : j < d) :
    applyWrites (fun _ => 0) (transposeWrites a q) (r, j) = transposedWord a q r j := by
  refine applyWrites_eq (fun _ => 0) (transposeWrites a q)
    (fun cell : ℕ × ℕ => transposedWord a q cell.1 cell.2) ?_ (r, j) ?_
  · intro w hw
    simp only [transposeWrites, List.mem_flatMap, List.mem_map] at hw
    obtain ⟨first, -, colStart, -, col, -, row, -, rfl⟩ := hw
    rfl
  · obtain ⟨first, hfirst, hrow⟩ := exists_block 32 (by decide) hr
    obtain ⟨colStart, hcolStart, hcol⟩ := exists_block 32 (by decide) hj
    refine ⟨((r, j), transposedWord a q r j), ?_, rfl⟩
    simp only [transposeWrites, List.mem_flatMap, List.mem_map]
    exact ⟨first, hfirst, colStart, hcolStart, j, hcol, r, hrow, rfl⟩

/-- **The columns of the transformed matrix.** -/
theorem compileValidatedFft_spec (hq : 0 < q) (hle : q ≤ W64) (hd : IsPowerOfTwo d) (htwo : 2 ≤ d)
    {a : ℕ → Poly d} (ha : ∀ t < d, Reduced q (a t)) :
    (∀ r c, (compileValidatedFft a q).entry r c < q) ∧ ∀ c < d,
      Poly.ring q ((compileValidatedFft a q).column d c) =
        x ^ c * ∑ t ∈ Finset.range d, (x ^ 2) ^ (c * t) * Poly.ring q (a t) := by
  have : NeZero d := ⟨hd.pos.ne'⟩
  have hfft {c : ℕ} (hc : c < d) := ringFftInplace_spec hq hle hd htwo ha hc
  unfold compileValidatedFft
  dsimp only
  split
  · rename_i hpow
    constructor
    · intro r c
      refine applyWrites_induction (p := fun w => w < q) (fun _ => hq) ?_ (r, c)
      intro w hw
      simp only [transposeWrites, List.mem_flatMap, List.mem_map] at hw
      obtain ⟨first, -, colStart, -, col, -, row, -, rfl⟩ := hw
      exact mask_lt hpow _
    · intro c hc
      rw [← (hfft hc).2]
      refine ext_coeff fun r => ?_
      have hword : ∀ i, ringFftInplace d a q c i ≤ W64 := fun i => ((hfft hc).1 i).le.trans hle
      rw [Poly.coeff_ring, PackingMatrix.column, coeff_x_pow_mul hc]
      dsimp only
      rw [applyWrites_transposeWrites _ r.2 hc, transposedWord, cast_mask hpow,
        and_sub_one_eq_mod hd]
      by_cases hrc : c ≤ r
      · have hsrc : ((r : ℕ) + d - c) % d = r - c := by
          rw [show (r : ℕ) + d - c = r - c + d by omega, Nat.add_mod_right,
            Nat.mod_eq_of_lt (by omega)]
        rw [if_neg (not_lt.mpr hrc), dif_pos hrc, Poly.coeff_ring, hsrc, coeffAt_of_lt _ (by omega)]
      · have hsrc : ((r : ℕ) + d - c) % d = r + d - c := Nat.mod_eq_of_lt (by omega)
        rw [if_pos (not_le.mp hrc), dif_neg hrc, Poly.coeff_ring, hsrc, coeffAt_of_lt _ (by omega),
          cast_wrappingNeg (hpow.dvd_W64 hle) (hword _)]
  · constructor
    · intro r c
      rw [PackingMatrix.ofColumns]
      dsimp only
      split
      · exact accumulateMod_lt hq _ _
      · exact hq
    · intro c hc
      rw [PackingMatrix.column_ofColumns, ring_shiftNegacyclic hq hc, (hfft hc).2]

/-- **A matrix of the fast compiler is compiled from its terms.** -/
theorem compileFast_isCompiled {ts : List (Poly d)} {exponents : List ℕ} {M : PackingMatrix}
    (hM : compileFast ts exponents q = .ok M) : IsCompiled d q M (ts.zip exponents) := by
  unfold compileFast at hM
  split at hM; · cases hM
  rename_i hinputs
  split at hM; · cases hM
  rename_i hchecks
  push Not at hinputs hchecks
  obtain ⟨-, -, htwoQ, hleQ⟩ := hinputs
  obtain ⟨⟨htwo, -⟩, hpow, hcoeffs, hexps⟩ := hchecks
  have hq : 0 < q := by omega
  have hle : q ≤ W64 := hleQ.trans (by decide)
  let pHat := scatter (fun (dst t : Poly d) i => (dst i + t i) % q) (fun (_ : ℕ) _ => 0)
    ((ts.zip exponents).map fun t => ((t.2 - 1) / 2, t.1))
  have hreduced (t : ℕ) : Reduced q (pHat t) :=
    scatter_induction (p := Reduced q) (fun _ _ => hq) (fun _ _ _ _ _ => Nat.mod_lt _ hq) t
  obtain ⟨hlt, hcolumn⟩ := compileValidatedFft_spec hq hle hpow htwo fun t _ => hreduced t
  cases hM
  refine ⟨by unfold compileValidatedFft; dsimp only; split <;> rfl,
    by unfold compileValidatedFft; dsimp only; split <;> rfl,
    by unfold compileValidatedFft; dsimp only; split <;> rfl, hlt, fun c hc => ?_⟩
  refine (hcolumn c hc).trans ?_
  -- The generating polynomial collects the terms by their exponent.
  have hadd (dst t : Poly d) : Poly.ring q (fun i => (dst i + t i) % q) =
      Poly.ring q dst + Poly.ring q t := by
    rw [Poly.ring, Poly.ring, Poly.ring, ← map_add]
    congr 1
    funext i
    simp
  have hsum := sum_scatter (Finset.range d) (fun (dst t : Poly d) i => (dst i + t i) % q)
    (Poly.ring q) (Poly.ring q) (fun _ => True)
    (fun t => (x : NegRing d (ZMod q)) ^ c * (x ^ 2) ^ (c * t))
    (fun _ _ => 0) ((ts.zip exponents).map fun t => ((t.2 - 1) / 2, t.1))
    ?_ (fun _ => trivial) (fun _ _ _ _ => trivial) (fun w _ a _ => hadd a w.2)
  · rw [Finset.mul_sum]
    refine (Finset.sum_congr rfl fun t _ => ?_).trans (hsum.trans ?_)
    · rw [smul_eq_mul]
      show x ^ c * ((x ^ 2) ^ (c * t) * Poly.ring q (pHat t)) = _
      ring
    · simp only [Poly.ring_zero, zero_smul, Finset.sum_const_zero, zero_add, List.map_map]
      refine congrArg List.sum (List.map_congr_left fun t ht => ?_)
      obtain ⟨hodd, -⟩ := hexps t.2 (List.of_mem_zip ht).2
      show Poly.ring q t.1 * (x ^ c * (x ^ 2) ^ (c * ((t.2 - 1) / 2))) =
        Poly.ring q t.1 * x ^ (c * t.2)
      rw [← pow_mul, ← pow_add]
      have hexp : c + 2 * (c * ((t.2 - 1) / 2)) = c * t.2 := by
        calc c + 2 * (c * ((t.2 - 1) / 2)) = c * (2 * ((t.2 - 1) / 2) + 1) := by ring
          _ = c * t.2 := by congr 1; omega
      rw [hexp]
  · intro w hw
    obtain ⟨t, ht, rfl⟩ := List.mem_map.mp hw
    obtain ⟨hodd, hlt⟩ := hexps t.2 (List.of_mem_zip ht).2
    exact Finset.mem_range.mpr (by dsimp only; omega)

/-- The fast compiler accepts reduced polynomials with odd exponents. -/
theorem compileFast_ok {ts : List (Poly d)} {exponents : List ℕ} (hne : ts ≠ [])
    (hlen : ts.length = exponents.length) (hq : 2 ≤ q) (hle : q ≤ 2 ^ 62) (htwo : 2 ≤ d)
    (hdeg : d ≤ 4096) (hpow : IsPowerOfTwo d) (hts : ∀ t ∈ ts, Reduced q t)
    (hexps : ∀ g ∈ exponents, Odd g ∧ g < 2 * d) : ∃ M, compileFast ts exponents q = .ok M := by
  have hinputs : ¬(ts.isEmpty ∨ ts.length ≠ exponents.length ∨ ¬(2 ≤ q ∧ q ≤ 2 ^ 62)) := by
    simp only [List.isEmpty_iff, not_or, not_not]
    exact ⟨hne, hlen, hq, hle⟩
  have hchecks : ¬(¬(2 ≤ d ∧ d ≤ 4096) ∨ ¬IsPowerOfTwo d ∨ (∃ t ∈ ts, ∃ i, t i ≥ q) ∨
      (∃ g ∈ exponents, g % 2 = 0 ∨ g ≥ 2 * d)) := by
    rintro (hrange | hnot | ⟨t, ht, i, hi⟩ | ⟨g, hg, heven | hge⟩)
    · exact hrange ⟨htwo, hdeg⟩
    · exact hnot hpow
    · exact absurd (hts t ht i) (not_lt.mpr hi)
    · have hodd := Nat.odd_iff.mp (hexps g hg).1
      omega
    · exact absurd (hexps g hg).2 (not_lt.mpr hge)
  exact ⟨_, by rw [compileFast, if_neg hinputs, if_neg hchecks]⟩

end FastSpec

/-! ## The exponents of the cascade -/

section Exponents

theorem collapseKgExponents_eq (hd : 0 < d) : collapseKgExponents d =
    ((List.range (d / 2 - 1)).map (leftExp d)).reverse ++
      ((List.range (d / 2 - 1)).map (rightExp d)).reverse := by
  have hright (i : ℕ) : tauGPow i d * h d % (2 * d) = rightExp d i := by
    have hmod := leftExp_mul_neg d i
    rwa [Nat.ModEq, Nat.mod_eq_of_lt (rightExp_lt hd i), ← tauGPow_eq hd] at hmod
  simp only [collapseKgExponents, hright]
  simp only [tauGPow_eq hd]

theorem odd_of_mem_collapseKgExponents (hd : 0 < d) {g : ℕ} (hg : g ∈ collapseKgExponents d) :
    Odd g := by
  rw [collapseKgExponents_eq hd, List.mem_append, List.mem_reverse, List.mem_reverse] at hg
  rcases hg with hg | hg
  · obtain ⟨i, -, rfl⟩ := List.mem_map.mp hg
    exact odd_leftExp d i
  · obtain ⟨i, -, rfl⟩ := List.mem_map.mp hg
    exact odd_rightExp hd i

theorem lt_of_mem_collapseKgExponents (hd : 0 < d) {g : ℕ} (hg : g ∈ collapseKgExponents d) :
    g < 2 * d := by
  rw [collapseKgExponents_eq hd, List.mem_append, List.mem_reverse, List.mem_reverse] at hg
  rcases hg with hg | hg
  · obtain ⟨i, -, rfl⟩ := List.mem_map.mp hg
    exact leftExp_lt hd i
  · obtain ⟨i, -, rfl⟩ := List.mem_map.mp hg
    exact rightExp_lt hd i

theorem length_collapseKgExponents (d : ℕ) :
    (collapseKgExponents d).length = d / 2 - 1 + (d / 2 - 1) := by
  simp [collapseKgExponents]

end Exponents

end Reinspiring
