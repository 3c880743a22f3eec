import IpirSp.MachineWord.ByteDot
import IpirSp.Reinspiring.KeyBodies
import IpirSp.Reinspiring.MixedDigits
import IpirSp.Reinspiring.WeightNorms

/-!
# The noise accounting of a build

An analyzed build reports weights: what a unit of every independent sample can add to a coefficient
of a packed phase.  `analyze` reads them off the stored matrix, the residues of all decompositions,
which it compiles into a second matrix, and the digits of the last step.  `analyzeTwoMask` has no
last step.  Both also screen published masks that are rounded to a width, by compiling what the
rounding adds.

Every step of the accounting goes through on a build (`analyzeTrace_ok`): residues are reduced, so
that they compile, and no sum of squares passes 128 bits.
-/

namespace Reinspiring

open Negacyclic SpiralRs Inspiring Loops MachineWord WeightNorms

variable {d q : ℕ} {P : NativeParams d q}

section Code

/-- `DEFAULT_TWO_MASK_SCREENS`. -/
def DEFAULT_TWO_MASK_SCREENS : ℕ × ℕ := (27, 32)

/-- `FinalGadgetAnalysis`. -/
structure FinalGadgetAnalysis where
  bits : ℕ
  weights : WeightNorms

/-- `NativeNoiseAnalysis`. -/
structure NativeNoiseAnalysis where
  weights : WeightNorms
  khL1 : ℕ
  kgLimbs : List WeightNorms
  collapseSecret : WeightNorms
  finalMask : List ℕ
  publicMaskScreens : List (ℕ × WeightNorms)
  oneLimb : List FinalGadgetAnalysis

/-- A row of a matrix from a column on, centred. -/
def centeredRow (M : PackingMatrix) (q r start len : ℕ) : List ℤ :=
  (List.range len).map fun c => centered (M.entry r (start + c)) q

/-- The coefficients of digits, centred. -/
def centeredWords (q : ℕ) (digits : List (Poly d)) : List ℤ :=
  (flatWords digits).map fun x => centered x q

/-- `row_envelope`. -/
def rowEnvelope (M : PackingMatrix) (start len : ℕ) : Result WeightNorms :=
  envelopeRows M.rows fun r => measure (centeredRow M M.q r start len)

/-- `residual`. -/
def residual (a : Poly d) (digits : List (Poly d)) (bits dropped q : ℕ) : Poly d := fun i =>
  let reconstructed := digits.zipIdx.foldl (fun s limb =>
    let shift := dropped + bits * limb.2
    wrappingAdd s (if shift < q.log2 then wrappingShl (limb.1 i) shift else 0)) 0
  wrappingSub reconstructed (a i) &&& (q - 1)

/-- `envelope` of the accounting. -/
def rowsEnvelope (kg secret : PackingMatrix) (kh : List (Poly d)) : Result WeightNorms := do
  let h ← measure (centeredWords kg.q kh)
  envelopeRows kg.rows fun r => do
    let g ← measure (centeredRow kg kg.q r 0 kg.cols)
    let s ← measure (centeredRow secret kg.q r 0 secret.cols)
    let gs ← g.independent s
    gs.independent h

/-- A mask rounded to `bits` bits. -/
def roundMask (bits q : ℕ) (a : Poly d) : Poly d := fun i =>
  let step := 2 ^ (q.log2 - bits)
  (a i + step / 2) / step * step &&& (q - 1)

/-- What the rounding adds. -/
def maskDelta (bits q : ℕ) (a : Poly d) : Poly d := fun i =>
  wrappingSub (roundMask bits q a i) (a i) &&& (q - 1)

/-- The matrix of the secret with a correction. -/
def combined (q : ℕ) (secret correction : PackingMatrix) : PackingMatrix :=
  { secret with
    entry := fun r c => wrappingAdd (secret.entry r c) (correction.entry r c) &&& (q - 1) }

/-- One width of the screens of published masks. -/
def maskScreen (kg secret : PackingMatrix) (kh masks : List (Poly d)) (exps : List ℕ) (bits : ℕ) :
    Result (ℕ × WeightNorms) := do
  let correction ← compileFast (masks.map (maskDelta bits kg.q)) exps kg.q
  let weights ← rowsEnvelope kg (combined kg.q secret correction) kh
  .ok (bits, weights)

/-- The digit of the last mask at one width. -/
def oneLimbDigit (bits q : ℕ) (lastMask : Poly d) : Poly d := fun i =>
  let r := q.log2 - bits
  let z : ℤ := 2 ^ bits
  let rounded := ((lastMask i : ℤ) + 2 ^ (r - 1)) / 2 ^ r
  (((rounded + z / 2) % z - z / 2) % (q : ℤ)).toNat

/-- One width of the counterfactual last step. -/
def oneLimbAnalysis (kg : PackingMatrix) (residues : List (Poly d)) (exps : List ℕ)
    (lastMask : Poly d) (bits : ℕ) : Result FinalGadgetAnalysis := do
  let digits := [oneLimbDigit bits kg.q lastMask]
  let secret ← compileFast
    (residues ++ [residual lastMask digits bits (kg.q.log2 - bits) kg.q]) exps kg.q
  let weights ← rowsEnvelope kg secret digits
  .ok ⟨bits, weights⟩

/-- The exponents of the secret that the residues meet. -/
def secretExponents (rows : ℕ) (kgExponents : List ℕ) : List ℕ :=
  kgExponents.map fun e => e * 5 % (2 * rows)

/-- The compiled residues of a collapse. -/
def collapseMatrix (kg : PackingMatrix) (residues : List (Poly d)) (exps : List ℕ) :
    Result PackingMatrix :=
  if residues = [] then .ok (PackingMatrix.zero kg.rows kg.rows kg.q)
  else compileFast residues exps kg.q

/-- `analyze`. -/
def analyze (kg : PackingMatrix) (residues : List (Poly d)) (kgExponents : List ℕ)
    (lastMask : Poly d) (lastDigits : List (Poly d)) (bits dropped : ℕ) (publishedMask : Poly d) :
    Result NativeNoiseAnalysis := do
  let exps := secretExponents kg.rows kgExponents
  let collapse ← collapseMatrix kg residues exps
  let collapseSecret ← rowEnvelope collapse 0 kg.rows
  let kgLimbs ← (List.range (kg.cols / kg.rows)).mapM fun j => rowEnvelope kg (j * kg.rows) kg.rows
  let exps := exps ++ [2 * kg.rows - 1]
  let secret ← compileFast
    (residues ++ [residual lastMask lastDigits bits dropped kg.q]) exps kg.q
  let weights ← rowsEnvelope kg secret lastDigits
  let kh ← measure (centeredWords kg.q lastDigits)
  let publicMaskScreens ← (List.range' 24 (min 32 kg.q.log2 + 1 - 24)).mapM
    (maskScreen kg secret lastDigits [publishedMask] [1])
  let mid := kg.q.log2 / 2
  let first := max (mid - 2) 1
  let oneLimb ← (List.range' first (min (mid + 2) (kg.q.log2 - 1) + 1 - first)).mapM
    (oneLimbAnalysis kg residues exps lastMask)
  .ok ⟨weights, kh.l1, kgLimbs, collapseSecret, List.ofFn lastMask, publicMaskScreens, oneLimb⟩

/-- `analyze_two_mask`. -/
def analyzeTwoMask (kg : PackingMatrix) (residues : List (Poly d)) (kgExponents : List ℕ)
    (mask other : Poly d) (screens : ℕ × ℕ) : Result NativeNoiseAnalysis := do
  let secret ← collapseMatrix kg residues (secretExponents kg.rows kgExponents)
  let publicMaskScreens ←
    (List.range' screens.1 (min screens.2 kg.q.log2 + 1 - screens.1)).mapM
      (maskScreen kg secret [] [mask, other] [1, 2 * kg.rows - 1])
  let weights ← rowsEnvelope kg secret ([] : List (Poly d))
  let kgLimbs ← (List.range (kg.cols / kg.rows)).mapM fun j => rowEnvelope kg (j * kg.rows) kg.rows
  let collapseSecret ← rowEnvelope secret 0 kg.rows
  .ok ⟨weights, 0, kgLimbs, collapseSecret, [], publicMaskScreens, []⟩

/-- The residues of the steps of a trace. -/
def NativeTrace.residues (P : NativeParams d q) (trace : NativeTrace d q) : List (Poly d) :=
  trace.steps.map fun step => residual step.1 step.2 P.bits P.dropped q

/-- The analysis of `build_internal_screened`. -/
def analyzeTrace (P : NativeParams d q) (h : NativeMatrix) (trace : NativeTrace d q)
    (screens : ℕ × ℕ) : Result NativeNoiseAnalysis :=
  match trace.last with
  | some last =>
      analyze h.toCompiled (trace.residues P) (collapseKgExponents d) trace.right last P.bits
        P.dropped trace.a
  | none =>
      analyzeTwoMask h.toCompiled (trace.residues P) (collapseKgExponents d) trace.left trace.right
        screens

/-- `build_internal_screened` with the analysis. -/
def NativePreprocessed.buildScreened (lib : NumberTheory) (supportsPacked : Bool)
    (S : NativeSetup P) (masks : List (Poly d)) (twoMask : Bool) (screens : ℕ × ℕ) :
    Result (NativePreprocessed P × NativeNoiseAnalysis) := do
  let trace ← traceMasks lib S masks twoMask
  let h ← compileMatrix P supportsPacked trace
  let analysis ← analyzeTrace P h trace screens
  let block ← trace.toBlock S h
  .ok (block, analysis)

/-- `build_analyzed`. -/
def NativePreprocessed.buildAnalyzed (lib : NumberTheory) (supportsPacked : Bool)
    (S : NativeSetup P) (masks : List (Poly d)) :
    Result (NativePreprocessed P × NativeNoiseAnalysis) :=
  NativePreprocessed.buildScreened lib supportsPacked S masks false DEFAULT_TWO_MASK_SCREENS

/-- `build_two_mask_analyzed_with_screens`. -/
def NativePreprocessed.buildTwoMaskAnalyzed (lib : NumberTheory) (supportsPacked : Bool)
    (S : NativeSetup P) (masks : List (Poly d)) (screens : ℕ × ℕ) :
    Result (NativePreprocessed P × NativeNoiseAnalysis) :=
  if screens.1 = 0 ∨ screens.1 > screens.2 ∨ screens.2 > q.log2 then
    invalidParams "invalid public-mask screen range"
  else NativePreprocessed.buildScreened lib supportsPacked S masks true screens

end Code

/-! ## Residues -/

section Residues

theorem residual_lt (P : NativeParams d q) (a : Poly d) (digits : List (Poly d)) (bits dropped : ℕ)
    (i : Fin d) : residual a digits bits dropped q i < q := mask_lt P.isPowerOfTwo _

theorem maskDelta_lt (P : NativeParams d q) (bits : ℕ) (a : Poly d) (i : Fin d) :
    maskDelta bits q a i < q := mask_lt P.isPowerOfTwo _

theorem roundMask_lt (P : NativeParams d q) (bits : ℕ) (a : Poly d) (i : Fin d) :
    roundMask bits q a i < q := mask_lt P.isPowerOfTwo _

/-- A reconstruction is the sum of its shifted digits, modulo `q`. -/
theorem cast_reconstruction (P : NativeParams d q) (digits : List (Poly d)) (i : Fin d)
    (start acc : ℕ) :
    (((digits.zipIdx start).foldl (fun s limb =>
      wrappingAdd s (if P.dropped + P.bits * limb.2 < q.log2
        then wrappingShl (limb.1 i) (P.dropped + P.bits * limb.2) else 0)) acc : ℕ) : ZMod q) =
      acc + ∑ j ∈ Finset.range digits.length,
        ((digits.getD j fun _ => 0) i : ZMod q) * (P.factor (start + j) : ℕ) := by
  have hword (x j : ℕ) : ((if P.dropped + P.bits * j < q.log2
      then wrappingShl x (P.dropped + P.bits * j) else 0 : ℕ) : ZMod q) = x * (P.factor j : ℕ) := by
    have hqBits := P.qBits_le
    unfold NativeParams.factor
    dsimp only
    rw [P.log2_q]
    split
    · next hlt =>
      have hshift : (P.dropped + P.bits * j) % 64 = P.dropped + P.bits * j :=
        Nat.mod_eq_of_lt (by omega)
      rw [if_neg (not_le.mpr hlt), wrappingShl, hshift, cast_mod_W64 P.dvd_W64, Nat.shiftLeft_eq,
        Nat.cast_mul]
    · next hge =>
      rw [if_pos (not_lt.mp hge), Nat.cast_zero, mul_zero]
  induction digits generalizing start acc with
  | nil => simp
  | cons digit digits ih =>
      rw [List.zipIdx_cons, List.foldl_cons, ih, cast_wrappingAdd P.dvd_W64, hword,
        List.length_cons,
        Finset.sum_range_succ', List.getD_cons_zero, add_zero, add_assoc, add_comm (∑ _ ∈ _, _)]
      congr 2
      refine Finset.sum_congr rfl fun j _ => ?_
      rw [List.getD_cons_succ, Nat.add_right_comm, Nat.add_assoc]

/-- **A residual is what the limbs leave.** -/
theorem ring_residual (P : NativeParams d q) {a : Poly d} (ha : ∀ i, a i < q) :
    Poly.ring q (residual a (P.limbs a) P.bits P.dropped q) = P.roundOff a := by
  refine congrArg ofCoeffs (funext fun i => ?_)
  have hword : a i ≤ W64 := (ha i).le.trans (P.q_le.trans (by decide))
  have hlimb (j : ℕ) (hj : j < P.ell) : (P.limbs a).getD j (fun _ => 0) = P.limb a j := by
    rw [List.getD_eq_getElem _ _ (by rwa [P.length_limbs])]
    simp [NativeParams.limbs]
  rw [residual, cast_mask P.isPowerOfTwo]
  dsimp only
  rw [cast_wrappingSub P.dvd_W64 _ hword, cast_reconstruction P, P.length_limbs, Nat.cast_zero,
    zero_add]
  have hsum := P.sum_decompose a i
  rw [sub_eq_iff_eq_add, add_comm, ← hsum]
  refine Finset.sum_congr rfl fun j hj => ?_
  rw [hlimb j (Finset.mem_range.mp hj), zero_add]

theorem ring_maskDelta (P : NativeParams d q) (bits : ℕ) {a : Poly d} (ha : ∀ i, a i < q) :
    Poly.ring q (maskDelta bits q a) = Poly.ring q (roundMask bits q a) - Poly.ring q a := by
  rw [Poly.ring, Poly.ring, Poly.ring, ← map_sub]
  congr 1
  funext i
  have hword : a i ≤ W64 := (ha i).le.trans (P.q_le.trans (by decide))
  rw [maskDelta, cast_mask P.isPowerOfTwo, cast_wrappingSub P.dvd_W64 _ hword]
  rfl

end Residues

/-! ## Envelopes of rows -/

section Rows

/-- A matrix of reduced entries with `d` rows. -/
structure IsReduced (d q : ℕ) (M : PackingMatrix) : Prop where
  rows : M.rows = d
  modulus : M.q = q
  entry_lt : ∀ r c, M.entry r c < q

theorem IsCompiled.isReduced {M : PackingMatrix} {terms : List (Term d)}
    (h : IsCompiled d q M terms) : IsReduced d q M := ⟨h.rows, h.modulus, h.entry_lt⟩

/-- What `rowsEnvelope` reports. -/
def rowWeights (q : ℕ) (kg secret : PackingMatrix) (kh : List (Poly d)) : WeightNorms :=
  envelopeAll ((List.range d).map fun r => norms (centeredRow kg q r 0 kg.cols ++
    centeredRow secret q r 0 secret.cols ++ centeredWords q kh))

theorem natAbs_centered_le_half (P : NativeParams d q) {x : ℕ} (hx : x < q) :
    (centered x q).natAbs ≤ 2 ^ 55 := by
  have hle := abs_centered_le hx
  have hq := P.q_le
  rw [Int.abs_eq_natAbs] at hle
  have hle' : (centered x q).natAbs ≤ q / 2 := by exact_mod_cast hle
  omega

theorem natAbs_centeredRow_le (P : NativeParams d q) {M : PackingMatrix} (hM : IsReduced d q M)
    (r start len : ℕ) : ∀ x ∈ centeredRow M q r start len, x.natAbs ≤ 2 ^ 55 := by
  intro x hx
  obtain ⟨c, -, rfl⟩ := List.mem_map.mp hx
  exact natAbs_centered_le_half P (hM.entry_lt _ _)

theorem natAbs_centeredWords_le (P : NativeParams d q) {digits : List (Poly d)}
    (h : ∀ a ∈ digits, ∀ i, a i < q) : ∀ x ∈ centeredWords q digits, x.natAbs ≤ 2 ^ 55 := by
  intro x hx
  obtain ⟨w, hw, rfl⟩ := List.mem_map.mp hx
  exact natAbs_centered_le_half P (lt_of_mem_flatWords h hw)

/-- The squares of `2^16` weights of 55 bits fit. -/
theorem l2Squared_lt {xs : List ℤ} (hlen : xs.length ≤ 2 ^ 16) (h : ∀ x ∈ xs, x.natAbs ≤ 2 ^ 55) :
    (norms xs).l2Squared < W128 :=
  ((l2Squared_le h).trans (Nat.mul_le_mul_right _ hlen)).trans_lt (by decide)

theorem rowEnvelope_ok (P : NativeParams d q) {M : PackingMatrix} (hM : IsReduced d q M)
    (start len : ℕ) (hlen : len ≤ 2 ^ 16) : ∃ w, rowEnvelope M start len = .ok w := by
  rw [rowEnvelope, hM.modulus]
  refine ⟨_, envelopeRows_ok fun r _ =>
    measure_ok (l2Squared_lt ?_ (natAbs_centeredRow_le P hM _ _ _))⟩
  rw [centeredRow, List.length_map, List.length_range]
  exact hlen

/-- **The envelope of all rows** covers the weights of every row side by side. -/
theorem rowsEnvelope_ok (P : NativeParams d q) {kg secret : PackingMatrix} (hkg : IsReduced d q kg)
    (hkgCols : kg.cols ≤ 2 ^ 14) (hsecret : IsReduced d q secret) (hcols : secret.cols ≤ 2 ^ 11)
    {kh : List (Poly d)} (hlen : kh.length ≤ 8) (hkh : ∀ a ∈ kh, ∀ i, a i < q) :
    rowsEnvelope kg secret kh = .ok (rowWeights q kg secret kh) := by
  have hwords : (centeredWords q kh).length ≤ 2 ^ 14 := by
    rw [centeredWords, List.length_map, length_flatWords]
    exact (Nat.mul_le_mul hlen P.d_le).trans (by decide)
  have hrow (M : PackingMatrix) (r : ℕ) : (centeredRow M q r 0 M.cols).length = M.cols := by
    rw [centeredRow, List.length_map, List.length_range]
  have hall (r : ℕ) : (norms
      (centeredRow kg q r 0 kg.cols ++ centeredRow secret q r 0 secret.cols ++
      centeredWords q kh)).l2Squared < W128 := by
    refine l2Squared_lt ?_ fun x hx => ?_
    · rw [List.length_append, List.length_append, hrow, hrow]
      omega
    · rcases List.mem_append.mp hx with hx | hx
      · rcases List.mem_append.mp hx with hx | hx
        · exact natAbs_centeredRow_le P hkg _ _ _ x hx
        · exact natAbs_centeredRow_le P hsecret _ _ _ x hx
      · exact natAbs_centeredWords_le P hkh x hx
  -- parts of a list of weights fit if the list does
  have hpart (xs ys : List ℤ) (h : (norms (xs ++ ys)).l2Squared < W128) :
      (norms xs).l2Squared < W128 ∧ (norms ys).l2Squared < W128 := by
    rw [norms_append] at h
    exact ⟨(Nat.le_add_right _ _).trans_lt h, (Nat.le_add_left _ _).trans_lt h⟩
  rw [rowsEnvelope, hkg.modulus, hkg.rows, measure_ok (hpart _ _ (hall 0)).2, ok_bind]
  refine envelopeRows_ok fun r _ => ?_
  obtain ⟨hgs, -⟩ := hpart _ _ (hall r)
  obtain ⟨hg, hs⟩ := hpart _ _ hgs
  rw [measure_ok hg, ok_bind, measure_ok hs, ok_bind, independent_norms hgs, ok_bind,
    independent_norms (hall r)]

/-- **An envelope covers its rows.** -/
theorem l1_row_le (kg secret : PackingMatrix) (kh : List (Poly d)) (r : Fin d) :
    (norms (centeredRow kg q r 0 kg.cols)).l1 + (norms (centeredRow secret q r 0 secret.cols)).l1 +
      (norms (centeredWords q kh)).l1 ≤ (rowWeights q kg secret kh).l1 := by
  have hle := l1_le_envelopeAll (List.mem_map.mpr ⟨(r : ℕ), List.mem_range.mpr r.2, rfl⟩ :
    norms (centeredRow kg q r 0 kg.cols ++ centeredRow secret q r 0 secret.cols ++
      centeredWords q kh) ∈ (List.range d).map fun r => norms (centeredRow kg q r 0 kg.cols ++
        centeredRow secret q r 0 secret.cols ++ centeredWords q kh))
  rw [norms_append, norms_append] at hle
  exact hle

end Rows

/-! ## The whole analysis -/

section Analysis

/-- The terms that the matrix of the secret is compiled from. -/
def NativeTrace.secretTerms (P : NativeParams d q) (trace : NativeTrace d q) : List (Term d) :=
  (trace.residues P).zip (secretExponents d (collapseKgExponents d)) ++
    match trace.last with
    | some last => [(residual trace.right last P.bits P.dropped q, 2 * d - 1)]
    | none => []

/-- The published masks of a trace with their exponents. -/
def NativeTrace.publishedMasks (trace : NativeTrace d q) : List (Term d) :=
  match trace.last with
  | some _ => [(trace.a, 1)]
  | none => [(trace.left, 1), (trace.right, 2 * d - 1)]

/-- The widths that are screened. -/
def NativeTrace.screenWidths (trace : NativeTrace d q) (q : ℕ) (screens : ℕ × ℕ) : List ℕ :=
  match trace.last with
  | some _ => List.range' 24 (min 32 q.log2 + 1 - 24)
  | none => List.range' screens.1 (min screens.2 q.log2 + 1 - screens.1)

/-- What an analysis reports of a trace, for the matrix of a block. -/
structure IsAnalysis (P : NativeParams d q) (kg : PackingMatrix) (trace : NativeTrace d q)
    (screens : ℕ × ℕ) (A : NativeNoiseAnalysis) (secret : PackingMatrix) : Prop where
  compiled : IsCompiled d q secret (trace.secretTerms P)
  weights : A.weights = rowWeights q kg secret (trace.last.getD [])
  khL1 : A.khL1 = (norms (centeredWords q (trace.last.getD []))).l1
  widths : A.publicMaskScreens.map Prod.fst = trace.screenWidths q screens
  screens : ∀ screen ∈ A.publicMaskScreens, ∃ correction, IsCompiled d q correction
    (trace.publishedMasks.map fun mask => (maskDelta screen.1 q mask.1, mask.2)) ∧
      screen.2 = rowWeights q kg (combined q secret correction) (trace.last.getD [])

theorem combined_isReduced (P : NativeParams d q) {secret correction : PackingMatrix}
    (h : IsReduced d q secret) : IsReduced d q (combined q secret correction) :=
  ⟨h.rows, h.modulus, fun _ _ => mask_lt P.isPowerOfTwo _⟩

theorem compileFast_exists (P : NativeParams d q) (ts : List (Poly d)) (exps : List ℕ)
    (hne : ts ≠ []) (hlen : ts.length = exps.length) (hts : ∀ t ∈ ts, ∀ i, t i < q)
    (hexps : ∀ g ∈ exps, Odd g ∧ g < 2 * d) : ∃ M, compileFast ts exps q = .ok M := by
  have hq := P.le_q
  exact compileFast_ok hne hlen (by omega) (P.q_le.trans (by decide)) P.two_le_d
    (P.d_le.trans (by decide)) P.d_eq hts hexps

variable {kg secret : PackingMatrix} {kh : List (Poly d)}

/-- One screen of a published mask. -/
theorem maskScreen_ok (P : NativeParams d q) (hkg : IsReduced d q kg) (hkgCols : kg.cols ≤ 2 ^ 14)
    {terms : List (Term d)} (hsecret : IsCompiled d q secret terms) (hlen : kh.length ≤ 8)
    (hkh : ∀ a ∈ kh, ∀ i, a i < q) {masks : List (Term d)} (hne : masks ≠ [])
    (hexps : ∀ mask ∈ masks, Odd mask.2 ∧ mask.2 < 2 * d) (bits : ℕ) :
    ∃ correction, IsCompiled d q correction
        (masks.map fun mask => (maskDelta bits q mask.1, mask.2)) ∧
      maskScreen kg secret kh (masks.map Prod.fst) (masks.map Prod.snd) bits =
        .ok (bits, rowWeights q kg (combined q secret correction) kh) := by
  obtain ⟨correction, hcorrection⟩ := compileFast_exists P
    ((masks.map Prod.fst).map (maskDelta bits q)) (masks.map Prod.snd)
    (by simpa using hne) (by simp)
    (fun t ht i => by
      obtain ⟨a, -, rfl⟩ := List.mem_map.mp ht
      exact maskDelta_lt P bits a i)
    (fun g hg => by
      obtain ⟨mask, hmask, rfl⟩ := List.mem_map.mp hg
      exact hexps mask hmask)
  refine ⟨correction, ?_, ?_⟩
  · have hcompiled := compileFast_isCompiled hcorrection
    rwa [List.map_map, List.zip_map'] at hcompiled
  · have hcols : (combined q secret correction).cols ≤ 2 ^ 11 := hsecret.cols.trans_le P.d_le
    rw [maskScreen, hkg.modulus, hcorrection, ok_bind, rowsEnvelope_ok P hkg hkgCols
      (combined_isReduced P hsecret.isReduced) hcols hlen hkh]
    rfl

/-- All screens of published masks. -/
theorem maskScreens_ok (P : NativeParams d q) (hkg : IsReduced d q kg) (hkgCols : kg.cols ≤ 2 ^ 14)
    {terms : List (Term d)} (hsecret : IsCompiled d q secret terms) (hlen : kh.length ≤ 8)
    (hkh : ∀ a ∈ kh, ∀ i, a i < q) {masks : List (Term d)} (hne : masks ≠ [])
    (hexps : ∀ mask ∈ masks, Odd mask.2 ∧ mask.2 < 2 * d) (widths : List ℕ) :
    ∃ screens, widths.mapM (maskScreen kg secret kh (masks.map Prod.fst) (masks.map Prod.snd)) =
        .ok screens ∧ screens.map Prod.fst = widths ∧
      ∀ screen ∈ screens, ∃ correction, IsCompiled d q correction
        (masks.map fun mask => (maskDelta screen.1 q mask.1, mask.2)) ∧
          screen.2 = rowWeights q kg (combined q secret correction) kh := by
  have hscreen := maskScreen_ok P hkg hkgCols hsecret hlen hkh hne hexps
  choose correction hcorrection hok using hscreen
  refine ⟨widths.map fun b => (b, rowWeights q kg (combined q secret (correction b)) kh),
    mapM_eq_ok fun b _ => hok b, ?_, fun screen hscreen => ?_⟩
  · rw [List.map_map]
    exact List.map_id _
  · obtain ⟨b, -, rfl⟩ := List.mem_map.mp hscreen
    exact ⟨correction b, hcorrection b, rfl⟩

/-- The limbs of the matrix of a block are measured. -/
theorem kgLimbs_ok (P : NativeParams d q) (hkg : IsReduced d q kg) (n : ℕ) :
    ∃ limbs, (List.range n).mapM (fun j => rowEnvelope kg (j * d) d) = .ok limbs := by
  refine exists_mapM_eq_ok fun j _ => rowEnvelope_ok P hkg _ _ (P.d_le.trans (by decide))

theorem secretExponents_odd (hd : 0 < d) :
    ∀ g ∈ secretExponents d (collapseKgExponents d), Odd g ∧ g < 2 * d := by
  intro g hg
  obtain ⟨e, he, rfl⟩ := List.mem_map.mp hg
  exact ⟨odd_mod_two_mul ((odd_of_mem_collapseKgExponents hd he).mul ⟨2, rfl⟩) d,
    Nat.mod_lt _ (by omega)⟩

/-- The exponents with the one of the last step. -/
theorem lastExponents_odd (hd : 0 < d) :
    ∀ g ∈ secretExponents d (collapseKgExponents d) ++ [2 * d - 1], Odd g ∧ g < 2 * d := by
  intro g hg
  rcases List.mem_append.mp hg with hg | hg
  · exact secretExponents_odd hd g hg
  · rw [List.mem_singleton.mp hg]
    exact ⟨odd_two_mul_sub_one hd, by omega⟩

/-- The digits of the last step are measured. -/
theorem measure_digits_ok (P : NativeParams d q) {last : List (Poly d)} (hell : last.length ≤ 8)
    (hdigits : ∀ a ∈ last, ∀ i, a i < q) :
    measure (centeredWords q last) = .ok (norms (centeredWords q last)) := by
  refine measure_ok (l2Squared_lt ?_ (natAbs_centeredWords_le P hdigits))
  rw [centeredWords, List.length_map, length_flatWords]
  exact (Nat.mul_le_mul hell P.d_le).trans (by decide)

/-- The residues of a collapse compile. -/
theorem collapseMatrix_ok (P : NativeParams d q) (hkg : IsReduced d q kg) {residues : List (Poly d)}
    (hlen : residues.length = (collapseKgExponents d).length) (hlt : ∀ t ∈ residues, ∀ i, t i < q) :
    ∃ M, collapseMatrix kg residues (secretExponents kg.rows (collapseKgExponents d)) = .ok M ∧
      IsCompiled d q M (residues.zip (secretExponents d (collapseKgExponents d))) := by
  rw [hkg.rows, collapseMatrix, hkg.rows, hkg.modulus]
  by_cases hnil : residues = []
  · rw [if_pos hnil, hnil]
    exact ⟨_, rfl, isCompiled_zero P.q_pos⟩
  · obtain ⟨M, hM⟩ := compileFast_exists P _ _ hnil
      (by rw [hlen, secretExponents, List.length_map]) hlt (secretExponents_odd P.d_pos)
    rw [if_neg hnil]
    exact ⟨M, hM, compileFast_isCompiled hM⟩

theorem NativeTrace.residues_lt (P : NativeParams d q) (trace : NativeTrace d q) :
    ∀ t ∈ trace.residues P, ∀ i, t i < q := by
  intro t ht i
  obtain ⟨step, -, rfl⟩ := List.mem_map.mp ht
  exact residual_lt P _ _ _ _ i

/-- What the accounting relies on: the matrix of the block is reduced, and the steps fill the
collapse. -/
structure Accountable (P : NativeParams d q) (h : NativeMatrix) (trace : NativeTrace d q) :
    Prop where
  reduced : IsReduced d q h.toCompiled
  cols : h.cols = P.ell * d
  steps : trace.steps.length = (collapseKgExponents d).length
  last : ∀ last, trace.last = some last → last.length = P.ell ∧ ∀ a ∈ last, ∀ i, a i < q

namespace Accountable

variable {h : NativeMatrix} {trace : NativeTrace d q} (hacc : Accountable P h trace)

include hacc

theorem cols_le : h.toCompiled.cols ≤ 2 ^ 14 :=
  hacc.cols.trans_le ((Nat.mul_le_mul P.ell_le P.d_le).trans (by decide))

theorem residues_length : (trace.residues P).length = (collapseKgExponents d).length := by
  rw [NativeTrace.residues, List.length_map, hacc.steps]

/-- Two published masks and no last step. -/
theorem analyzeTrace_none (hlast : trace.last = none) (screens : ℕ × ℕ) :
    ∃ A secret, analyzeTrace P h trace screens = .ok A ∧
      IsAnalysis P h.toCompiled trace screens A secret := by
  have hd : d ≤ 2 ^ 11 := P.d_le
  have hpos := P.d_pos
  have hnone : ([] : List (Poly d)).length ≤ 8 := Nat.zero_le 8
  have hnil : ∀ a ∈ ([] : List (Poly d)), ∀ i, a i < q := fun _ hmem => absurd hmem List.not_mem_nil
  have hexps : ∀ mask ∈ [(trace.left, 1), (trace.right, 2 * d - 1)],
      Odd mask.2 ∧ mask.2 < 2 * d := by
    simp only [List.forall_mem_cons]
    exact ⟨⟨odd_one, by omega⟩, ⟨odd_two_mul_sub_one hpos, by omega⟩, by simp⟩
  obtain ⟨collapse, hcollapse, hcompiled⟩ :=
    collapseMatrix_ok P hacc.reduced hacc.residues_length (trace.residues_lt P)
  obtain ⟨collapseSecret, hcollapseSecret⟩ :=
    rowEnvelope_ok P hcompiled.isReduced 0 d (hd.trans (by decide))
  obtain ⟨limbs, hlimbs⟩ := kgLimbs_ok P hacc.reduced (h.toCompiled.cols / d)
  obtain ⟨masks, hmasks, hwidths, hscreens⟩ := maskScreens_ok P hacc.reduced hacc.cols_le hcompiled
    hnone hnil (List.cons_ne_nil _ _) hexps
    (List.range' screens.1 (min screens.2 q.log2 + 1 - screens.1))
  have hweights := rowsEnvelope_ok P hacc.reduced hacc.cols_le hcompiled.isReduced
    (hcompiled.cols.trans_le hd) hnone hnil
  have hterms : trace.secretTerms P =
      (trace.residues P).zip (secretExponents d (collapseKgExponents d)) := by
    rw [NativeTrace.secretTerms, hlast, List.append_nil]
  refine ⟨⟨rowWeights q h.toCompiled collapse ([] : List (Poly d)), 0, limbs, collapseSecret, [],
    masks, []⟩, collapse, ?_, hterms ▸ hcompiled, ?_, ?_, ?_, ?_⟩
  · rw [analyzeTrace, hlast]
    dsimp only
    rw [analyzeTwoMask, hcollapse, ok_bind, hacc.reduced.rows, hacc.reduced.modulus]
    rw [List.map_cons, List.map_cons, List.map_nil, List.map_cons, List.map_cons,
      List.map_nil] at hmasks
    rw [hmasks, ok_bind, hweights, ok_bind, hlimbs, ok_bind, hcollapseSecret, ok_bind]
  · rw [hlast]
    rfl
  · rw [hlast]
    rfl
  · rw [NativeTrace.screenWidths, hlast]
    exact hwidths
  · rw [NativeTrace.publishedMasks, hlast]
    exact hscreens

/-- The residues of any digits of the last step compile together with those of the collapse. -/
theorem secret_ok (digits : List (Poly d)) (bits dropped : ℕ) :
    ∃ M, compileFast (trace.residues P ++ [residual trace.right digits bits dropped q])
        (secretExponents d (collapseKgExponents d) ++ [2 * d - 1]) q = .ok M ∧
      IsCompiled d q M ((trace.residues P).zip (secretExponents d (collapseKgExponents d)) ++
        [(residual trace.right digits bits dropped q, 2 * d - 1)]) := by
  have hzip : (trace.residues P).length = (secretExponents d (collapseKgExponents d)).length := by
    rw [hacc.residues_length, secretExponents, List.length_map]
  obtain ⟨M, hM⟩ := compileFast_exists P (trace.residues P ++
      [residual trace.right digits bits dropped q])
      (secretExponents d (collapseKgExponents d) ++ [2 * d - 1]) (by simp)
    (by rw [List.length_append, List.length_append, hzip]; rfl)
    (fun t ht i => by
      rcases List.mem_append.mp ht with ht | ht
      · exact trace.residues_lt P t ht i
      · rw [List.mem_singleton.mp ht]
        exact residual_lt P _ _ _ _ i)
    (lastExponents_odd P.d_pos)
  have hcompiled := compileFast_isCompiled hM
  rw [List.zip_append hzip] at hcompiled
  exact ⟨M, hM, hcompiled⟩

/-- One limb of every width is analysed. -/
theorem oneLimb_ok (bits : ℕ) : ∃ out, oneLimbAnalysis h.toCompiled (trace.residues P)
    (secretExponents d (collapseKgExponents d) ++ [2 * d - 1]) trace.right bits = .ok out := by
  obtain ⟨M, hM, hcompiled⟩ := hacc.secret_ok [oneLimbDigit bits q trace.right] bits
    (q.log2 - bits)
  have hdigit : ∀ a ∈ [oneLimbDigit bits q trace.right], ∀ i, a i < q := by
    intro a ha i
    rw [List.mem_singleton.mp ha]
    exact toNat_emod_lt P.q_pos _
  have hweights := rowsEnvelope_ok P hacc.reduced hacc.cols_le hcompiled.isReduced
    (hcompiled.cols.trans_le P.d_le) (by simp) hdigit
  rw [oneLimbAnalysis, hacc.reduced.modulus, hM, ok_bind, hweights]
  exact ⟨_, rfl⟩

/-- One published mask and a last step. -/
theorem analyzeTrace_some {last : List (Poly d)} (hlast : trace.last = some last)
    (screens : ℕ × ℕ) : ∃ A secret, analyzeTrace P h trace screens = .ok A ∧
      IsAnalysis P h.toCompiled trace screens A secret := by
  have hd : d ≤ 2 ^ 11 := P.d_le
  have hpos := P.d_pos
  obtain ⟨hlen, hdigits⟩ := hacc.last last hlast
  have hell : last.length ≤ 8 := hlen.trans_le P.ell_le
  have hexps : ∀ mask ∈ [(trace.a, 1)], Odd mask.2 ∧ mask.2 < 2 * d := by
    simp only [List.forall_mem_cons]
    exact ⟨⟨odd_one, by omega⟩, by simp⟩
  obtain ⟨collapse, hcollapse, hcompiled⟩ :=
    collapseMatrix_ok P hacc.reduced hacc.residues_length (trace.residues_lt P)
  obtain ⟨collapseSecret, hcollapseSecret⟩ :=
    rowEnvelope_ok P hcompiled.isReduced 0 d (hd.trans (by decide))
  obtain ⟨limbs, hlimbs⟩ := kgLimbs_ok P hacc.reduced (h.toCompiled.cols / d)
  obtain ⟨secret, hsecret, hterms⟩ := hacc.secret_ok last P.bits P.dropped
  have hsecretCompiled : IsCompiled d q secret (trace.secretTerms P) := by
    rw [NativeTrace.secretTerms, hlast]
    exact hterms
  have hweights := rowsEnvelope_ok P hacc.reduced hacc.cols_le hsecretCompiled.isReduced
    (hsecretCompiled.cols.trans_le hd) hell hdigits
  obtain ⟨masks, hmasks, hwidths, hscreens⟩ := maskScreens_ok P hacc.reduced hacc.cols_le
    hsecretCompiled hell hdigits (List.cons_ne_nil _ _) hexps
    (List.range' 24 (min 32 q.log2 + 1 - 24))
  obtain ⟨oneLimb, honeLimb⟩ := exists_mapM_eq_ok (l := List.range' (max (q.log2 / 2 - 2) 1)
    (min (q.log2 / 2 + 2) (q.log2 - 1) + 1 - max (q.log2 / 2 - 2) 1))
    fun bits _ => hacc.oneLimb_ok bits
  refine ⟨⟨rowWeights q h.toCompiled secret last, (norms (centeredWords q last)).l1, limbs,
    collapseSecret, List.ofFn trace.right, masks, oneLimb⟩, secret, ?_,
      hsecretCompiled, ?_, ?_, ?_, ?_⟩
  · rw [analyzeTrace, hlast]
    dsimp only
    rw [analyze]
    dsimp only
    rw [hcollapse, ok_bind, hacc.reduced.rows, hacc.reduced.modulus, hcollapseSecret, ok_bind,
      hlimbs, ok_bind, hsecret, ok_bind, hweights, ok_bind, measure_digits_ok P hell hdigits,
      ok_bind]
    rw [List.map_cons, List.map_nil, List.map_cons, List.map_nil] at hmasks
    rw [hmasks, ok_bind, honeLimb, ok_bind]
  · rw [hlast]
    rfl
  · rw [hlast]
    rfl
  · rw [NativeTrace.screenWidths, hlast]
    exact hwidths
  · rw [NativeTrace.publishedMasks, hlast]
    exact hscreens

/-- **The accounting goes through**, without a panic. -/
theorem analyzeTrace_ok (screens : ℕ × ℕ) : ∃ A secret, analyzeTrace P h trace screens = .ok A ∧
    IsAnalysis P h.toCompiled trace screens A secret := by
  cases hlast : trace.last with
  | none => exact hacc.analyzeTrace_none hlast screens
  | some last => exact hacc.analyzeTrace_some hlast screens

end Accountable

end Analysis

end Reinspiring
