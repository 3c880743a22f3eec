import IpirSp.Inspiring.BodyCollapse
import IpirSp.Inspiring.Aggregate

/-!
# Preprocessing and packing

The three packing paths.  `QueryPackPreprocessed.build` runs the cascade of a CRS block once, with
the fixed public masks as key rows, and keeps its first component and its digits; `packB` then
needs only the uploaded key bodies.  `PackPreprocessed.build` runs the cascade with full keys and
keeps the resulting affine map; `pack` adds the NTT of the body vector to it.  The all-online path
is in `IpirSp.Inspiring.Intermediate`.

This module holds the functions; `IpirSp.Inspiring.Phase` and `IpirSp.Inspiring.Agreement` hold
what they compute.
-/

namespace Inspiring

open SpiralRs Loops

/-- `REFERENCE_W_SEED`. -/
def REFERENCE_W_SEED : Seed := .bytes (List.replicate 32 7)

/-- `REFERENCE_V_SEED`. -/
def REFERENCE_V_SEED : Seed := .bytes (8 :: 8 :: List.replicate 30 7)

/-- The error of a failed preprocessing check. -/
def mismatch {α : Type} (msg : String) : Outcome α := .error (.err (.preprocessMismatch msg))

section Masks

variable (P : RlweParams)

/-- `reference_mask_raw`: the `k`-th of the `ell` fixed masks. -/
def referenceMaskRaw (maskSeed : Seed) (k : ℕ) : Poly P.d := P.spiral.randomRng maskSeed k

/-- `reference_mask_top`. -/
def referenceMaskTop (maskSeed : Seed) : PolyMatrixNTT P.d P.q :=
  .ofRow P.gadget.ell fun k =>
    P.spiral.toNttAlloc (P.spiral.negRaw (referenceMaskRaw P maskSeed k))

/-- `fixed_reference_key`: the fixed mask row over a zero body. -/
def fixedReferenceKey (maskSeed : Seed) : KeySwitchingMatrix P :=
  ⟨(referenceMaskTop P maskSeed).stack (.ofRow P.gadget.ell fun _ => P.spiral.zeroNtt)⟩

/-- `generate_reference_body`, on the error polynomials that the sampler drew. -/
def generateReferenceBody (secretNtt : Ntt P.d P.q) (secretFromExponent : ℕ) (maskSeed : Seed)
    (error : ℕ → Poly P.d) : PolyMatrixNTT P.d P.q :=
  let S := P.spiral
  let secretFrom := S.toNttAlloc (S.automorphAlloc (S.fromNttAlloc secretNtt) secretFromExponent)
  .ofRow P.gadget.ell fun k =>
    let gadget := S.toNttAlloc fun i => if i = 0 then S.buildGadget P.gadget.ell k else 0
    let scaled := S.scalarMultiply secretFrom gadget
    let maskNtt := S.toNttAlloc (referenceMaskRaw P maskSeed k)
    let body := S.multiply (fun _ : Fin 1 => secretNtt) fun _ => maskNtt
    S.addInto (S.addInto body (S.toNttAlloc (error k))) scaled

/-- `validate_reference_body`. -/
def validateReferenceBody (body : PolyMatrixNTT P.d P.q) (label : String) : Outcome Unit :=
  if body.rows ≠ 1 ∨ body.cols ≠ P.gadget.ell then
    mismatch s!"{label} must have shape 1x{P.gadget.ell}, got {body.rows}x{body.cols}"
  else .ok ()

end Masks

/-! ## Uploaded keys -/

/-- The uploaded key bodies. -/
structure PackingKeys (P : RlweParams) where
  kgBody : PolyMatrixNTT P.d P.q
  khBody : PolyMatrixNTT P.d P.q

variable {P : RlweParams}

/-- `PackingKeys::generate_full`, on the errors that the sampler drew. -/
def PackingKeys.generateFull (P : RlweParams) (secretNtt : Ntt P.d P.q)
    (kgError khError : ℕ → Poly P.d) : PackingKeys P where
  kgBody := generateReferenceBody P secretNtt (tauGPow 1 P.d) REFERENCE_W_SEED kgError
  khBody := generateReferenceBody P secretNtt (h P.d) REFERENCE_V_SEED khError

/-- `PackingKeys::validate`. -/
def PackingKeys.validate (keys : PackingKeys P) : Outcome Unit := do
  validateReferenceBody P keys.kgBody "reference K_g body"
  validateReferenceBody P keys.khBody "reference K_h body"

theorem bodyShape_of_validate {body : PolyMatrixNTT P.d P.q} {label : String}
    (h : validateReferenceBody P body label = .ok ()) : BodyShape body P.gadget.ell := by
  unfold validateReferenceBody at h
  split at h
  · cases h
  · rename_i hshape
    exact ⟨not_not.mp (not_or.mp hshape).1, not_not.mp (not_or.mp hshape).2⟩

/-- Validated uploads have the shape of key bodies. -/
theorem shapes_of_validate {keys : PackingKeys P} (h : keys.validate = .ok ()) :
    BodyShape keys.kgBody P.gadget.ell ∧ BodyShape keys.khBody P.gadget.ell := by
  unfold PackingKeys.validate at h
  obtain ⟨⟨⟩, hkg, hkh⟩ := bind_eq_ok h
  exact ⟨bodyShape_of_validate hkg, bodyShape_of_validate hkh⟩

/-- `PackingKeys::to_key_pair`. -/
def PackingKeys.toKeyPair (keys : PackingKeys P) :
    Outcome (KeySwitchingMatrix P × KeySwitchingMatrix P) := do
  keys.validate
  let yTop := referenceMaskTop P REFERENCE_W_SEED
  let zTop := referenceMaskTop P REFERENCE_V_SEED
  .ok (⟨yTop.stack keys.kgBody⟩, ⟨zTop.stack keys.khBody⟩)

/-! ## Fixed top images -/

/-- `apply_tau_ntt_alloc` on a matrix. -/
def applyTauNttAlloc (input : PolyMatrixNTT P.d P.q) (table : NttAutomorphTable P.d) :
    PolyMatrixNTT P.d P.q :=
  input.map fun v => applyTauNtt v table

/-- `TopKeyImages::build`. -/
def TopKeyImages.build (P : RlweParams) : Outcome (TopKeyImages P) := do
  let kgTop := referenceMaskTop P REFERENCE_W_SEED
  let khTop := referenceMaskTop P REFERENCE_V_SEED
  let (leftTables, rightTables) ← tauGPowerTables P (P.d / 2 - 1)
  .ok {
    kgTopLeft := leftTables.map (applyTauNttAlloc kgTop)
    kgTopRight := rightTables.map (applyTauNttAlloc kgTop)
    khTop
    kgBodyLeftTables := leftTables
    kgBodyRightTables := rightTables }

/-- The per-image checks of `TopKeyImages::validate`; table lengths are those of their type. -/
def validateTopImages (side : String) (tops : List (PolyMatrixNTT P.d P.q)) : Outcome Unit :=
  tops.zipIdx.forM fun (top, idx) =>
    match validateReferenceBody P top s!"reference {side} kg top" with
    | .error (.err (.preprocessMismatch msg)) => mismatch
        s!"{side} K_g top image {idx}: preprocessing/parameter mismatch: {msg}"
    | out => out

/-- `TopKeyImages::validate`. -/
def TopKeyImages.validate (top : TopKeyImages P) : Outcome Unit :=
  let expected := P.d / 2 - 1
  if top.kgTopLeft.length ≠ expected then
    mismatch s!"expected {expected} left fixed K_g top images, got {top.kgTopLeft.length}"
  else if top.kgTopRight.length ≠ expected then
    mismatch s!"expected {expected} right fixed K_g top images, got {top.kgTopRight.length}"
  else if top.kgBodyLeftTables.length ≠ expected then
    mismatch s!"expected {expected} left K_g body tables, got {top.kgBodyLeftTables.length}"
  else if top.kgBodyRightTables.length ≠ expected then
    mismatch s!"expected {expected} right K_g body tables, got {top.kgBodyRightTables.length}"
  else do
    validateReferenceBody P top.khTop "reference kh top"
    validateTopImages "left" top.kgTopLeft
    validateTopImages "right" top.kgTopRight

/-! ## Public preprocessing -/

/-- CRS preprocessing of one block, before any key. -/
structure PackPublicPreprocessed (P : RlweParams) where
  aAgg : List (Ntt P.d P.q)

/-- The rows of a CRS block as coefficient vectors. -/
def crsRows (crs : PolyMatrixNTT P.d P.q) (row : Fin P.d) : Poly P.d :=
  P.spiral.fromNttAlloc (crs.poly row 0)

/-- `PackPublicPreprocessed::build`. -/
def PackPublicPreprocessed.build (P : RlweParams) (crs : PolyMatrixNTT P.d P.q) :
    Outcome (PackPublicPreprocessed P) :=
  if crs.rows ≠ P.d ∨ crs.cols ≠ 1 then
    mismatch s!"expected CRS shape {P.d}x1, got {crs.rows}x{crs.cols}"
  else do
    let aTildes := fun row => aTildeCoeffs P (crsRows crs row)
    let aAgg ← buildAAgg P aTildes
    .ok ⟨aAgg⟩

/-- The outcome of a full collapse that is kept for a CRS and a key pair. -/
structure PackPreprocessed (P : RlweParams) where
  collapseAFinalNtt : Ntt P.d P.q
  collapseBOffsetNtt : Ntt P.d P.q

/-- `precompute_collapse_affine`. -/
def precomputeCollapseAffine (aHat : List (Ntt P.d P.q))
    (kgImagesLeft kgImagesRight : List (KeySwitchingMatrix P)) (kh : KeySwitchingMatrix P) :
    Outcome (PackPreprocessed P) := do
  let collapsed ← collapse ⟨aHat, fun _ => 0⟩ kgImagesLeft kgImagesRight kh
  .ok ⟨collapsed.c1, collapsed.c2⟩

/-- `PackPublicPreprocessed::bind_keys`. -/
def PackPublicPreprocessed.bindKeys (pub : PackPublicPreprocessed P)
    (kg kh : KeySwitchingMatrix P) : Outcome (PackPreprocessed P) :=
  if kg.mat.rows ≠ 2 ∨ kg.mat.cols ≠ P.gadget.ell then
    mismatch s!"K_g must have shape 2x{P.gadget.ell}, got {kg.mat.rows}x{kg.mat.cols}"
  else if kh.mat.rows ≠ 2 ∨ kh.mat.cols ≠ P.gadget.ell then
    mismatch s!"K_h must have shape 2x{P.gadget.ell}, got {kh.mat.rows}x{kh.mat.cols}"
  else do
    let (leftTables, rightTables) ← tauGPowerTables P (P.d / 2 - 1)
    precomputeCollapseAffine pub.aAgg (leftTables.map (automorphicImageWithTable kg))
      (rightTables.map (automorphicImageWithTable kg)) kh

/-- `PackPreprocessed::build`. -/
def PackPreprocessed.build (P : RlweParams) (crs : PolyMatrixNTT P.d P.q)
    (kg kh : KeySwitchingMatrix P) : Outcome (PackPreprocessed P) := do
  let pub ← PackPublicPreprocessed.build P crs
  pub.bindKeys kg kh

/-- `pack::pack`. -/
def pack (batch : LweBatch) (pre : PackPreprocessed P) : Outcome (RlweCiphertext P) := do
  batch.validate P
  let bTilde : Poly P.d := fun idx => (batch.inner.map LweCiphertext.b).getD idx 0 % P.q
  .ok ⟨pre.collapseAFinalNtt,
    P.spiral.addInto (P.spiral.toNttAlloc bTilde) pre.collapseBOffsetNtt⟩

/-! ## Reference preprocessing -/

/-- Public packing precomputation of one CRS block. -/
structure QueryPackPreprocessed (P : RlweParams) where
  collapseAFinalNtt : Ntt P.d P.q
  digitsNtt : List (PolyMatrixNTT P.d P.q)

/-- `precompute_reference_trace`. -/
def precomputeReferenceTrace (aAgg : List (Ntt P.d P.q)) : Outcome (QueryPackPreprocessed P) := do
  let kg := fixedReferenceKey P REFERENCE_W_SEED
  let kh := fixedReferenceKey P REFERENCE_V_SEED
  let (leftTables, rightTables) ← tauGPowerTables P (P.d / 2 - 1)
  let kgImagesLeft := leftTables.map (automorphicImageWithTable kg)
  let kgImagesRight := rightTables.map (automorphicImageWithTable kg)
  let left := aAgg.take (P.d / 2)
  let right := aAgg.drop (P.d / 2)
  let leftState ← CollapseState.ofVec left P.spiral.zeroNtt
  let ((leftA, b), leftDigits) ←
    collectHalfDigits kgImagesLeft leftState.last leftState.below leftState.b
  let rightState ← CollapseState.ofVec right b
  let ((rightA, b), rightDigits) ←
    collectHalfDigits kgImagesRight rightState.last rightState.below rightState.b
  let finalDigits ← ksDigitsNttFromC1 P rightA
  let (deltaA, _) ← ksSwitchWithDigitsNtt kh finalDigits b
  .ok ⟨P.spiral.addInto leftA deltaA, leftDigits ++ rightDigits ++ [finalDigits]⟩

/-- `QueryPackPreprocessed::build`. -/
def QueryPackPreprocessed.build (P : RlweParams) (crs : PolyMatrixNTT P.d P.q) :
    Outcome (QueryPackPreprocessed P) := do
  let pub ← PackPublicPreprocessed.build P crs
  precomputeReferenceTrace pub.aAgg

/-- `QueryPackPreprocessed::pack_b_prevalidated`. -/
def QueryPackPreprocessed.packBPrevalidated (workers : Scheduler (CollapseTerm P))
    (pre : QueryPackPreprocessed P) (bScalars : List ℕ) (keys : PackingKeys P)
    (topImages : TopKeyImages P) : Outcome (RlweCiphertext P) :=
  if bScalars.length ≠ P.d then
    .error (.err (.lweShape s!"expected {P.d} LWE b scalars, got {bScalars.length}"))
  else do
    let bTilde : Poly P.d := fun idx => vecGet bScalars idx % P.q
    let bFinal ← collapseUploadedBodyB workers (P.spiral.toNttAlloc bTilde) keys.kgBody keys.khBody
      topImages pre.digitsNtt
    .ok ⟨pre.collapseAFinalNtt, bFinal⟩

/-- `QueryPackPreprocessed::pack_b`. -/
def QueryPackPreprocessed.packB (workers : Scheduler (CollapseTerm P))
    (pre : QueryPackPreprocessed P) (bScalars : List ℕ) (keys : PackingKeys P)
    (topImages : TopKeyImages P) : Outcome (RlweCiphertext P) := do
  keys.validate
  topImages.validate
  pre.packBPrevalidated workers bScalars keys topImages

end Inspiring
