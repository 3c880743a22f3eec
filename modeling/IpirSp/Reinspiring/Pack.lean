import IpirSp.Inspiring.Preprocess
import IpirSp.Reinspiring.Compile
import IpirSp.Reinspiring.NativeMatrix

/-!
# The compiled pack

`preprocessFromInspiring` compiles the recorded digits of a preprocessed block into one matrix for
each gadget limb and stacks them; the digits of the last switch stay as they are.  Online, `pack`
multiplies the matrix with the uploaded `K_g` bodies, adds the lifted products with the `K_h`
bodies, and adds the body vector.

This module holds the functions; `IpirSp.Reinspiring.Refinement` shows that `pack` returns what
`pack_b` returns.
-/

namespace Reinspiring

open SpiralRs Inspiring Loops

/-- `CompileAlgo`. -/
inductive CompileAlgo
  | naive
  | fast
deriving DecidableEq

/-- Offline packing material. -/
structure ReinspiringPreprocessed (P : RlweParams) where
  params : ReinspiringParams
  aTildeNtt : Ntt P.d P.q
  hPrime : NativeMatrix
  tDoublePrime : List (Poly P.d)
  lift : LiftContext P.d P.q

variable {P : RlweParams}

/-- `digit_limbs_coeff`. -/
def digitLimbsCoeff (digits : PolyMatrixNTT P.d P.q) : Result (List (Poly P.d)) :=
  if digits.rows ≠ P.gadget.ell ∨ digits.cols ≠ 1 then
    .error (.panic "assertion `left == right` failed")
  else .ok ((List.range P.gadget.ell).map fun j => P.spiral.fromNttAlloc (digits.poly j 0))

/-- `body_limbs_coeff`. -/
def bodyLimbsCoeff (body : PolyMatrixNTT P.d P.q) : Result (List (Poly P.d)) :=
  if body.rows ≠ 1 ∨ body.cols ≠ P.gadget.ell then
    .error (.panic "assertion `left == right` failed")
  else .ok ((List.range P.gadget.ell).map fun j => P.spiral.fromNttAlloc (body.poly 0 j))

/-- The block of one gadget limb. -/
def compileLimb (P : RlweParams) (algo : CompileAlgo) (exponents : List ℕ)
    (perStepLimbs : List (List (Poly P.d))) (limb : ℕ) : Result PackingMatrix :=
  let ts := perStepLimbs.map fun step => step.getD limb fun _ => 0
  if P.d = 2 then .ok (PackingMatrix.zero P.d P.d P.q)
  else
    match algo with
    | .naive => compileNaiveFused ts exponents P.q
    | .fast => compileFast ts exponents P.q

/-- `preprocess_from_inspiring`. -/
def preprocessFromInspiring (lib : NumberTheory) (supportsPacked : Bool)
    (pre : QueryPackPreprocessed P) (liftQ : ℕ) (algo : CompileAlgo) :
    Result (ReinspiringPreprocessed P) := do
  let rp ← ReinspiringParams.fromInspiring P liftQ
  if pre.digitsNtt.length ≠ P.d - 1 then
    preprocessMismatch s!"expected {P.d - 1} digit blocks, got {pre.digitsNtt.length}"
  else
    let exponents := collapseKgExponents P.d
    -- `K_g` steps first, the last digits belong to `K_h`.
    let perStepLimbs ← (pre.digitsNtt.take (P.d - 2)).mapM digitLimbsCoeff
    match pre.digitsNtt.drop (P.d - 2) with
    | [] => .error (.panic "index out of bounds")
    | last :: _ =>
        let tDoublePrime ← digitLimbsCoeff last
        let blocks ← (List.range P.gadget.ell).mapM (compileLimb P algo exponents perStepLimbs)
        let hPrime ← PackingMatrix.hstack blocks
        let lift ← LiftContext.new lib P.d P.q
        let hPrime ← NativeMatrix.fromCompiled supportsPacked hPrime
        .ok { params := rp, aTildeNtt := pre.collapseAFinalNtt, hPrime, tDoublePrime, lift }

/-- `pack::pack`. -/
def ReinspiringPreprocessed.pack (pre : ReinspiringPreprocessed P) (bScalars : List ℕ)
    (keys : PackingKeys P) : Result (RlweCiphertext P) :=
  if bScalars.length ≠ P.d then
    lweShape s!"expected {P.d} b scalars, got {bScalars.length}"
  else do
    fromInspiring keys.validate
    let yLimbs ← bodyLimbsCoeff keys.kgBody
    let yPrimeLimbs ← bodyLimbsCoeff keys.khBody
    let y := joinLimbs (yLimbs.map fun limb i => limb i % P.q)
    let hy ← pre.hPrime.multiply y
    let z ← pre.lift.sum pre.tDoublePrime yPrimeLimbs
    let c2 : Poly P.d := fun i => ((hy i + z i) % P.q + vecGet bScalars i % P.q) % P.q
    .ok ⟨pre.aTildeNtt, P.spiral.toNttAlloc c2⟩

end Reinspiring
