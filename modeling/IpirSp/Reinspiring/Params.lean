import IpirSp.Inspiring.Params

/-!
# Parameters and errors of the compiled packing

The compiled packing has its own error type and its own parameter set, which it derives from the
parameters of the packing that it compiles.  `ReinspiringParams` carries what its constructor
checks, as `RlweParams` does.
-/

namespace Reinspiring

open SpiralRs Inspiring

/-- The error type of the crate. -/
inductive ReinspiringError
  | invalidParams (msg : String)
  | preprocessMismatch (msg : String)
  | lweShape (msg : String)
  | inspiring (e : InspiringError)
deriving DecidableEq

/-- The result of a fallible call of the crate. -/
abbrev Result (α : Type) := Except (Failure ReinspiringError) α

/-- `Err(InvalidParams(..))`. -/
def invalidParams {α : Type} (msg : String) : Result α := .error (.err (.invalidParams msg))

/-- `Err(PreprocessMismatch(..))`. -/
def preprocessMismatch {α : Type} (msg : String) : Result α :=
  .error (.err (.preprocessMismatch msg))

/-- `Err(LweShape(..))`. -/
def lweShape {α : Type} (msg : String) : Result α := .error (.err (.lweShape msg))

/-- `?` on a call of the packing crate. -/
def fromInspiring {α : Type} : Inspiring.Outcome α → Result α
  | .ok a => .ok a
  | .error (.err e) => .error (.err (.inspiring e))
  | .error (.panic msg) => .error (.panic msg)

@[simp] theorem fromInspiring_ok {α : Type} (a : α) : fromInspiring (.ok a) = .ok a := rfl

/-- Public parameters of the compiled packing, with what `ReinspiringParams::new` checks. -/
structure ReinspiringParams where
  d : ℕ
  q : ℕ
  p : ℕ
  gadget : GadgetParams
  delta : ℕ
  liftQ : ℕ
  two_le_d : 2 ≤ d
  d_eq : 2 ^ d.log2 = d
  two_le_q : 2 ≤ q
  two_le_p : 2 ≤ p
  p_le_q : p ≤ q
  bitsPer_pos : 0 < gadget.bitsPer
  bitsPer_lt : gadget.bitsPer < 63
  ell_pos : 0 < gadget.ell
  coverage : q % 2 = 1 → q ≤ 2 ^ (gadget.bitsPer * gadget.ell)
  delta_eq : delta = q / p
  three_le_liftQ : 3 ≤ liftQ
  liftQ_odd : liftQ % 2 = 1

/-- `z.saturating_pow(ell as u32)`. -/
def saturatingCoverage (gadget : GadgetParams) : ℕ :=
  min (gadget.z ^ (gadget.ell % 2 ^ 32)) (2 ^ 64 - 1)

theorem coverage_of_saturatingCoverage {q : ℕ} {gadget : GadgetParams}
    (h : ¬saturatingCoverage gadget < q) : q ≤ 2 ^ (gadget.bitsPer * gadget.ell) := by
  have hcov : q ≤ gadget.z ^ (gadget.ell % 2 ^ 32) := (not_lt.mp h).trans (min_le_left _ _)
  rw [GadgetParams.z, ← pow_mul] at hcov
  exact hcov.trans (Nat.pow_le_pow_right two_pos (Nat.mul_le_mul_left _ (Nat.mod_le _ _)))

/-- `ReinspiringParams::new`. -/
def ReinspiringParams.new (d q p : ℕ) (gadget : GadgetParams) (liftQ : ℕ) :
    Result ReinspiringParams :=
  if hd : d < 2 ∨ 2 ^ d.log2 ≠ d then
    invalidParams s!"d must be a power of two ≥ 2, got {d}"
  else if hq : q < 2 then invalidParams s!"q must be ≥ 2, got {q}"
  else if hp : p < 2 ∨ p > q then
    invalidParams s!"p must satisfy 2 ≤ p ≤ q, got p={p}, q={q}"
  else if hbits : gadget.bitsPer = 0 ∨ gadget.bitsPer ≥ 63 then
    invalidParams s!"gadget.bits_per out of range: {gadget.bitsPer}"
  else if hell : gadget.ell = 0 then invalidParams "gadget.ell must be non-zero"
  else if hcov : q % 2 = 1 ∧ saturatingCoverage gadget < q then
    invalidParams s!"gadget z^ell = {gadget.z}^{gadget.ell} < q = {q}"
  else if hlift : liftQ < 3 ∨ liftQ % 2 = 0 then
    invalidParams s!"lift_q must be an odd NTT-friendly modulus, got {liftQ}"
  else
    let delta := q / p
    .ok {
    d, q, p, gadget, delta, liftQ
    two_le_d := by omega
    d_eq := by omega
    two_le_q := by omega
    two_le_p := by omega
    p_le_q := by omega
    bitsPer_pos := by omega
    bitsPer_lt := by omega
    ell_pos := by omega
    coverage := fun hodd => coverage_of_saturatingCoverage fun h => hcov ⟨hodd, h⟩
    delta_eq := rfl
    three_le_liftQ := by omega
    liftQ_odd := by omega }

/-- `ReinspiringParams::from_inspiring`. -/
def ReinspiringParams.fromInspiring (P : RlweParams) (liftQ : ℕ) : Result ReinspiringParams :=
  ReinspiringParams.new P.d P.q P.p P.gadget liftQ

end Reinspiring
