import IpirSp.Reinspiring.LiftNtt
import IpirSp.MachineWord.Wrapping

/-!
# Parameters of the native packing

The native packing works modulo a power of two.  `NativeParams` carries what its constructor checks;
`dropped` is the number of low bits that the signed gadget rounds away, and `factor` the weight of a
gadget limb.
-/

namespace Reinspiring

open SpiralRs Inspiring MachineWord

/-- The secret samplers. -/
inductive SecretDistribution
  | gaussian
  | ternaryResearch
deriving DecidableEq

/-- `MAX_GADGET_BITS`. -/
def maxGadgetBits : ℕ := 27

/-- A native profile, with what `NativeParams::new` checks. -/
structure NativeParams (d q : ℕ) where
  qBits : ℕ
  pBits : ℕ
  bits : ℕ
  ell : ℕ
  dropped : ℕ
  sampler : SecretDistribution
  q_eq : q = 2 ^ qBits
  two_le_d : 2 ≤ d
  d_le : d ≤ 2048
  d_eq : IsPowerOfTwo d
  qBits_ge : 16 ≤ qBits
  qBits_le : qBits ≤ 56
  pBits_pos : 0 < pBits
  pBits_lt : pBits < qBits
  bits_pos : 0 < bits
  bits_le : bits ≤ maxGadgetBits
  ell_pos : 0 < ell
  ell_le : ell ≤ 8
  dropped_eq : dropped = qBits - bits * ell
  dropped_le : dropped ≤ maxGadgetBits

/-- `NativeParams::new`. -/
def NativeParams.new (lib : NumberTheory) (d qBits pBits bits ell : ℕ)
    (sampler : SecretDistribution) : Result (NativeParams d (2 ^ qBits)) :=
  if hrange : ¬(2 ≤ d ∧ d ≤ 2048) ∨ ¬IsPowerOfTwo d ∨ ¬(16 ≤ qBits ∧ qBits ≤ 56) ∨ pBits = 0 ∨
      pBits ≥ qBits ∨ bits = 0 ∨ bits > maxGadgetBits ∨ ell = 0 ∨ ell > 8 then
    invalidParams "invalid native profile"
  else
    let dropped := qBits - bits * ell
    if hdropped : dropped > maxGadgetBits then invalidParams "too many discarded gadget bits"
    else do
      let _ ← LiftContext.new lib d (2 ^ qBits)
      .ok {
        qBits, pBits, bits, ell, dropped, sampler
        q_eq := rfl
        two_le_d := by omega
        d_le := by omega
        d_eq := by
          by_contra h
          exact hrange (Or.inr (Or.inl h))
        qBits_ge := by omega
        qBits_le := by omega
        pBits_pos := by omega
        pBits_lt := by omega
        bits_pos := by omega
        bits_le := by omega
        ell_pos := by omega
        ell_le := by omega
        dropped_eq := rfl
        dropped_le := by omega }

namespace NativeParams

variable {d q : ℕ} (P : NativeParams d q)

/-- The plaintext modulus. -/
def p : ℕ := 2 ^ P.pBits

/-- `factor`: the weight of gadget limb `j`. -/
def factor (j : ℕ) : ℕ :=
  let shift := P.dropped + P.bits * j
  if shift ≥ P.qBits then 0 else 2 ^ shift

theorem d_pos (P : NativeParams d q) : 0 < d := by have := P.two_le_d; omega

theorem isPowerOfTwo (P : NativeParams d q) : IsPowerOfTwo q := by
  rw [IsPowerOfTwo, P.q_eq, Nat.log2_two_pow]

theorem q_pos (P : NativeParams d q) : 0 < q := P.isPowerOfTwo.pos

theorem q_le (P : NativeParams d q) : q ≤ 2 ^ 56 := by
  rw [P.q_eq]
  exact Nat.pow_le_pow_right two_pos P.qBits_le

theorem le_q (P : NativeParams d q) : 2 ^ 16 ≤ q := by
  rw [P.q_eq]
  exact Nat.pow_le_pow_right two_pos P.qBits_ge

theorem dvd_W64 (P : NativeParams d q) : q ∣ W64 :=
  P.isPowerOfTwo.dvd_W64 (P.q_le.trans (by decide))

/-- The degree is an even power of two. -/
theorem exists_d_eq (P : NativeParams d q) : ∃ m, d = 2 ^ (m + 1) ∧ m ≤ 10 := by
  have hd := P.d_eq
  have htwo := P.two_le_d
  have hle := P.d_le
  have hlog : d.log2 ≠ 0 := by
    intro hzero
    rw [IsPowerOfTwo, hzero] at hd
    omega
  refine ⟨d.log2 - 1, ?_, ?_⟩
  · rw [Nat.sub_add_cancel (Nat.one_le_iff_ne_zero.mpr hlog)]
    exact hd.symm
  · have hlog' : 2 ^ d.log2 ≤ 2 ^ 11 := hd.le.trans hle
    have := (Nat.pow_le_pow_iff_right (by decide : 1 < 2)).mp hlog'
    omega

end NativeParams

theorem two_le_eight : 2 ≤ 8 := by decide

theorem four_le_maxDegree : 4 ≤ 2048 := by decide

theorem isPowerOfTwo_four : IsPowerOfTwo 4 := by decide

/-- A profile of degree four modulo `2^16`, with two digits of four bits. -/
def smallNativeParams : NativeParams 4 (2 ^ 16) where
  qBits := 16
  pBits := 4
  bits := 4
  ell := 2
  dropped := 8
  sampler := .ternaryResearch
  q_eq := rfl
  two_le_d := smallParams.two_le_d
  d_le := four_le_maxDegree
  d_eq := isPowerOfTwo_four
  qBits_ge := by decide
  qBits_le := by decide
  pBits_pos := by decide
  pBits_lt := by decide
  bits_pos := by decide
  bits_le := by decide
  ell_pos := Nat.two_pos
  ell_le := two_le_eight
  dropped_eq := by decide
  dropped_le := by decide

end Reinspiring
