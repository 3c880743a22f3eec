import IpirSp.Rounding.Cyclic
import Mathlib.Data.ZMod.ValMinAbs

/-!
# Decoding a scaled message

A message `m < p` travels as `Δ · m + e` modulo `q`, where `q = p · Δ + r`.  The receiver adds half
a step, divides by the step and reduces modulo `p`.  As `p` steps do not fill the modulus, the
phases below zero arrive in the gap of `r` residues at the top and above the last step;
`roundDiv_phase` says that a gap of at most half a step does no harm.
-/

namespace Rounding

/-- **A small error is rounded away**, also where the phase wraps around at the modulus. -/
theorem roundDiv_phase {q p step gap m phase : ℕ} {e : ℤ} (hq : q = p * step + gap) (hm : m < p)
    (hgap : gap ≤ step / 2) (hphase : phase < q) (hcong : (phase : ℤ) ≡ step * m + e [ZMOD q])
    (he : 2 * |e| < step) : (phase + step / 2) / step % p = m := by
  have hstep : 0 < step := by
    have := abs_nonneg e
    omega
  have htop : (m + 1) * step ≤ p * step := Nat.mul_le_mul_right step hm
  rw [Nat.succ_mul] at htop
  obtain ⟨hlow, hhigh⟩ := abs_lt.mp (show |e| < (step + 1) / 2 by omega)
  rcases le_or_gt 0 ((step : ℤ) * m + e) with hnonneg | hneg
  · -- the phase is what was sent
    obtain ⟨n, hn⟩ := Int.eq_ofNat_of_zero_le hnonneg
    have hsent : n < q := by
      have hmul : (step : ℤ) * m = (m * step : ℕ) := by push_cast; ring
      rw [hmul] at hn
      omega
    rw [hn, Int.natCast_modEq_iff, Nat.ModEq, Nat.mod_eq_of_lt hphase,
      Nat.mod_eq_of_lt hsent] at hcong
    have hquot : (phase + step / 2) / step = m := by
      have hmul : (step : ℤ) * m = (m * step : ℕ) := by push_cast; ring
      rw [hmul] at hn
      rw [hcong, Nat.div_eq_iff hstep]
      constructor <;> omega
    rw [hquot, Nat.mod_eq_of_lt hm]
  · -- the message is zero and the phase has gone below it
    have hzero : m = 0 := by
      by_contra hne
      have hle : (step : ℤ) ≤ step * m :=
        le_mul_of_one_le_right (Int.natCast_nonneg step) (by exact_mod_cast Nat.pos_of_ne_zero hne)
      omega
    subst hzero
    rw [Nat.cast_zero, mul_zero, zero_add] at hcong hneg
    obtain ⟨n, hn⟩ := Int.eq_ofNat_of_zero_le (show 0 ≤ (q : ℤ) + e by omega)
    have hsent : n < q := by omega
    have hshift : (phase : ℤ) ≡ n [ZMOD q] := by
      rw [← hn]
      exact hcong.trans (by simp [Int.ModEq])
    rw [Int.natCast_modEq_iff, Nat.ModEq, Nat.mod_eq_of_lt hphase, Nat.mod_eq_of_lt hsent] at hshift
    have hquot : (phase + step / 2) / step = p := by
      rw [hshift, Nat.div_eq_iff hstep]
      constructor <;> omega
    rw [hquot, Nat.mod_self]

/-- A difference of residues is no longer than any way between them. -/
theorem abs_valMinAbs_sub_le {q : ℕ} (hq : 0 < q) (x y : ℕ) :
    |((y : ZMod q) - x).valMinAbs| ≤ |cyclicError q x y| := by
  have : NeZero q := ⟨hq.ne'⟩
  have hmod : (cyclicError q x y : ZMod q) = ((y : ℤ) - x : ℤ) := by
    rw [ZMod.intCast_eq_intCast_iff, cyclicError]
    exact Int.bmod_emod
  have hcast : (((y : ZMod q) - x).valMinAbs : ZMod q) = (cyclicError q x y : ZMod q) := by
    rw [ZMod.coe_valMinAbs, hmod]
    push_cast
    rfl
  have hmin := ZMod.natAbs_min_of_le_div_two q _ _ hcast (ZMod.natAbs_valMinAbs_le _)
  rw [Int.abs_eq_natAbs, Int.abs_eq_natAbs]
  exact_mod_cast hmin

end Rounding
