import IpirSp.Inspiring.Params
import IpirSp.MachineWord.Wrapping

/-!
# The modular inverse in machine integers

`mod_inverse` runs the extended Euclidean loop on `i128`.  `modInverseI128` is that loop with every
quotient, product and difference checked against the type, and `modInverse` the same loop on
unbounded integers.  They agree because `old_r · |s| + r · |old_s|` stays equal to the modulus while
`s` and `old_s` keep opposite signs: this is `EuclidInv`, and it bounds every intermediate of a step
by the modulus.

`modInverse_exact` is the contract of the function.  Its consequence for `RlweParams::new` is
`modInverse_degree`: a power of two always has an inverse modulo an odd `q`.
-/

namespace Inspiring

open MachineWord

/-- The variables of the loop of `mod_inverse`. -/
structure EuclidState where
  oldR : ℤ
  r : ℤ
  oldS : ℤ
  s : ℤ

/-- One turn of the loop; `none` where an operation leaves `i128`. -/
def euclidStep (state : EuclidState) : Option EuclidState := do
  let quotient ← fitSigned 128 (state.oldR.tdiv state.r)
  let r ← fitSigned 128 (state.oldR - (← fitSigned 128 (quotient * state.r)))
  let s ← fitSigned 128 (state.oldS - (← fitSigned 128 (quotient * state.s)))
  return ⟨state.r, r, state.s, s⟩

theorem fitSigned_eq_some {width : ℕ} {z w : ℤ} (h : fitSigned width z = some w) : w = z := by
  unfold fitSigned at h
  split at h
  · exact (Option.some.inj h).symm
  · cases h

theorem fitSigned_of_abs_le {m : ℕ} {z : ℤ} (hm : m < 2 ^ 64) (hz : |z| ≤ m) :
    fitSigned 128 z = some z := by
  have hword : (m : ℤ) < 2 ^ 64 := by exact_mod_cast hm
  have hroom : (2 ^ 64 : ℤ) < 2 ^ (128 - 1) := by norm_num
  exact fitSigned_of_abs_lt (hz.trans_lt (hword.trans hroom))

/-- **The remainder shrinks**, so the loop terminates from every state. -/
theorem euclidStep_lt {state next : EuclidState} (hr : state.r ≠ 0)
    (hstep : euclidStep state = some next) : next.r.natAbs < state.r.natAbs := by
  simp only [euclidStep, Option.bind_eq_bind, Option.bind_eq_some_iff] at hstep
  obtain ⟨quotient, hquotient, product, hproduct, r, hsub, -, -, s, -, hnext⟩ := hstep
  obtain rfl := Option.some.inj hnext
  rw [fitSigned_eq_some hsub, fitSigned_eq_some hproduct, fitSigned_eq_some hquotient]
  have hmod : state.oldR - state.oldR.tdiv state.r * state.r = state.oldR.tmod state.r := by
    have hsplit := Int.tmod_add_tdiv_mul state.oldR state.r
    omega
  rw [hmod, Int.natAbs_tmod]
  exact Nat.mod_lt _ (Int.natAbs_pos.mpr hr)

/-- The loop of `mod_inverse`; `none` where an operation overflows. -/
def modInverseLoopI128 (state : EuclidState) : Option EuclidState :=
  if _hr : state.r = 0 then some state
  else
    match _hstep : euclidStep state with
    | none => none
    | some next => modInverseLoopI128 next
termination_by state.r.natAbs
decreasing_by exact euclidStep_lt _hr _hstep

/-- `mod_inverse`; `none` where an operation overflows. -/
def modInverseI128 (a modulus : ℕ) : Option (Option ℕ) := do
  let last ← modInverseLoopI128 ⟨modulus, (a % modulus : ℕ), 0, 1⟩
  return if last.oldR = 1 then some (last.oldS % modulus).toNat else none

/-! ## The invariant of the loop -/

/-- Subtracting a number of the other sign adds the absolute values. -/
theorem abs_sub_of_mul_nonpos {u v : ℤ} (h : u * v ≤ 0) : |u - v| = |u| + |v| := by
  rcases mul_nonpos_iff.mp h with ⟨hu, hv⟩ | ⟨hu, hv⟩
  · rw [abs_of_nonneg hu, abs_of_nonpos hv, abs_of_nonneg (by omega), sub_eq_add_neg]
  · rw [abs_of_nonpos hu, abs_of_nonneg hv, abs_of_nonpos (by omega)]
    ring

/-- **The invariant of the loop**: the remainders with the absolute values of the coefficients make
up the modulus. -/
structure EuclidInv (m oldR r : ℕ) (oldS s : ℤ) : Prop where
  lt : r < oldR
  le : oldR ≤ m
  signs : oldS * s ≤ 0
  sum : (oldR : ℤ) * |s| + r * |oldS| = m

theorem EuclidInv.start {a m : ℕ} (hm : 0 < m) : EuclidInv m m (a % m) 0 1 where
  lt := Nat.mod_lt a hm
  le := le_rfl
  signs := by decide
  sum := by simp

section Step

variable {m oldR r : ℕ} {oldS s : ℤ}

/-- The next coefficient is a sum of absolute values. -/
theorem EuclidInv.abs_next (h : EuclidInv m oldR r oldS s) :
    |oldS - (oldR / r : ℕ) * s| = |oldS| + (oldR / r : ℕ) * |s| := by
  have hsign : oldS * ((oldR / r : ℕ) * s) ≤ 0 := by
    have hrw : oldS * ((oldR / r : ℕ) * s) = (oldR / r : ℕ) * (oldS * s) := by ring
    rw [hrw]
    exact mul_nonpos_of_nonneg_of_nonpos (Int.natCast_nonneg _) h.signs
  rw [abs_sub_of_mul_nonpos hsign, abs_mul, Nat.abs_cast]

/-- One turn keeps the invariant. -/
theorem EuclidInv.step (h : EuclidInv m oldR r oldS s) (hr : r ≠ 0) :
    EuclidInv m r (oldR - oldR / r * r) s (oldS - (oldR / r : ℕ) * s) := by
  have hmod : oldR - oldR / r * r = oldR % r := (Nat.mod_eq_sub_div_mul ..).symm
  refine ⟨?_, h.lt.le.trans h.le, ?_, ?_⟩
  · rw [hmod]
    exact Nat.mod_lt _ (Nat.pos_of_ne_zero hr)
  · have hrw : s * (oldS - (oldR / r : ℕ) * s) = oldS * s - (oldR / r : ℕ) * (s * s) := by ring
    have hsquare : 0 ≤ ((oldR / r : ℕ) : ℤ) * (s * s) :=
      mul_nonneg (Int.natCast_nonneg _) (mul_self_nonneg s)
    rw [hrw]
    have hsigns := h.signs
    omega
  · rw [h.abs_next, Nat.cast_sub (Nat.div_mul_le_self _ _), Nat.cast_mul, ← h.sum]
    ring

/-- **No intermediate of a turn is larger than the modulus.** -/
theorem EuclidInv.bounds (h : EuclidInv m oldR r oldS s) (hr : r ≠ 0) :
    oldR / r ≤ m ∧ oldR / r * r ≤ m ∧ |((oldR / r : ℕ) : ℤ) * s| ≤ m ∧
      |oldS - (oldR / r : ℕ) * s| ≤ m := by
  have hnext := h.step hr
  have hone : (1 : ℤ) ≤ r := by exact_mod_cast Nat.one_le_iff_ne_zero.mpr hr
  -- the sum of the next state bounds its new coefficient
  have hcoeff : |oldS - (oldR / r : ℕ) * s| ≤ m := by
    have hsum := hnext.sum
    have hrest : 0 ≤ ((oldR - oldR / r * r : ℕ) : ℤ) * |s| :=
      mul_nonneg (Int.natCast_nonneg _) (abs_nonneg s)
    have hscale := le_mul_of_one_le_left (abs_nonneg (oldS - (oldR / r : ℕ) * s)) hone
    omega
  refine ⟨(Nat.div_le_self _ _).trans h.le, (Nat.div_mul_le_self _ _).trans h.le, ?_, hcoeff⟩
  have hnonneg := abs_nonneg oldS
  rw [h.abs_next] at hcoeff
  rw [abs_mul, Nat.abs_cast]
  omega

/-- A turn in `i128` is a turn on integers. -/
theorem EuclidInv.euclidStep_eq (h : EuclidInv m oldR r oldS s) (hm : m < 2 ^ 64) (hr : r ≠ 0) :
    euclidStep ⟨oldR, r, oldS, s⟩ =
      some ⟨r, (oldR - oldR / r * r : ℕ), s, oldS - (oldR / r : ℕ) * s⟩ := by
  obtain ⟨hquotient, hproduct, hcoeff, hnext⟩ := h.bounds hr
  have hfits {z : ℤ} (hz : |z| ≤ m) : fitSigned 128 z = some z := fitSigned_of_abs_le hm hz
  have hnat {n : ℕ} (hn : n ≤ m) : |(n : ℤ)| ≤ m := by
    rw [Nat.abs_cast]
    exact_mod_cast hn
  have hdiv : (oldR : ℤ).tdiv r = (oldR / r : ℕ) := (Int.ofNat_tdiv oldR r).symm
  have hmul : ((oldR / r : ℕ) : ℤ) * r = (oldR / r * r : ℕ) := by push_cast; rfl
  have hsub : (oldR : ℤ) - (oldR / r * r : ℕ) = (oldR - oldR / r * r : ℕ) :=
    (Nat.cast_sub (Nat.div_mul_le_self _ _)).symm
  have hrest : oldR - oldR / r * r ≤ m := (Nat.sub_le _ _).trans h.le
  unfold euclidStep
  dsimp only
  rw [hdiv, hfits (hnat hquotient), Option.bind_eq_bind, Option.bind_some, hmul,
    hfits (hnat hproduct), Option.bind_some, hsub, hfits (hnat hrest), Option.bind_some,
      hfits hcoeff,
    Option.bind_some, hfits hnext]
  rfl

end Step

/-- **The loop in `i128` is the loop on integers.** -/
theorem modInverseLoopI128_eq {m : ℕ} (hm : m < 2 ^ 64) (oldR r : ℕ) (oldS s : ℤ)
    (h : EuclidInv m oldR r oldS s) :
    ∃ s', modInverseLoopI128 ⟨oldR, r, oldS, s⟩ =
      some ⟨(modInverseLoop oldR r oldS s).1, 0, (modInverseLoop oldR r oldS s).2, s'⟩ := by
  induction oldR, r, oldS, s using modInverseLoop.induct with
  | case1 oldR oldS s =>
      refine ⟨s, ?_⟩
      rw [modInverseLoopI128, modInverseLoop, dif_pos rfl, dif_pos Nat.cast_zero]
      rfl
  | case2 oldR r oldS s hne quotient ih =>
      obtain ⟨s', hrun⟩ := ih (h.step hne)
      refine ⟨s', ?_⟩
      rw [modInverseLoopI128, dif_neg (Nat.cast_ne_zero.mpr hne), modInverseLoop, dif_neg hne]
      split
      · rename_i hnone
        rw [h.euclidStep_eq hm hne] at hnone
        cases hnone
      · rename_i next hsome
        rw [h.euclidStep_eq hm hne] at hsome
        obtain rfl := Option.some.inj hsome
        exact hrun

/-- **The loop ends at the greatest common divisor.** -/
theorem modInverseLoop_gcd (oldR r : ℕ) (oldS s : ℤ) :
    (modInverseLoop oldR r oldS s).1 = Nat.gcd oldR r := by
  induction oldR, r, oldS, s using modInverseLoop.induct with
  | case1 oldR oldS s =>
      rw [modInverseLoop, dif_pos rfl, Nat.gcd_zero_right]
  | case2 oldR r oldS s hne quotient ih =>
      have hmod : oldR - quotient * r = oldR % r := (Nat.mod_eq_sub_div_mul ..).symm
      rw [modInverseLoop, dif_neg hne]
      rw [hmod] at ih
      rw [Nat.gcd_comm oldR r, Nat.gcd_rec r oldR, Nat.gcd_comm (oldR % r) r, ← ih, ← hmod]

/-! ## The contract -/

/-- An inverse is found exactly when the operands are coprime. -/
theorem modInverse_isSome_iff (a m : ℕ) : (modInverse a m).isSome ↔ Nat.gcd a m = 1 := by
  have hgcd : (modInverseLoop m (a % m) 0 1).1 = Nat.gcd a m := by
    rw [modInverseLoop_gcd, Nat.gcd_comm m (a % m), ← Nat.gcd_rec, Nat.gcd_comm]
  simp only [modInverse, hgcd]
  split
  · rename_i hone
    exact iff_of_true rfl hone
  · rename_i hone
    exact iff_of_false Bool.false_ne_true hone

/-- **`mod_inverse`**, for every modulus above one: no operation overflows, it returns a value
exactly when the operands are coprime, and the value is the reduced inverse. -/
theorem modInverse_exact (a : ℕ) {modulus : ℕ} (hone : 1 < modulus) (hword : modulus < 2 ^ 64) :
    modInverseI128 a modulus = some (modInverse a modulus) ∧
      ((modInverse a modulus).isSome ↔ Nat.gcd a modulus = 1) ∧
      ∀ x, modInverse a modulus = some x → x < modulus ∧ a * x ≡ 1 [MOD modulus] := by
  have hpos : 0 < modulus := one_pos.trans hone
  refine ⟨?_, modInverse_isSome_iff a modulus, fun x hx => ?_⟩
  · obtain ⟨s', hrun⟩ := modInverseLoopI128_eq hword modulus (a % modulus) 0 1 (.start hpos)
    rw [modInverseI128, hrun, modInverse]
    simp only [Option.bind_eq_bind, Option.bind_some, Nat.cast_eq_one]
    rfl
  · exact ⟨modInverse_lt hpos hx, modInverse_spec hpos hx⟩

/-- Eight modulo a prime. -/
theorem modInverse_exact_eight :
    modInverseI128 8 12289 = some (modInverse 8 12289) ∧ (modInverse 8 12289).isSome := by
  obtain ⟨hrun, hiff, -⟩ := modInverse_exact 8 (show 1 < 12289 by decide) (by norm_num)
  exact ⟨hrun, hiff.mpr (by decide)⟩

/-- The degree of a parameter set always has an inverse: the last arithmetic check of
`RlweParams::new` never fails after the ones before it. -/
theorem modInverse_degree {d q : ℕ} (hd : 2 ^ d.log2 = d) (hq : q % 2 = 1) :
    (modInverse d q).isSome := by
  rw [modInverse_isSome_iff, ← hd]
  exact Nat.Coprime.pow_left _ (Nat.coprime_two_left.mpr (Nat.odd_iff.mpr hq))

theorem RlweParams.modInverse_d (P : RlweParams) : modInverse P.d P.q = some P.dInv := by
  have hpow : 2 ^ P.d.log2 = P.d := by
    rw [P.d_eq, Nat.log2_two_pow]
  obtain ⟨x, hx⟩ := Option.isSome_iff_exists.mp (modInverse_degree hpow P.q_odd)
  have hcoprime : Nat.Coprime P.q P.d := by
    rw [← hpow]
    exact Nat.Coprime.pow_right _ (Nat.coprime_two_right.mpr (Nat.odd_iff.mpr P.q_odd))
  have hsame : x ≡ P.dInv [MOD P.q] := Nat.ModEq.cancel_left_of_coprime hcoprime
    ((modInverse_spec P.q_pos hx).trans P.dInv_mul.symm)
  rw [hx, Nat.ModEq.eq_of_lt_of_lt hsame (modInverse_lt P.q_pos hx) P.dInv_lt]

/-- **Every parameter set is what `new` returns** for its data. -/
theorem RlweParams.new_eq (P : RlweParams) {init : SpiralInit}
    (hinit : init P.d P.q = some P.spiral) (hell : P.gadget.ell < 2 ^ 32) :
    RlweParams.new init P.d P.q P.p P.sigmaChi P.gadget = .ok P := by
  have hinv := P.modInverse_d
  have hpow : 2 ^ P.d.log2 = P.d := by
    rw [P.d_eq, Nat.log2_two_pow]
  have hcover : ¬gadgetCoverage P.gadget < P.q := by
    have hword := P.spiral.modulus_lt
    rw [gadgetCoverage, Nat.mod_eq_of_lt hell, ← pow_mul, not_lt, le_min_iff]
    exact ⟨P.coverage, hword.le.trans (by norm_num)⟩
  have htwo := P.two_le_d
  have hq := P.three_le_q
  have hodd := P.q_odd
  have hp := P.two_le_p
  have hpq := P.p_le_q
  have hbits := P.bitsPer_pos
  have hbits' := P.bitsPer_lt
  have hell' := P.ell_pos
  unfold RlweParams.new
  rw [dif_neg (by omega), dif_neg (by omega), dif_neg (by omega),
    dif_neg (not_not.mpr P.sigmaChi_pos), dif_neg (by omega), dif_neg (by omega), dif_neg hcover]
  split
  · next hnone => rw [hinv] at hnone; cases hnone
  · next x hx =>
    rw [hinv] at hx
    obtain rfl := Option.some.inj hx
    split
    · next hnone => rw [hinit] at hnone; cases hnone
    · next spiral hspiral =>
      rw [hinit] at hspiral
      obtain rfl := Option.some.inj hspiral
      rw [dif_neg (not_not.mpr P.bitsPer_eq)]
      refine congrArg Except.ok ?_
      have hdelta := P.delta_eq
      cases P
      dsimp only at hdelta
      subst hdelta
      rfl

end Inspiring
