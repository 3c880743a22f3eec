import IpirSp.SpiralRs.Reference
import IpirSp.Loops.Calls

/-!
# Parameter sets

`RlweParams` is the parameter set of the packing scheme.  Its fields past the data are what
`RlweParams::new` has checked, so a parameter set that `new` would refuse cannot be built and a
theorem about `P : RlweParams` is a theorem about every set that `new` accepts.  `new` is the
constructor with its checks in source order; `new_eq_ok` reads off what an accepted set holds.

Rust's outcomes are `Except (Failure ε)`: an `Err` of the crate's error type or a panic.
`mod_inverse` is the extended Euclidean loop, with its invariant in `modInverseLoop_spec`.
-/

/-- How a call can fail to return a value: with an error of type `ε`, or by a panic. -/
inductive Failure (ε : Type)
  | err (e : ε)
  | panic (msg : String)
deriving DecidableEq

namespace Inspiring

open SpiralRs

/-- The error type of the crate. -/
inductive InspiringError
  | invalidParams (msg : String)
  | lweShape (msg : String)
  | preprocessMismatch (msg : String)
deriving DecidableEq

/-- The result of a fallible call of the crate. -/
abbrev Outcome (α : Type) := Except (Failure InspiringError) α

/-- A double: a finite one is the shortest decimal that reads back as it, a sign and `digits` times
a power of ten. -/
inductive F64
  | finite (negative : Bool) (digits : ℕ) (exponent : ℤ)
  | inf (negative : Bool)
  | nan
deriving DecidableEq

/-- `is_finite` and positive. -/
def F64.isPositive : F64 → Bool
  | finite negative digits _ => !negative && decide (0 < digits)
  | inf _ | nan => false

/-- The text of a double under `{}`: no exponent, zeros up to the decimal point or behind it. -/
def F64.display : F64 → String
  | finite negative digits exponent =>
      let sign := if negative then "-" else ""
      let zeros (count : ℕ) := "".pushn '0' count
      if 0 ≤ exponent then sign ++ toString digits ++ zeros
        (if digits = 0 then 0 else exponent.toNat)
      else
        let places := (-exponent).toNat
        let fraction := toString (digits % 10 ^ places)
        s!"{sign}{digits / 10 ^ places}." ++ zeros (places - fraction.length) ++ fraction
  | inf negative => if negative then "-inf" else "inf"
  | nan => "NaN"

/-- Gadget parameters `(z, ℓ)` with `z = 2^bits_per`. -/
structure GadgetParams where
  bitsPer : ℕ
  ell : ℕ
deriving DecidableEq

/-- The gadget base. -/
def GadgetParams.z (g : GadgetParams) : ℕ := 2 ^ g.bitsPer

/-! ## The modular inverse -/

/-- The loop of `mod_inverse`, on its state `(old_r, r, old_s, s)`. -/
def modInverseLoop (oldR r : ℕ) (oldS s : ℤ) : ℕ × ℤ :=
  if _h : r = 0 then (oldR, oldS)
  else
    let quotient := oldR / r
    modInverseLoop r (oldR - quotient * r) s (oldS - quotient * s)
termination_by r
decreasing_by
  have := Nat.mod_lt oldR (Nat.pos_of_ne_zero _h)
  rw [Nat.mod_eq_sub_div_mul] at this
  exact this

/-- `mod_inverse`: the inverse of `a` modulo `modulus`, if the loop ends at one. -/
def modInverse (a modulus : ℕ) : Option ℕ :=
  let (oldR, oldS) := modInverseLoop modulus (a % modulus) 0 1
  if oldR = 1 then some (oldS % modulus).toNat else none

/-- The loop keeps both remainders multiples of `a` with the tracked factors. -/
theorem modInverseLoop_spec {a m : ℕ} (oldR r : ℕ) (oldS s : ℤ)
    (hold : (oldR : ℤ) ≡ oldS * a [ZMOD m]) (hr : (r : ℤ) ≡ s * a [ZMOD m]) :
    ((modInverseLoop oldR r oldS s).1 : ℤ) ≡ (modInverseLoop oldR r oldS s).2 * a [ZMOD m] := by
  induction oldR, r, oldS, s using modInverseLoop.induct with
  | case1 oldR oldS s =>
      unfold modInverseLoop
      simpa using hold
  | case2 oldR r oldS s hne quotient ih =>
      unfold modInverseLoop
      rw [dif_neg hne]
      refine ih hr ?_
      have hle : quotient * r ≤ oldR := Nat.div_mul_le_self oldR r
      push_cast [Nat.cast_sub hle]
      have := hold.sub (hr.mul_left (quotient : ℤ))
      convert this using 1
      ring

theorem modInverse_lt {a m x : ℕ} (hm : 0 < m) (h : modInverse a m = some x) : x < m := by
  simp only [modInverse] at h
  split at h
  · have hlt := Int.emod_lt_of_pos (modInverseLoop m (a % m) 0 1).2
      (by exact_mod_cast hm : (0 : ℤ) < m)
    have hx := Option.some.inj h
    omega
  · cases h

/-- What `mod_inverse` returns is an inverse. -/
theorem modInverse_spec {a m x : ℕ} (hm : 0 < m) (h : modInverse a m = some x) :
    a * x ≡ 1 [MOD m] := by
  have hinv := modInverseLoop_spec (a := a) (m := m) m (a % m) 0 1 (by simp [Int.ModEq])
    (by simp [Int.ModEq])
  simp only [modInverse] at h
  split at h
  · rename_i hone
    have hx := Option.some.inj h
    have hnonneg := Int.emod_nonneg (modInverseLoop m (a % m) 0 1).2
      (by exact_mod_cast hm.ne' : (m : ℤ) ≠ 0)
    have hxc : (x : ℤ) = (modInverseLoop m (a % m) 0 1).2 % m := by omega
    rw [hone] at hinv
    rw [← Int.natCast_modEq_iff]
    push_cast
    rw [hxc, mul_comm]
    exact ((Int.mod_modEq _ _).mul_right _).trans hinv.symm
  · cases h

/-! ## `RlweParams` -/

/-- Public parameters of the packing scheme, with the conditions that `RlweParams::new` checks. -/
structure RlweParams where
  d : ℕ
  q : ℕ
  p : ℕ
  sigmaChi : F64
  gadget : GadgetParams
  delta : ℕ
  dInv : ℕ
  spiral : Params d q
  two_le_d : 2 ≤ d
  three_le_q : 3 ≤ q
  q_odd : q % 2 = 1
  two_le_p : 2 ≤ p
  p_le_q : p ≤ q
  sigmaChi_pos : sigmaChi.isPositive
  bitsPer_pos : 0 < gadget.bitsPer
  bitsPer_lt : gadget.bitsPer < 64
  ell_pos : 0 < gadget.ell
  coverage : q ≤ 2 ^ (gadget.bitsPer * gadget.ell)
  bitsPer_eq : spiral.getBitsPer gadget.ell = gadget.bitsPer
  delta_eq : delta = q / p
  dInv_lt : dInv < q
  dInv_mul : d * dInv ≡ 1 [MOD q]

/-- `SpiralParams::init` at a degree and a single modulus; `none` where it panics. -/
abbrev SpiralInit := (d q : ℕ) → Option (Params d q)

/-- The coverage test of `new`: `(1u128 << bits_per).saturating_pow(ell as u32)`. -/
def gadgetCoverage (gadget : GadgetParams) : ℕ :=
  min ((2 ^ gadget.bitsPer) ^ (gadget.ell % 2 ^ 32)) (2 ^ 128 - 1)

theorem coverage_of_gadgetCoverage {q : ℕ} {gadget : GadgetParams}
    (h : ¬gadgetCoverage gadget < q) : q ≤ 2 ^ (gadget.bitsPer * gadget.ell) := by
  have hcov : q ≤ (2 ^ gadget.bitsPer) ^ (gadget.ell % 2 ^ 32) :=
    (not_lt.mp h).trans (min_le_left _ _)
  rw [← pow_mul] at hcov
  exact hcov.trans (Nat.pow_le_pow_right two_pos (Nat.mul_le_mul_left _ (Nat.mod_le _ _)))

/-- `RlweParams::new`. -/
def RlweParams.new (init : SpiralInit) (d q p : ℕ) (sigmaChi : F64) (gadget : GadgetParams) :
    Outcome RlweParams :=
  let invalid (msg : String) : Outcome RlweParams := .error (.err (.invalidParams msg))
  if hd : d < 2 ∨ 2 ^ d.log2 ≠ d then
    invalid s!"d must be a power of two greater than 1, got {d}"
  else if hq : q < 3 ∨ q % 2 = 0 then
    invalid s!"q must be odd and at least 3, got {q}"
  else if hp : p < 2 ∨ p > q then
    invalid s!"p must satisfy 2 <= p <= q, got p={p}, q={q}"
  else if hsigma : ¬sigmaChi.isPositive then
    invalid s!"sigma_chi must be positive and finite, got {sigmaChi.display}"
  else if hbits : gadget.bitsPer = 0 ∨ gadget.bitsPer ≥ 64 then
    invalid s!"gadget.bits_per must be in [1, 63], got {gadget.bitsPer}"
  else if hell : gadget.ell = 0 then
    invalid "gadget.ell must be non-zero"
  else if hcov : gadgetCoverage gadget < q then
    invalid s!"gadget base z={gadget.z} with ell={gadget.ell} does not cover q={q}"
  else
    match hinv : modInverse d q with
    | none => invalid s!"d={d} is not invertible modulo q={q}"
    | some dInv =>
        match init d q with
        | none => .error (.panic "SpiralParams::init")
        | some spiral =>
            if hget : spiral.getBitsPer gadget.ell ≠ gadget.bitsPer then
              invalid (s!"gadget.bits_per={gadget.bitsPer} does not match spiral-rs " ++
                s!"bits_per={spiral.getBitsPer gadget.ell} for q={q} and ell={gadget.ell}")
            else .ok {
              d, q, p, sigmaChi, gadget, dInv, spiral
              delta := q / p
              two_le_d := by omega
              three_le_q := by omega
              q_odd := by omega
              two_le_p := by omega
              p_le_q := by omega
              sigmaChi_pos := by simpa using hsigma
              bitsPer_pos := by omega
              bitsPer_lt := by omega
              ell_pos := by omega
              coverage := coverage_of_gadgetCoverage hcov
              bitsPer_eq := by simpa using hget
              delta_eq := rfl
              dInv_lt := modInverse_lt (by omega) hinv
              dInv_mul := modInverse_spec (by omega) hinv }

namespace RlweParams

variable (P : RlweParams)

theorem d_pos : 0 < P.d := by have := P.two_le_d; omega

theorem q_pos : 0 < P.q := by have := P.three_le_q; omega

instance : NeZero P.d := ⟨P.d_pos.ne'⟩

instance : NeZero P.q := ⟨P.q_pos.ne'⟩

theorem d_eq : P.d = 2 ^ P.spiral.logLen := P.spiral.polyLen_eq

theorem logLen_pos : 0 < P.spiral.logLen := by
  rcases Nat.eq_zero_or_pos P.spiral.logLen with h | h
  · have := P.d_eq
    rw [h] at this
    have := P.two_le_d
    omega
  · exact h

theorem two_dvd_d : 2 ∣ P.d := by
  rw [P.d_eq]
  exact dvd_pow_self 2 P.logLen_pos.ne'

/-- `d_inv` is the inverse of `d` in the coefficient ring. -/
theorem dInv_mul_d : (P.dInv : ZMod P.q) * (P.d : ZMod P.q) = 1 := by
  have h := (ZMod.natCast_eq_natCast_iff _ _ _).mpr P.dInv_mul
  push_cast at h
  rw [mul_comm, h]

end RlweParams

/-- **`new` stores its arguments and the derived constants.** -/
theorem RlweParams.new_eq_ok {init : SpiralInit} {d q p : ℕ} {sigmaChi : F64}
    {gadget : GadgetParams} {P : RlweParams}
    (h : RlweParams.new init d q p sigmaChi gadget = .ok P) :
    P.d = d ∧ P.q = q ∧ P.p = p ∧ P.sigmaChi = sigmaChi ∧ P.gadget = gadget ∧
      modInverse d q = some P.dInv ∧ init P.d P.q = some P.spiral := by
  unfold RlweParams.new at h
  simp only at h
  split at h; · cases h
  split at h; · cases h
  split at h; · cases h
  split at h; · cases h
  split at h; · cases h
  split at h; · cases h
  split at h; · cases h
  split at h
  · cases h
  · rename_i hinv
    split at h
    · cases h
    · rename_i hinit
      split at h
      · cases h
      · cases h
        exact ⟨rfl, rfl, rfl, rfl, rfl, hinv, hinit⟩

/-! ## A small instance -/

theorem one_lt_seventeen : 1 < 17 := by decide

theorem seventeen_lt_word : 17 < 2 ^ 64 := by decide

/-- The slot exponents of degree four, in bit-reversed order. -/
theorem odd_slotExp : ∀ s : Fin 4, Odd (![1, 5, 3, 7] s) := by decide

theorem slotExp_lt : ∀ s : Fin 4, ![1, 5, 3, 7] s < 2 * 4 := by decide

theorem slotExp_injective : Function.Injective (![1, 5, 3, 7] : Fin 4 → ℕ) := by decide

/-- A reference layer at degree four and modulus seventeen, with slots in bit-reversed order. -/
def smallLayer : ReferenceData 4 17 where
  logLen := 2
  d_eq := rfl
  one_lt := one_lt_seventeen
  lt_word := seventeen_lt_word
  root := 2
  root_pow := by decide
  exp := ![1, 5, 3, 7]
  odd_exp := odd_slotExp
  exp_lt := slotExp_lt
  exp_injective := slotExp_injective
  dInv := 13
  dInv_mul := by decide
  bitsPer ell := 5 / ell + 1
  random _ k i := (3 * k + 1) * i * i + 5 * i

/-- A small parameter set over it. -/
def smallParams : RlweParams where
  d := 4
  q := 17
  p := 2
  sigmaChi := .finite false 1 0
  gadget := ⟨3, 2⟩
  delta := 8
  dInv := 13
  spiral := smallLayer.params
  two_le_d := by decide
  three_le_q := by decide
  q_odd := by decide
  two_le_p := by decide
  p_le_q := by decide
  sigmaChi_pos := by decide
  bitsPer_pos := by decide
  bitsPer_lt := by decide
  ell_pos := by decide
  coverage := by decide
  bitsPer_eq := by decide
  delta_eq := by decide
  dInv_lt := by decide
  dInv_mul := by decide

end Inspiring
