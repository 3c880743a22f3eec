import Mathlib.Data.ZMod.Basic
import Mathlib.Tactic

/-!
# Wrapping machine words

A 64-bit word is a natural number below `2^64`, and arithmetic that wraps is arithmetic modulo
`2^64`.  Modulo any `q` that divides `2^64` a wrapping operation is the exact one, and the final
mask by `q - 1` of a power of two `q` is the reduction: the lemmas say so in `ZMod q`.

`ofInt` and `toInt` are the casts between a word and a signed integer; `toInt_ofInt` is the range
in which the second undoes the first.
-/

namespace MachineWord

/-- The number of words. -/
def W64 : ℕ := 2 ^ 64

/-- The number of 128-bit words. -/
def W128 : ℕ := 2 ^ 128

/-- `is_power_of_two`. -/
abbrev IsPowerOfTwo (q : ℕ) : Prop := 2 ^ q.log2 = q

/-- `wrapping_add`. -/
def wrappingAdd (a b : ℕ) : ℕ := (a + b) % W64

/-- `wrapping_sub`. -/
def wrappingSub (a b : ℕ) : ℕ := (a + (W64 - b)) % W64

/-- `wrapping_neg`. -/
def wrappingNeg (a : ℕ) : ℕ := (W64 - a) % W64

/-- `wrapping_mul`. -/
def wrappingMul (a b : ℕ) : ℕ := a * b % W64

/-- A signed integer `as u64`. -/
def ofInt (z : ℤ) : ℕ := (z % (W64 : ℤ)).toNat

/-- A word `as i64`. -/
def toInt (w : ℕ) : ℤ := if w < W64 / 2 then (w : ℤ) else (w : ℤ) - W64

/-- The result of an operation on signed words of `width` bits; `none` where it overflows. -/
def fitSigned (width : ℕ) (z : ℤ) : Option ℤ :=
  if -2 ^ (width - 1) ≤ z ∧ z < 2 ^ (width - 1) then some z else none

/-- Negation of signed words. -/
def negSigned (width : ℕ) (a : Option ℤ) : Option ℤ := do fitSigned width (-(← a))

/-- Addition of signed words. -/
def addSigned (width : ℕ) (a b : Option ℤ) : Option ℤ := do fitSigned width ((← a) + (← b))

/-- Subtraction of signed words. -/
def subSigned (width : ℕ) (a b : Option ℤ) : Option ℤ := do fitSigned width ((← a) - (← b))

theorem W64_pos : 0 < W64 := by decide

/-- A small result fits. -/
theorem fitSigned_of_abs_lt {width : ℕ} {z : ℤ} (h : |z| < 2 ^ (width - 1)) :
    fitSigned width z = some z := by
  obtain ⟨hlo, hhi⟩ := abs_lt.mp h
  exact if_pos ⟨hlo.le, hhi⟩

theorem negSigned_some {width : ℕ} {u : ℤ} (h : |u| < 2 ^ (width - 1)) :
    negSigned width (some u) = some (-u) := fitSigned_of_abs_lt (by rwa [abs_neg])

theorem addSigned_some {width : ℕ} {u v : ℤ} (h : |u| + |v| < 2 ^ (width - 1)) :
    addSigned width (some u) (some v) = some (u + v) :=
  fitSigned_of_abs_lt ((abs_add_le u v).trans_lt h)

theorem subSigned_some {width : ℕ} {u v : ℤ} (h : |u| + |v| < 2 ^ (width - 1)) :
    subSigned width (some u) (some v) = some (u - v) :=
  fitSigned_of_abs_lt ((abs_sub u v).trans_lt h)

theorem wrappingNeg_lt (a : ℕ) : wrappingNeg a < W64 := Nat.mod_lt _ W64_pos

theorem ofInt_lt (z : ℤ) : ofInt z < W64 := by
  have hpos : (0 : ℤ) < W64 := by exact_mod_cast W64_pos
  have hnonneg := Int.emod_nonneg z hpos.ne'
  have hlt := Int.emod_lt_of_pos z hpos
  rw [ofInt]
  omega

/-- **A signed integer in range survives the round trip.** -/
theorem toInt_ofInt {z : ℤ} (hlo : -(W64 / 2 : ℕ) ≤ z) (hhi : z < (W64 / 2 : ℕ)) :
    toInt (ofInt z) = z := by
  have hval : ((W64 : ℕ) : ℤ) = 18446744073709551616 := rfl
  have hhalf : ((W64 / 2 : ℕ) : ℤ) = 9223372036854775808 := rfl
  have hhalf' : W64 / 2 = 9223372036854775808 := rfl
  rw [hhalf] at hlo hhi
  rw [toInt, ofInt, hval, hhalf']
  rcases lt_or_ge z 0 with hneg | hnonneg
  · have hmod : z % 18446744073709551616 = z + 18446744073709551616 := by omega
    rw [hmod, if_neg (by omega)]
    omega
  · have hmod : z % 18446744073709551616 = z := by omega
    rw [hmod, if_pos (by omega)]
    omega

theorem abs_toInt_le {w : ℕ} (hw : w < W64) : |toInt w| ≤ 2 ^ 63 := by
  have hword : W64 = 18446744073709551616 := rfl
  rw [toInt, abs_le]
  split <;> omega

/-- Words with the same residue read as the same signed integer. -/
theorem toInt_of_modEq {w : ℕ} {z : ℤ} (hw : w < W64) (hmod : (w : ℤ) ≡ z [ZMOD W64])
    (hlo : -(W64 / 2 : ℕ) ≤ z) (hhi : z < (W64 / 2 : ℕ)) : toInt w = z := by
  have hword : w = ofInt z := by
    have hemod : (w : ℤ) % (W64 : ℤ) = w := Int.emod_eq_of_lt (by omega) (by exact_mod_cast hw)
    rw [ofInt, ← hmod, hemod, Int.toNat_natCast]
  rw [hword, toInt_ofInt hlo hhi]

section Modulus

variable {q : ℕ}

theorem IsPowerOfTwo.pos (hq : IsPowerOfTwo q) : 0 < q := hq ▸ Nat.two_pow_pos _

/-- A power of two up to the number of words divides it. -/
theorem IsPowerOfTwo.dvd_W64 (hq : IsPowerOfTwo q) (hle : q ≤ W64) : q ∣ W64 := by
  rw [← hq] at hle ⊢
  exact pow_dvd_pow 2 ((Nat.pow_le_pow_iff_right (by decide)).mp hle)

/-- Masking by a power of two is reduction. -/
theorem and_sub_one_eq_mod (hq : IsPowerOfTwo q) (a : ℕ) : a &&& (q - 1) = a % q := by
  conv_lhs => rw [← hq, Nat.and_two_pow_sub_one_eq_mod]
  rw [hq]

theorem cast_mask (hq : IsPowerOfTwo q) (a : ℕ) : ((a &&& (q - 1) : ℕ) : ZMod q) = a := by
  rw [and_sub_one_eq_mod hq, ZMod.natCast_mod]

theorem mask_lt (hq : IsPowerOfTwo q) (a : ℕ) : a &&& (q - 1) < q := by
  rw [and_sub_one_eq_mod hq]
  exact Nat.mod_lt _ hq.pos

variable (hdvd : q ∣ W64)

include hdvd

theorem cast_W64 : ((W64 : ℕ) : ZMod q) = 0 := (ZMod.natCast_eq_zero_iff _ _).mpr hdvd

theorem cast_mod_W64 (a : ℕ) : ((a % W64 : ℕ) : ZMod q) = a := by
  conv_rhs => rw [← Nat.mod_add_div a W64]
  rw [Nat.cast_add, Nat.cast_mul, cast_W64 hdvd, zero_mul, add_zero]

theorem cast_wrappingAdd (a b : ℕ) : ((wrappingAdd a b : ℕ) : ZMod q) = a + b := by
  rw [wrappingAdd, cast_mod_W64 hdvd, Nat.cast_add]

theorem cast_wrappingMul (a b : ℕ) : ((wrappingMul a b : ℕ) : ZMod q) = a * b := by
  rw [wrappingMul, cast_mod_W64 hdvd, Nat.cast_mul]

theorem cast_wrappingSub (a : ℕ) {b : ℕ} (hb : b ≤ W64) :
    ((wrappingSub a b : ℕ) : ZMod q) = a - b := by
  rw [wrappingSub, cast_mod_W64 hdvd, Nat.cast_add, Nat.cast_sub hb, cast_W64 hdvd, zero_sub,
    sub_eq_add_neg]

theorem cast_wrappingNeg {a : ℕ} (ha : a ≤ W64) :
    ((wrappingNeg a : ℕ) : ZMod q) = -(a : ZMod q) := by
  rw [wrappingNeg, cast_mod_W64 hdvd, Nat.cast_sub ha, cast_W64 hdvd, zero_sub]

theorem cast_ofInt (z : ℤ) : ((ofInt z : ℕ) : ZMod q) = z := by
  have hpos : ((W64 : ℕ) : ℤ) ≠ 0 := by exact_mod_cast W64_pos.ne'
  have hcast : ((ofInt z : ℕ) : ZMod q) = ((z % (W64 : ℤ) : ℤ) : ZMod q) := by
    rw [ofInt, ← Int.cast_natCast, Int.toNat_of_nonneg (Int.emod_nonneg z hpos)]
  rw [hcast]
  conv_rhs => rw [← Int.emod_add_mul_ediv z W64]
  rw [Int.cast_add, Int.cast_mul, Int.cast_natCast, cast_W64 hdvd, zero_mul, add_zero]

/-- **The low bits of a signed integer are its residue.** -/
theorem ofInt_mask (hq : IsPowerOfTwo q) (z : ℤ) : ofInt z &&& (q - 1) = (z % (q : ℤ)).toNat := by
  have hpos : (0 : ℤ) < q := by exact_mod_cast hq.pos
  have hnonneg := Int.emod_nonneg z hpos.ne'
  have hcast : (((ofInt z &&& (q - 1) : ℕ) : ℤ) : ZMod q) = ((z % (q : ℤ) : ℤ) : ZMod q) := by
    rw [Int.cast_natCast, cast_mask hq, cast_ofInt hdvd, ZMod.intCast_mod]
  have hmod := (ZMod.intCast_eq_intCast_iff _ _ _).mp hcast
  have hlt : ((ofInt z &&& (q - 1) : ℕ) : ℤ) < q := by exact_mod_cast mask_lt hq (ofInt z)
  have heq : ((ofInt z &&& (q - 1) : ℕ) : ℤ) = z % (q : ℤ) := by
    have hself := Int.emod_eq_of_lt (Int.natCast_nonneg _) hlt
    rw [← hself, hmod, Int.emod_emod]
  omega

end Modulus

end MachineWord
