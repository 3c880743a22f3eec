import IpirSp.Gadget.Balanced
import IpirSp.Reinspiring.LiftPublic
import IpirSp.Reinspiring.NativeParams
import Mathlib.Data.List.GetD

/-!
# The approximate gadget of the native packing

`decompose` first rounds away the low bits of a coefficient, to the nearest multiple and upwards on
ties, and then takes signed digits.  Everything above the last digit vanishes modulo `q`, because
the weight there is a multiple of `q`: `sum_decompose` says that the digits with their weights are
the rounded coefficient, and `abs_roundingError_le` is what the rounding costs.
-/

namespace Reinspiring

open Negacyclic SpiralRs Inspiring Loops MachineWord

variable {d q : ℕ}

/-- `validate_poly`; the degree is that of the type. -/
def validatePoly (_P : NativeParams d q) (a : Poly d) : Result Unit :=
  if ∃ i, a i ≥ q then invalidParams "wrong degree or noncanonical coefficient" else .ok ()

theorem validatePoly_ok (P : NativeParams d q) {a : Poly d} (ha : ∀ i, a i < q) :
    validatePoly P a = .ok () := by
  rw [validatePoly, if_neg]
  rintro ⟨i, hi⟩
  exact absurd (ha i) (not_lt.mpr hi)

/-- A coefficient without its dropped bits, rounded. -/
def NativeParams.rounded (P : NativeParams d q) (a : ℕ) : ℤ :=
  if P.dropped = 0 then a else ((a : ℤ) + 2 ^ (P.dropped - 1)) / 2 ^ P.dropped

/-- The digits of `decompose` on one coefficient. -/
def NativeParams.digits (P : NativeParams d q) (a : ℕ) : List ℤ :=
  Gadget.digits (2 ^ P.bits) P.ell (P.rounded a)

/-- Limb `j` of `decompose`. -/
def NativeParams.limb (P : NativeParams d q) (a : Poly d) (j : ℕ) : Poly d :=
  fun i => ((P.digits (a i)).getD j 0 % (q : ℤ)).toNat

/-- `decompose`. -/
def decompose (P : NativeParams d q) (a : Poly d) : Result (List (Poly d)) := do
  validatePoly P a
  .ok ((List.range P.ell).map (P.limb a))

namespace NativeParams

variable (P : NativeParams d q)

/-- The bound on a digit that the preparations use. -/
def digitBound : ℕ := min (2 ^ (P.bits - 1)) (q / 2)

theorem digitBound_le : P.digitBound ≤ q / 2 := min_le_right _ _

theorem limb_lt (a : Poly d) (j : ℕ) (i : Fin d) : P.limb a j i < q := toNat_emod_lt P.q_pos _

theorem decompose_ok {a : Poly d} (ha : ∀ i, a i < q) :
    decompose P a = .ok ((List.range P.ell).map (P.limb a)) := by
  rw [decompose, validatePoly_ok P ha]
  rfl

theorem bits_half : ((2 : ℤ) ^ P.bits) / 2 = 2 ^ (P.bits - 1) := by
  have hbits := P.bits_pos
  obtain ⟨n, hn⟩ := Nat.exists_eq_add_of_lt hbits
  rw [hn, zero_add, Nat.add_sub_cancel, pow_succ, Int.mul_ediv_cancel _ (by norm_num)]

theorem abs_digit_le (a : ℕ) (j : ℕ) : |(P.digits a).getD j 0| ≤ 2 ^ (P.bits - 1) := by
  have heven : (2 : ℤ) ∣ 2 ^ P.bits := dvd_pow_self 2 P.bits_pos.ne'
  have hbounds := Gadget.digits_bounds (by positivity : (0 : ℤ) < 2 ^ P.bits) heven P.ell
    (P.rounded a)
  rw [P.bits_half] at hbounds
  have hpos : (0 : ℤ) ≤ 2 ^ (P.bits - 1) := by positivity
  rw [List.getD_eq_getElem?_getD]
  rcases hget : (P.digits a)[j]? with _ | v
  · simp
  · obtain ⟨hlo, hhi⟩ := hbounds v (List.mem_of_getElem? hget)
    exact abs_le.mpr ⟨hlo, hhi.le⟩

/-- Centring a residue does not increase its magnitude. -/
theorem natAbs_centered_emod_le (hq : 0 < q) (z : ℤ) :
    (centered (z % (q : ℤ)).toNat q).natAbs ≤ z.natAbs := by
  have hpos : (0 : ℤ) < q := by exact_mod_cast hq
  have hnonneg := Int.emod_nonneg z hpos.ne'
  have hlt := Int.emod_lt_of_pos z hpos
  have hdiv := Int.emod_add_mul_ediv z q
  generalize z / (q : ℤ) = t at hdiv
  have hcast : (((z % (q : ℤ)).toNat : ℕ) : ℤ) = z % (q : ℤ) := Int.toNat_of_nonneg hnonneg
  unfold centered
  -- Below zero or past `q` the integer is at least as far from zero as the representative.
  rcases lt_trichotomy t 0 with ht | rfl | ht
  · have hle : (q : ℤ) * t ≤ -q := by nlinarith
    split <;> omega
  · split <;> omega
  · have hle : (q : ℤ) ≤ q * t := by nlinarith
    split <;> omega

/-- **Every digit is within the bound of the preparations.** -/
theorem natAbs_centered_limb_le (a : Poly d) (j : ℕ) (i : Fin d) :
    (centered (P.limb a j i) q).natAbs ≤ P.digitBound := by
  refine le_min ?_ ?_
  · refine (natAbs_centered_emod_le P.q_pos _).trans ?_
    have hle := P.abs_digit_le (a i) j
    rw [Int.abs_eq_natAbs] at hle
    exact_mod_cast hle
  · have hle := abs_centered_le (P.limb_lt a j i)
    rw [Int.abs_eq_natAbs] at hle
    exact_mod_cast hle

end NativeParams

/-! ## Recomposition -/

section Recompose

variable (P : NativeParams d q)

/-- What rounding adds to a coefficient. -/
def NativeParams.roundingError (P : NativeParams d q) (a : ℕ) : ℤ := 2 ^ P.dropped * P.rounded a - a

/-- **The rounding error** is at most half of the last dropped place. -/
theorem NativeParams.abs_roundingError_le (a : ℕ) :
    2 * |P.roundingError a| ≤ if P.dropped = 0 then 0 else 2 ^ P.dropped :=
  Gadget.two_mul_abs_roundOff_le P.dropped a

/-- The weight of a limb is its power of two, modulo `q`. -/
theorem NativeParams.cast_factor (j : ℕ) :
    ((P.factor j : ℕ) : ZMod q) = 2 ^ (P.dropped + P.bits * j) := by
  unfold NativeParams.factor
  dsimp only
  split
  · next hge =>
    have hzero : ((2 ^ (P.dropped + P.bits * j) : ℕ) : ZMod q) = 0 := by
      rw [ZMod.natCast_eq_zero_iff]
      conv_lhs => rw [P.q_eq]
      exact pow_dvd_pow 2 hge
    rw [Nat.cast_zero, ← hzero, Nat.cast_pow, Nat.cast_ofNat]
  · rw [Nat.cast_pow, Nat.cast_ofNat]

/-- The weight above the last limb vanishes modulo `q`. -/
theorem NativeParams.top_weight : (2 : ZMod q) ^ (P.dropped + P.bits * P.ell) = 0 := by
  have hzero : ((2 ^ (P.dropped + P.bits * P.ell) : ℕ) : ZMod q) = 0 := by
    rw [ZMod.natCast_eq_zero_iff]
    conv_lhs => rw [P.q_eq]
    refine pow_dvd_pow 2 ?_
    have := P.dropped_eq
    omega
  rw [← hzero, Nat.cast_pow, Nat.cast_ofNat]

/-- **The digits with their weights are the rounded coefficient**, modulo `q`. -/
theorem NativeParams.sum_decompose (a : Poly d) (i : Fin d) :
    ∑ j ∈ Finset.range P.ell, ((P.limb a j i : ℕ) : ZMod q) * (P.factor j : ℕ) =
      a i + ((P.roundingError (a i) : ℤ) : ZMod q) := by
  have hsum := congrArg (fun z : ℤ => (z : ZMod q))
    (Gadget.sum_digits (2 ^ P.bits) P.ell (P.rounded (a i)))
  push_cast at hsum
  have hterm (j : ℕ) : ((P.limb a j i : ℕ) : ZMod q) * (P.factor j : ℕ) =
      2 ^ P.dropped * ((((P.digits (a i)).getD j 0 : ℤ) : ZMod q) * (2 ^ P.bits) ^ j) := by
    rw [P.cast_factor, NativeParams.limb, cast_toNat_emod P.q_pos, pow_add, pow_mul]
    ring
  rw [Finset.sum_congr rfl fun j _ => hterm j, ← Finset.mul_sum]
  have htop : (2 : ZMod q) ^ P.dropped * (2 ^ P.bits) ^ P.ell = 0 := by
    rw [← pow_mul, ← pow_add]
    exact P.top_weight
  rw [NativeParams.roundingError]
  push_cast
  rw [← hsum, mul_add, ← mul_assoc, htop, zero_mul, add_zero]
  unfold NativeParams.digits
  ring

end Recompose

/-! ## Integer digits -/

section Integer

variable (P : NativeParams d q)

/-- Integer digits with the weights of the reconstruction. -/
def NativeParams.weigh (P : NativeParams d q) (digits : List ℤ) : ℤ :=
  ∑ j ∈ Finset.range P.ell, digits.getD j 0 * 2 ^ (P.dropped + P.bits * j)

/-- Past the rounding, only what lies above the last digit is lost. -/
theorem NativeParams.weigh_digits (a : ℕ) :
    P.weigh (P.digits a) =
      a + P.roundingError a -
        2 ^ (P.dropped + P.bits * P.ell) *
          Gadget.remainder (2 ^ P.bits) P.ell (P.rounded a) := by
  have hsum := Gadget.sum_digits (2 ^ P.bits) P.ell (P.rounded a)
  have hterm (j : ℕ) : (P.digits a).getD j 0 * (2 : ℤ) ^ (P.dropped + P.bits * j) =
      2 ^ P.dropped * ((P.digits a).getD j 0 * (2 ^ P.bits) ^ j) := by
    rw [pow_add, pow_mul]
    ring
  rw [NativeParams.weigh, Finset.sum_congr rfl fun j _ => hterm j, ← Finset.mul_sum,
    NativeParams.roundingError,
    pow_add, pow_mul]
  unfold NativeParams.digits
  linear_combination (2 : ℤ) ^ P.dropped * hsum

theorem NativeParams.two_mul_abs_roundingError_lt (a : ℕ) : 2 * |P.roundingError a| < q := by
  have herror := P.abs_roundingError_le a
  have hbits := Nat.mul_pos P.bits_pos P.ell_pos
  have hdropped := P.dropped_eq
  have hqBits := P.qBits_ge
  refine herror.trans_lt ?_
  have hlt : (2 : ℤ) ^ P.dropped < 2 ^ P.qBits := pow_lt_pow_right₀ one_lt_two (by omega)
  have hq : (q : ℤ) = 2 ^ P.qBits := by exact_mod_cast P.q_eq
  split
  · rw [hq]
    positivity
  · rwa [hq]

/-- **The digits miss a word by its rounding error**, around the cycle. -/
theorem NativeParams.bmod_weigh_digits (a : ℕ) :
    (P.weigh (P.digits a) - a).bmod q = P.roundingError a := by
  have hsmall := P.two_mul_abs_roundingError_lt a
  have habs := abs_lt.mp (show |2 * P.roundingError a| < (q : ℤ) by rwa [abs_mul, abs_two])
  have hself : (P.roundingError a).bmod q = P.roundingError a :=
    Int.bmod_eq_of_le_mul_two (by omega) (by omega)
  have htop : (q : ℤ) ∣ 2 ^ (P.dropped + P.bits * P.ell) := by
    have hq : (q : ℤ) = 2 ^ P.qBits := by exact_mod_cast P.q_eq
    rw [hq]
    refine pow_dvd_pow 2 ?_
    have := P.dropped_eq
    omega
  obtain ⟨t, ht⟩ := htop
  rw [P.weigh_digits, ht]
  conv_rhs => rw [← hself]
  rw [show (a : ℤ) + P.roundingError a -
      q * t * Gadget.remainder (2 ^ P.bits) P.ell (P.rounded a) - a =
      P.roundingError a - q * (t * Gadget.remainder (2 ^ P.bits) P.ell (P.rounded a)) by ring]
  exact Int.sub_mul_bmod_self_left _ _ _

/-- **`decompose` is short and close.**  Its limbs are the residues of balanced digits, and the
digits with their weights miss the coefficient by at most half of the last dropped place. -/
theorem decompose_digits (d q : ℕ) (P : NativeParams d q) (a : Poly d) (ha : ∀ i, a i < q) :
    ∃ limbs, decompose P a = .ok limbs ∧ limbs.length = P.ell ∧ ∀ i, ∃ digits : List ℤ,
      digits.length = P.ell ∧ (∀ v ∈ digits, -(2 ^ P.bits / 2) ≤ v ∧ v < 2 ^ P.bits / 2) ∧
      limbs.map (fun limb => limb i) = digits.map (fun v => (v % (q : ℤ)).toNat) ∧
      -2 ^ (P.dropped - 1) ≤ (P.weigh digits - a i).bmod q ∧
      (P.weigh digits - a i).bmod q ≤ 2 ^ (P.dropped - 1) ∧
      (P.dropped = 0 → (P.weigh digits - a i).bmod q = 0) := by
  refine ⟨_, P.decompose_ok ha, by rw [List.length_map, List.length_range], fun i => ?_⟩
  have heven : (2 : ℤ) ∣ 2 ^ P.bits := dvd_pow_self 2 P.bits_pos.ne'
  refine ⟨P.digits (a i), Gadget.length_digits _ _ _,
    Gadget.digits_bounds (by positivity) heven _ _, ?_, ?_⟩
  · rw [List.map_map]
    refine List.ext_getElem ?_ fun j hj hj' => ?_
    · rw [List.length_map, List.length_map, List.length_range]
      exact (Gadget.length_digits _ _ _).symm
    · rw [List.length_map] at hj'
      rw [List.getElem_map, List.getElem_map, List.getElem_range, Function.comp_apply,
        NativeParams.limb, List.getD_eq_getElem _ _ hj']
  · have herror := P.abs_roundingError_le (a i)
    rw [P.bmod_weigh_digits]
    by_cases hdropped : P.dropped = 0
    · rw [if_pos hdropped] at herror
      have hzero : P.roundingError (a i) = 0 := by
        have hnonneg := abs_nonneg (P.roundingError (a i))
        exact abs_eq_zero.mp (by omega)
      rw [hzero]
      exact ⟨by simp, by positivity, fun _ => rfl⟩
    · rw [if_neg hdropped] at herror
      obtain ⟨n, hn⟩ := Nat.exists_eq_succ_of_ne_zero hdropped
      rw [hn, pow_succ] at herror
      rw [hn, Nat.succ_sub_one]
      have habs : |P.roundingError (a i)| ≤ 2 ^ n := by linarith
      exact ⟨(abs_le.mp habs).1, (abs_le.mp habs).2, fun h => absurd h n.succ_ne_zero⟩

end Integer

/-- Words next to the modulus, whose carries run past the last digit. -/
theorem decompose_digits_small :
    (∀ i, (![65535, 32768, 65408, 0] : Poly 4) i < 2 ^ 16) ∧
      ∃ limbs, decompose smallNativeParams ![65535, 32768, 65408, 0] = .ok limbs ∧
        limbs.length = 2 := by
  have hlt : ∀ i, (![65535, 32768, 65408, 0] : Poly 4) i < 2 ^ 16 := by decide
  obtain ⟨limbs, hlimbs, hlength, -⟩ := decompose_digits 4 (2 ^ 16) smallNativeParams
    ![65535, 32768, 65408, 0] hlt
  exact ⟨hlt, limbs, hlimbs, hlength⟩

end Reinspiring
