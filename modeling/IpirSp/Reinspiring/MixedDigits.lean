import IpirSp.Reinspiring.Decompose

/-!
# Mixed digits of the noise analysis

`mixedDigits` takes every digit with a width of its own and reports what the digits miss.  The
widths may leave low bits over, which are rounded as `decompose` rounds them.  The residue it
returns is the reconstruction minus the coefficient, modulo `q`; `two_mul_abs_bmod_mixedMiss_le`
bounds it.  `mixedDigits_agrees` compares the digits with those of `decompose` at equal widths and
reconstructs the coefficient at any widths.
-/

namespace Reinspiring

open Negacyclic SpiralRs Inspiring Loops MachineWord

/-- The digit loop of one coefficient, from a level on: the digits and the reconstruction. -/
def mixedLoop : List ℕ → ℤ → ℕ → ℤ → List ℤ × ℤ
  | [], _, _, reconstruction => ([], reconstruction)
  | width :: widths, x, shift, reconstruction =>
      let z : ℤ := 2 ^ width
      let digit := (x + z / 2) % z - z / 2
      let (digits, total) := mixedLoop widths ((x - digit).tdiv z) (shift + width)
        (reconstruction + digit * 2 ^ shift)
      (digit :: digits, total)

/-- `mixed_digits`: the digits level by level, and the residues. -/
def mixedDigits (a widths : List ℕ) (q : ℕ) : Result (List (List ℕ) × List ℕ) :=
  if ¬IsPowerOfTwo q ∨ widths = [] ∨ widths.length > 8 ∨ (∃ b ∈ widths, b = 0 ∨ b > 29) ∨
      widths.sum > q.log2 ∨ ∃ x ∈ a, x ≥ q then
    invalidParams "invalid research gadget"
  else
    let dropped := q.log2 - widths.sum
    let coefficient (v : ℕ) := mixedLoop widths (Gadget.roundOff dropped v) dropped 0
    .ok ((List.range widths.length).map fun j =>
          a.map fun v => ((coefficient v).1.getD j 0 % (q : ℤ)).toNat,
        a.map fun v => (((coefficient v).2 - v) % (q : ℤ)).toNat)

/-- Digits with the weights of their levels, from a level on. -/
def weighFrom : ℕ → List ℕ → List ℤ → ℤ
  | shift, width :: widths, v :: vs => v * 2 ^ shift + weighFrom (shift + width) widths vs
  | _, _, _ => 0

/-! ## The digit loop -/

/-- The bases of a list of widths. -/
def bases (widths : List ℕ) : List ℤ := widths.map fun width => 2 ^ width

theorem prod_bases (widths : List ℕ) : (bases widths).prod = 2 ^ widths.sum := by
  induction widths with
  | nil => rfl
  | cons width widths ih =>
      rw [bases, List.map_cons, List.prod_cons, List.sum_cons, pow_add, ← ih]
      rfl

/-- **The loop** takes balanced digits and adds them up with their weights. -/
theorem mixedLoop_eq (widths : List ℕ) (x : ℤ) (shift : ℕ) (reconstruction : ℤ) :
    mixedLoop widths x shift reconstruction =
      (Gadget.mixedDigits (bases widths) x,
        reconstruction + weighFrom shift widths (Gadget.mixedDigits (bases widths) x)) := by
  induction widths generalizing x shift reconstruction with
  | nil => simp [mixedLoop, weighFrom, bases, Gadget.mixedDigits]
  | cons width widths ih =>
      simp only [mixedLoop, ih]
      refine Prod.ext rfl ?_
      show _ + _ + weighFrom (shift + width) widths _ = _ + (_ + weighFrom (shift + width) widths _)
      rw [add_assoc]
      rfl

/-- The weights of the levels are the places of the mixed bases. -/
theorem weighFrom_eq (shift : ℕ) (widths : List ℕ) (vs : List ℤ) :
    weighFrom shift widths vs = 2 ^ shift * Gadget.mixedValue (bases widths) vs := by
  induction widths generalizing shift vs with
  | nil => cases vs <;> simp [weighFrom, bases, Gadget.mixedValue]
  | cons width widths ih =>
      cases vs with
      | nil => simp [weighFrom, bases, Gadget.mixedValue]
      | cons v vs =>
          have htail := ih (shift + width) vs
          rw [pow_add] at htail
          show v * 2 ^ shift + weighFrom (shift + width) widths vs =
            2 ^ shift * (v + 2 ^ width * Gadget.mixedValue (bases widths) vs)
          rw [htail]
          ring

/-- Equal widths: the weights are those of the packing. -/
theorem weighFrom_replicate (shift bits n : ℕ) {vs : List ℤ} (hvs : vs.length = n) :
    weighFrom shift (List.replicate n bits) vs =
      ∑ j ∈ Finset.range n, vs.getD j 0 * 2 ^ (shift + bits * j) := by
  induction n generalizing shift vs with
  | zero => simp [weighFrom]
  | succ n ih =>
      obtain ⟨v, vs, rfl⟩ := List.exists_cons_of_length_eq_add_one hvs
      rw [List.length_cons, Nat.add_right_cancel_iff] at hvs
      rw [List.replicate_succ, weighFrom, ih (shift + bits) hvs, Finset.sum_range_succ', add_comm]
      refine congrArg₂ (· + ·) (Finset.sum_congr rfl fun j _ => ?_) (by simp)
      rw [List.getD_cons_succ, show shift + bits + bits * j = shift + bits * (j + 1) by ring]

/-! ## Accepted gadgets -/

/-- What `mixed_digits` checks. -/
structure AcceptedGadget (a widths : List ℕ) (q : ℕ) : Prop where
  isPowerOfTwo : IsPowerOfTwo q
  ne_nil : widths ≠ []
  length_le : widths.length ≤ 8
  width : ∀ b ∈ widths, 0 < b ∧ b ≤ 29
  sum_le : widths.sum ≤ q.log2
  lt : ∀ x ∈ a, x < q

/-- The modulus is the place past the last digit. -/
theorem AcceptedGadget.q_eq {a widths : List ℕ} {q : ℕ} (h : AcceptedGadget a widths q) :
    (q : ℤ) = 2 ^ (q.log2 - widths.sum) * 2 ^ widths.sum := by
  have hpow := h.isPowerOfTwo
  rw [IsPowerOfTwo] at hpow
  rw [← pow_add, Nat.sub_add_cancel h.sum_le]
  exact_mod_cast hpow.symm

theorem AcceptedGadget.sum_ne_zero {a widths : List ℕ} {q : ℕ} (h : AcceptedGadget a widths q) :
    widths.sum ≠ 0 := by
  intro hsum
  obtain ⟨b, hb⟩ := List.exists_mem_of_ne_nil _ h.ne_nil
  have hzero := List.sum_eq_zero_iff.mp hsum b hb
  exact absurd (h.width b hb).1 (by omega)

/-- The integer digits of a coefficient. -/
def mixedInts (widths : List ℕ) (q v : ℕ) : List ℤ :=
  Gadget.mixedDigits (bases widths) (Gadget.roundOff (q.log2 - widths.sum) v)

/-- What the digits of a coefficient miss. -/
def mixedMiss (widths : List ℕ) (q v : ℕ) : ℤ :=
  weighFrom (q.log2 - widths.sum) widths (mixedInts widths q v) - v

/-- `mixed_digits` returns the digits and what they miss. -/
theorem mixedDigits_eq_ok_iff {a widths : List ℕ} {q : ℕ} {out : List (List ℕ) × List ℕ} :
    mixedDigits a widths q = .ok out ↔ AcceptedGadget a widths q ∧
      out = ((List.range widths.length).map fun j => a.map fun v =>
          ((mixedInts widths q v).getD j 0 % (q : ℤ)).toNat,
        a.map fun v => (mixedMiss widths q v % (q : ℤ)).toNat) := by
  unfold mixedDigits
  split
  · rename_i hchecks
    constructor
    · intro h
      cases h
    · rintro ⟨haccepted, -⟩
      exfalso
      rcases hchecks with h | h | h | ⟨b, hb, h⟩ | h | ⟨x, hx, h⟩
      · exact h haccepted.isPowerOfTwo
      · exact haccepted.ne_nil h
      · exact absurd haccepted.length_le (not_le.mpr h)
      · have := haccepted.width b hb
        omega
      · exact absurd haccepted.sum_le (not_le.mpr h)
      · exact absurd (haccepted.lt x hx) (not_lt.mpr h)
  · rename_i hchecks
    simp only [not_or, not_exists, not_and, not_not] at hchecks
    obtain ⟨hq, hnil, hlength, hwidths, hsum, ha⟩ := hchecks
    have haccepted : AcceptedGadget a widths q :=
      ⟨hq, hnil, not_lt.mp hlength,
        fun b hb => ⟨Nat.pos_of_ne_zero (hwidths b hb).1, not_lt.mp (hwidths b hb).2⟩,
        not_lt.mp hsum, fun x hx => not_le.mp (ha x hx)⟩
    simp only [mixedLoop_eq, zero_add]
    constructor
    · intro h
      exact ⟨haccepted, (Except.ok.inj h).symm⟩
    · rintro ⟨-, rfl⟩
      rfl

/-- Every digit is in the range of its own width. -/
theorem forall₂_mixedInts {widths : List ℕ} (hwidths : ∀ b ∈ widths, 0 < b) (q v : ℕ) :
    List.Forall₂ (fun width v => -(2 ^ width / 2) ≤ v ∧ v < 2 ^ width / 2) widths
      (mixedInts widths q v) := by
  have hpos : ∀ z ∈ bases widths, 0 < z := by
    intro z hz
    obtain ⟨width, -, rfl⟩ := List.mem_map.mp hz
    positivity
  have heven : ∀ z ∈ bases widths, 2 ∣ z := by
    intro z hz
    obtain ⟨width, hwidth, rfl⟩ := List.mem_map.mp hz
    exact dvd_pow_self 2 (hwidths width hwidth).ne'
  exact List.forall₂_map_left_iff.mp (Gadget.forall₂_mixedDigits hpos heven _)

/-- **What the digits miss** is at most half of the last dropped place, around the cycle. -/
theorem two_mul_abs_bmod_mixedMiss_le {a widths : List ℕ} {q : ℕ} (h : AcceptedGadget a widths q)
    (v : ℕ) :
    2 * |(mixedMiss widths q v).bmod q| ≤
      if q.log2 - widths.sum = 0 then 0 else 2 ^ (q.log2 - widths.sum) := by
  have hround := Gadget.two_mul_abs_roundOff_le (q.log2 - widths.sum) v
  have hmiss : mixedMiss widths q v =
      2 ^ (q.log2 - widths.sum) * Gadget.roundOff (q.log2 - widths.sum) v - v -
        q * Gadget.mixedRemainder (bases widths) (Gadget.roundOff (q.log2 - widths.sum) v) := by
    have hvalue := Gadget.mixedValue_mixedDigits (bases widths)
      (Gadget.roundOff (q.log2 - widths.sum) v)
    rw [prod_bases] at hvalue
    rw [mixedMiss, weighFrom_eq, h.q_eq]
    unfold mixedInts
    linear_combination (2 : ℤ) ^ (q.log2 - widths.sum) * hvalue
  -- half of the last dropped place is at most a quarter of the cycle
  have hquarter : (2 : ℤ) ^ (q.log2 - widths.sum) * 2 ≤ q := by
    rw [h.q_eq]
    exact mul_le_mul_of_nonneg_left (le_self_pow₀ one_le_two h.sum_ne_zero) (by positivity)
  have habs : |2 * (2 ^ (q.log2 - widths.sum) * Gadget.roundOff (q.log2 - widths.sum) v - v)| ≤
      2 ^ (q.log2 - widths.sum) := by
    rw [abs_mul, abs_two]
    refine hround.trans ?_
    split
    · positivity
    · exact le_rfl
  have hpos : (0 : ℤ) < 2 ^ (q.log2 - widths.sum) := by positivity
  obtain ⟨hlo, hhi⟩ := abs_le.mp habs
  rw [hmiss, Int.sub_mul_bmod_self_left,
    Int.bmod_eq_of_le_mul_two (by linarith) (by linarith)]
  exact hround

/-! ## Equal widths -/

section Uniform

variable {d q : ℕ} (P : NativeParams d q)

theorem NativeParams.log2_q : q.log2 = P.qBits :=
  (congrArg Nat.log2 P.q_eq).trans Nat.log2_two_pow

/-- Copies of the packing's width are an accepted gadget. -/
theorem NativeParams.accepted (hbits : P.bits * P.ell ≤ q.log2) {a : List ℕ} (ha : ∀ x ∈ a, x < q) :
    AcceptedGadget a (List.replicate P.ell P.bits) q where
  isPowerOfTwo := P.isPowerOfTwo
  ne_nil := by
    rw [Ne, List.replicate_eq_nil_iff]
    exact P.ell_pos.ne'
  length_le := by
    rw [List.length_replicate]
    exact P.ell_le
  width b hb := by
    rw [List.eq_of_mem_replicate hb]
    have hle := P.bits_le
    exact ⟨P.bits_pos, hle.trans (by decide)⟩
  sum_le := by
    rw [List.sum_replicate, smul_eq_mul, mul_comm]
    exact hbits
  lt := ha

theorem NativeParams.dropped_replicate :
    q.log2 - (List.replicate P.ell P.bits).sum = P.dropped := by
  rw [List.sum_replicate, smul_eq_mul, mul_comm, P.log2_q, P.dropped_eq]

theorem NativeParams.length_digits (v : ℕ) : (P.digits v).length = P.ell :=
  Gadget.length_digits _ _ _

/-- At equal widths the digits are those of `decompose`. -/
theorem NativeParams.mixedInts_eq (v : ℕ) :
    mixedInts (List.replicate P.ell P.bits) q v = P.digits v := by
  rw [mixedInts, P.dropped_replicate, bases, List.map_replicate, Gadget.mixedDigits_replicate]
  rfl

theorem NativeParams.mixedMiss_eq (v : ℕ) :
    mixedMiss (List.replicate P.ell P.bits) q v = P.weigh (P.digits v) - v := by
  rw [mixedMiss, P.mixedInts_eq, P.dropped_replicate,
    weighFrom_replicate _ _ _ (P.length_digits v)]
  rfl

/-- The limbs weigh what the integer digits weigh, modulo `q`. -/
theorem NativeParams.sum_limb_modEq (a : Poly d) (i : Fin d) :
    (∑ j ∈ Finset.range P.ell, (P.limb a j i : ℤ) * 2 ^ (P.dropped + P.bits * j)) ≡
      P.weigh (P.digits (a i)) [ZMOD q] := by
  rw [← ZMod.intCast_eq_intCast_iff, NativeParams.weigh]
  push_cast
  refine Finset.sum_congr rfl fun j _ => ?_
  rw [NativeParams.limb, cast_toNat_emod P.q_pos]

end Uniform

/-- **The analysis decomposes as the packing does.**  At the packing's width the digits are those of
`decompose`, and the residue is their weighted sum minus the coefficient; at any accepted widths the
digits are balanced in their own widths, and without the residue their weighted sum is the
coefficient. -/
theorem mixedDigits_agrees :
    (∀ (d q : ℕ) (P : NativeParams d q), P.bits * P.ell ≤ q.log2 → ∀ a : Poly d, (∀ i, a i < q) →
      ∃ limbs, decompose P a = .ok limbs ∧
        mixedDigits (List.ofFn a) (List.replicate P.ell P.bits) q =
          .ok (limbs.map List.ofFn, List.ofFn fun i =>
            ((∑ j ∈ Finset.range P.ell,
              ((limbs.getD j fun _ => 0) i : ℤ) * 2 ^ (P.dropped + P.bits * j) - a i) %
                (q : ℤ)).toNat)) ∧
    ∀ (a widths : List ℕ) (q : ℕ) (digits : List (List ℕ)) (residues : List ℕ),
      mixedDigits a widths q = .ok (digits, residues) →
      digits.length = widths.length ∧ residues.length = a.length ∧ ∀ i < a.length,
        ∃ vs : List ℤ,
          List.Forall₂ (fun width v => -(2 ^ width / 2) ≤ v ∧ v < 2 ^ width / 2) widths vs ∧
          digits.map (fun level => level.getD i 0) = vs.map (fun v => (v % (q : ℤ)).toNat) ∧
          weighFrom (q.log2 - widths.sum) widths vs - residues.getD i 0 ≡ a.getD i 0 [ZMOD q] := by
  constructor
  · intro d q P hbits a ha
    refine ⟨_, P.decompose_ok ha, ?_⟩
    rw [mixedDigits_eq_ok_iff]
    refine ⟨P.accepted hbits fun x hx => ?_, Prod.ext ?_ ?_⟩
    · obtain ⟨i, rfl⟩ := List.mem_ofFn.mp hx
      exact ha i
    · rw [List.length_replicate, List.map_map]
      refine List.map_congr_left fun j _ => ?_
      rw [List.map_ofFn]
      refine congrArg List.ofFn (funext fun i => ?_)
      rw [Function.comp_apply, P.mixedInts_eq]
      rfl
    · rw [List.map_ofFn]
      refine congrArg List.ofFn (funext fun i => ?_)
      rw [Function.comp_apply, P.mixedMiss_eq]
      have hlimb : ∀ j ∈ Finset.range P.ell,
          ((((List.range P.ell).map (P.limb a)).getD j fun _ => 0) i : ℤ) *
            2 ^ (P.dropped + P.bits * j) = (P.limb a j i : ℤ) * 2 ^ (P.dropped + P.bits * j) := by
        intro j hj
        rw [List.getD_eq_getElem _ _ (by simpa using hj), List.getElem_map, List.getElem_range]
      rw [Finset.sum_congr rfl hlimb]
      exact congrArg Int.toNat ((P.sum_limb_modEq a i).sub_right _)
  · intro a widths q digits residues h
    obtain ⟨haccepted, hout⟩ := mixedDigits_eq_ok_iff.mp h
    obtain ⟨rfl, rfl⟩ := Prod.mk.inj hout
    refine ⟨by rw [List.length_map, List.length_range], by rw [List.length_map], fun i hi => ?_⟩
    rw [List.getD_eq_getElem _ _ hi]
    have hvs := forall₂_mixedInts (fun b hb => (haccepted.width b hb).1) q a[i]
    refine ⟨mixedInts widths q a[i], hvs, ?_, ?_⟩
    · rw [List.map_map]
      refine List.ext_getElem (by simp [hvs.length_eq]) fun j hj hj' => ?_
      rw [List.length_map] at hj'
      rw [List.getElem_map, List.getElem_map, List.getElem_range, Function.comp_apply,
        List.getD_eq_getElem _ _ (by simpa using hi), List.getElem_map,
        List.getD_eq_getElem _ _ hj']
    · have hpos : (0 : ℤ) < q := by exact_mod_cast haccepted.isPowerOfTwo.pos
      rw [List.getD_eq_getElem _ 0 (by simpa using hi : i < (a.map _).length), List.getElem_map,
        Int.toNat_of_nonneg (Int.emod_nonneg _ hpos.ne')]
      have hmiss := (Int.mod_modEq (mixedMiss widths q a[i]) q).sub_left
        (weighFrom (q.log2 - widths.sum) widths (mixedInts widths q a[i]))
      rwa [mixedMiss, sub_sub_cancel] at hmiss

/-- A gadget of the packing and one of two widths. -/
theorem mixedDigits_agrees_small :
    (∃ limbs, decompose smallNativeParams ![65535, 32768, 65408, 1] = .ok limbs ∧
      mixedDigits (List.ofFn (![65535, 32768, 65408, 1] : Poly 4)) [4, 4] (2 ^ 16) =
        .ok (limbs.map List.ofFn, List.ofFn fun i =>
          ((∑ j ∈ Finset.range 2, ((limbs.getD j fun _ => 0) i : ℤ) * 2 ^ (8 + 4 * j) -
            (![65535, 32768, 65408, 1] : Poly 4) i) % ((2 ^ 16 : ℕ) : ℤ)).toNat)) ∧
      mixedDigits [57] [2, 3] (2 ^ 6) = .ok ([[1], [63]], [1]) ∧
      ∃ vs : List ℤ, [[1], [63]].map (fun level => level.getD 0 0) =
        vs.map (fun v => (v % ((2 ^ 6 : ℕ) : ℤ)).toNat) := by
  have hsmall := mixedDigits_agrees.1 4 (2 ^ 16) smallNativeParams (by decide)
    ![65535, 32768, 65408, 1] (by decide)
  have hmixed : mixedDigits [57] [2, 3] (2 ^ 6) = .ok ([[1], [63]], [1]) := by decide
  obtain ⟨-, -, hdigits⟩ := mixedDigits_agrees.2 _ _ _ _ _ hmixed
  obtain ⟨vs, -, hvs, -⟩ := hdigits 0 (by decide)
  exact ⟨hsmall, hmixed, vs, hvs⟩

/-- **The residue is the sum minus the word**, not the word minus the sum. -/
theorem residue_is_not_remainder :
    mixedDigits [1] (List.replicate smallNativeParams.ell smallNativeParams.bits) (2 ^ 16) =
        .ok ([[0], [0]], [65535]) ∧
      ¬(weighFrom (16 - [4, 4].sum) [4, 4] [0, 0] + 65535 ≡ 1 [ZMOD (2 ^ 16 : ℕ)]) ∧
      centered 65535 (2 ^ 16) ≠ 1 - weighFrom (16 - [4, 4].sum) [4, 4] [0, 0] := by
  decide

end Reinspiring
