import IpirSp.Fft.Radix2
import IpirSp.Negacyclic.Integer
import IpirSp.Reinspiring.NativeParams
import IpirSp.Reinspiring.Coefficients

/-!
# Integer aggregation of the native masks

Over a power of two the degree has no inverse, so the native packing divides traces by the degree
over the integers and rounds down.  `aggregateMasks` computes all traces
`∑ j, X^j · τ_g(ã_j)` with one integer transform whose butterflies rotate coefficients, in 64-bit
words while the worst case of a round fits them and in 128-bit words after that.

A coefficient is `none` once an operation has overflowed.  `RowHolds` is the bound that the rounds
keep, `rowButterfly_grows` one butterfly, and `aggregateMasks_exact` the result: no operation
overflows, and entry `(g - 1) / 2` is the floor of the integer trace at `g`.
-/

namespace Reinspiring

open Negacyclic SpiralRs Loops MachineWord

variable {d : ℕ}

/-- The coefficients of an integer polynomial in machine words. -/
abbrev IntRow (d : ℕ) := Fin d → Option ℤ

section Code

/-- The coefficient `c` of `aggregate_masks`: entry `k` of the mask polynomial of a row. -/
def maskCoefficient (row : Poly d) (k : ℕ) : Option ℤ :=
  if k = 0 then some (toInt (coeffAt row 0)) else negSigned 64 (some (toInt (coeffAt row (d - k))))

/-- The writes that fill polynomial `k`. -/
def fillWrites (masks : Fin d → Poly d) (k : ℕ) : List (ℕ × Option ℤ) :=
  (List.finRange d).map fun j =>
    let c := maskCoefficient (masks j) k
    (j + k &&& (d - 1), if j + k ≥ d then negSigned 64 c else c)

/-- Polynomial `k` before the transform. -/
def fillRow (masks : Fin d → Poly d) (k : ℕ) : IntRow d :=
  fun i => applyWrites (fun _ => some 0) (fillWrites masks k) i

/-- The entry of a row at an index that is in range. -/
def rowAt (u : IntRow d) (i : ℕ) : Option ℤ := if h : i < d then u ⟨i, h⟩ else none

/-- The butterfly, on words of `width` bits. -/
def rowButterfly (width e : ℕ) (u old : IntRow d) : IntRow d × IntRow d :=
  let rot := 2 * e
  (fun i => if i < rot then subSigned width (u i) (rowAt old (d - rot + i))
      else addSigned width (u i) (rowAt old (i - rot)),
    fun i => if i < rot then addSigned width (u i) (rowAt old (d - rot + i))
      else subSigned width (u i) (rowAt old (i - rot)))

/-- The rounds in 64-bit words: the rows, and the block length that is left to do. -/
def narrowRounds (d q len : ℕ) (rows : ℕ → IntRow d) : (ℕ → IntRow d) × ℕ :=
  if _h : 0 < len ∧ len ≤ d ∧ len * (q - 1) ≤ 2 ^ 63 - 1 then
    narrowRounds d q (len * 2) (Fft.round (rowButterfly 64) d len rows)
  else (rows, len)
termination_by d + 1 - len
decreasing_by omega

/-- `integer_ring_fft_wide`. -/
def integerRingFftWide (rows : ℕ → IntRow d) (len : ℕ) : ℕ → IntRow d :=
  Fft.rounds (rowButterfly 128) d len rows

/-- The rows after the transform. -/
def aggregateRows (q : ℕ) (masks : Fin d → Poly d) : ℕ → IntRow d :=
  let (rows, len) := narrowRounds d q 2 (Fft.bitReverse d (fillRow masks))
  if len > d then rows else integerRingFftWide rows len

/-- `aggregate_masks` on `d` rows; an overflow is the panic of a checked build. -/
def aggregateMasks (q : ℕ) (masks : Fin d → Poly d) : Result (Fin d → Poly d) :=
  let rows := aggregateRows q masks
  if ∃ r i : Fin d, rows r i = none then .error (.panic "attempt to add with overflow")
  else .ok fun r i => ofInt ((rows r i).getD 0 / 2 ^ d.log2) &&& (q - 1)

end Code

/-! ## Rows as integer polynomials -/

section Rows

variable {q : ℕ}

/-- The integer polynomial of a row. -/
noncomputable def rowPoly (u : IntRow d) : NegRing d ℤ := ofCoeffs fun i => (u i).getD 0

/-- No coefficient has overflowed, and all are within the bound after `s` rounds. -/
def RowHolds (q s : ℕ) (u : IntRow d) : Prop :=
  ∀ i, ∃ z, u i = some z ∧ |z| ≤ 2 ^ s * ((q : ℤ) - 1)

theorem rowAt_of_lt (u : IntRow d) {i : ℕ} (hi : i < d) : rowAt u i = u ⟨i, hi⟩ := dif_pos hi

section Butterfly

variable [NeZero d] {width s e : ℕ} {u v : IntRow d}

/-- The entry that meets entry `i` in a butterfly is the rotated one, with its sign. -/
theorem RowHolds.rotated (hv : RowHolds q s v) (he : 2 * e < d) (i : Fin d) :
    ∃ b, |b| ≤ 2 ^ s * ((q : ℤ) - 1) ∧
      if (i : ℕ) < 2 * e then rowAt v (d - 2 * e + i) = some b ∧
        coeff ((x ^ 2) ^ e * rowPoly v) i = -b
      else rowAt v (i - 2 * e) = some b ∧ coeff ((x ^ 2) ^ e * rowPoly v) i = b := by
  rw [← pow_mul, coeff_x_pow_mul he]
  by_cases hi : (i : ℕ) < 2 * e
  · obtain ⟨b, hb, hble⟩ := hv ⟨i + d - 2 * e, by omega⟩
    have hidx : d - 2 * e + i = i + d - 2 * e := by omega
    refine ⟨b, hble, ?_⟩
    rw [if_pos hi, dif_neg (by omega), rowPoly, coeff_ofCoeffs, hb]
    refine ⟨?_, rfl⟩
    rw [hidx, rowAt_of_lt v (by omega), hb]
  · obtain ⟨b, hb, hble⟩ := hv ⟨i - 2 * e, by omega⟩
    refine ⟨b, hble, ?_⟩
    rw [if_neg hi, dif_pos (by omega), rowPoly, coeff_ofCoeffs, hb]
    refine ⟨?_, rfl⟩
    rw [rowAt_of_lt v (by omega), hb]

variable (hwidth : 2 ^ (s + 1) * ((q : ℤ) - 1) < 2 ^ (width - 1)) (he : 2 * e < d)
  (hu : RowHolds q s u) (hv : RowHolds q s v)

include hwidth he hu hv

/-- The entries of a sum fit the words of the round. -/
theorem RowHolds.exists_operands (i : Fin d) : ∃ a b, u i = some a ∧
    |a| + |b| < 2 ^ (width - 1) ∧ |a| + |b| ≤ 2 ^ (s + 1) * ((q : ℤ) - 1) ∧
      if (i : ℕ) < 2 * e then rowAt v (d - 2 * e + i) = some b ∧
        coeff ((x ^ 2) ^ e * rowPoly v) i = -b
      else rowAt v (i - 2 * e) = some b ∧ coeff ((x ^ 2) ^ e * rowPoly v) i = b := by
  obtain ⟨a, ha, hale⟩ := hu i
  obtain ⟨b, hble, hb⟩ := hv.rotated he i
  have hsum : |a| + |b| ≤ 2 ^ (s + 1) * ((q : ℤ) - 1) := by
    calc |a| + |b| ≤ 2 ^ s * ((q : ℤ) - 1) + 2 ^ s * ((q : ℤ) - 1) := add_le_add hale hble
      _ = 2 ^ (s + 1) * ((q : ℤ) - 1) := by ring
  exact ⟨a, b, ha, hsum.trans_lt hwidth, hsum, hb⟩

/-- The first row adds the rotated one. -/
theorem rowButterfly_fst (i : Fin d) : ∃ z, (rowButterfly width e u v).1 i = some z ∧
    |z| ≤ 2 ^ (s + 1) * ((q : ℤ) - 1) ∧
      z = (u i).getD 0 + coeff ((x ^ 2) ^ e * rowPoly v) i := by
  obtain ⟨a, b, ha, hfits, hle, hb⟩ := hu.exists_operands hwidth he hv i
  show ∃ z, (if (i : ℕ) < 2 * e then subSigned width (u i) (rowAt v (d - 2 * e + i))
    else addSigned width (u i) (rowAt v (i - 2 * e))) = some z ∧ _
  rw [ha]
  by_cases hi : (i : ℕ) < 2 * e
  · rw [if_pos hi] at hb ⊢
    rw [hb.1, subSigned_some hfits, hb.2]
    exact ⟨_, rfl, (abs_sub a b).trans hle, rfl⟩
  · rw [if_neg hi] at hb ⊢
    rw [hb.1, addSigned_some hfits, hb.2]
    exact ⟨_, rfl, (abs_add_le a b).trans hle, rfl⟩

/-- The second row subtracts it. -/
theorem rowButterfly_snd (i : Fin d) : ∃ z, (rowButterfly width e u v).2 i = some z ∧
    |z| ≤ 2 ^ (s + 1) * ((q : ℤ) - 1) ∧
      z = (u i).getD 0 - coeff ((x ^ 2) ^ e * rowPoly v) i := by
  obtain ⟨a, b, ha, hfits, hle, hb⟩ := hu.exists_operands hwidth he hv i
  show ∃ z, (if (i : ℕ) < 2 * e then addSigned width (u i) (rowAt v (d - 2 * e + i))
    else subSigned width (u i) (rowAt v (i - 2 * e))) = some z ∧ _
  rw [ha]
  by_cases hi : (i : ℕ) < 2 * e
  · rw [if_pos hi] at hb ⊢
    rw [hb.1, addSigned_some hfits, hb.2]
    exact ⟨_, rfl, (abs_add_le a b).trans hle, (sub_neg_eq_add a b).symm⟩
  · rw [if_neg hi] at hb ⊢
    rw [hb.1, subSigned_some hfits, hb.2]
    exact ⟨_, rfl, (abs_sub a b).trans hle, rfl⟩

end Butterfly

/-- **One butterfly** rotates exactly and doubles the bound, in words that hold the doubled
bound. -/
theorem rowButterfly_grows [NeZero d] {width s m : ℕ} (hd : d = 2 ^ (m + 1))
    (hwidth : 2 ^ (s + 1) * ((q : ℤ) - 1) < 2 ^ (width - 1)) :
    Fft.IsGrowing rowPoly (RowHolds (d := d) q s) (x ^ 2) (RowHolds q (s + 1)) (2 ^ m)
      (rowButterfly width) := by
  have hlt {e : ℕ} (he : e < 2 ^ m) : 2 * e < d := by
    rw [hd, pow_succ]
    omega
  constructor
  · intro e he u v hu hv i
    obtain ⟨z, hz, hle, -⟩ := rowButterfly_fst hwidth (hlt he) hu hv i
    exact ⟨z, hz, hle⟩
  · intro e he u v hu hv i
    obtain ⟨z, hz, hle, -⟩ := rowButterfly_snd hwidth (hlt he) hu hv i
    exact ⟨z, hz, hle⟩
  · intro e he u v hu hv
    refine ext_coeff fun i => ?_
    obtain ⟨z, hz, -, hval⟩ := rowButterfly_fst hwidth (hlt he) hu hv i
    rw [rowPoly, coeff_ofCoeffs, hz, coeff_add, rowPoly, coeff_ofCoeffs]
    exact hval
  · intro e he u v hu hv
    refine ext_coeff fun i => ?_
    obtain ⟨z, hz, -, hval⟩ := rowButterfly_snd hwidth (hlt he) hu hv i
    rw [rowPoly, coeff_ofCoeffs, hz, coeff_sub, rowPoly, coeff_ofCoeffs]
    exact hval

/-! ## Filling the rows -/

/-- The integer mask polynomial of a row. -/
noncomputable def intMask [NeZero d] (row : Poly d) : NegRing d ℤ := maskPoly fun i => (row i : ℤ)

/-- The coefficients with index `k` of all mask polynomials. -/
noncomputable def maskSlice [NeZero d] (masks : Fin d → Poly d) (k : Fin d) : NegRing d ℤ :=
  ofCoeffs fun j => coeff (intMask (masks j)) k

theorem maskCoefficient_eq [NeZero d] (hq : q ≤ 2 ^ 56) {row : Poly d} (hrow : ∀ i, row i < q)
    (k : Fin d) : maskCoefficient row k = some (coeff (intMask row) k) ∧
      |coeff (intMask row) k| ≤ (q : ℤ) - 1 := by
  have hword (i : Fin d) : toInt (row i) = row i := by
    have hlt : row i < W64 / 2 := (hrow i).trans_le (hq.trans (by decide))
    rw [toInt, if_pos hlt]
  have habs (i : Fin d) : |(row i : ℤ)| ≤ (q : ℤ) - 1 := by
    have hlt := hrow i
    rw [abs_of_nonneg (Int.natCast_nonneg _)]
    omega
  rw [intMask, maskPoly_eq_ofCoeffs, coeff_ofCoeffs]
  by_cases hk : k = 0
  · subst hk
    refine ⟨?_, habs 0⟩
    rw [maskCoefficient, Fin.val_zero, if_pos rfl, coeffAt_of_lt _ (NeZero.pos d)]
    exact congrArg some (hword 0)
  · have hk' : (k : ℕ) ≠ 0 := fun h => hk (Fin.ext h)
    have hval : d - (k : ℕ) = ((-k : Fin d) : ℕ) := by
      rw [Fin.val_neg', Nat.mod_eq_of_lt (by have := k.2; omega)]
    have hfits : |(row (-k) : ℤ)| < 2 ^ (64 - 1) := by
      refine (habs _).trans_lt ?_
      have hq' : (q : ℤ) ≤ 2 ^ 56 := by exact_mod_cast hq
      linarith [show (2 : ℤ) ^ 56 < 2 ^ (64 - 1) by norm_num]
    rw [if_neg hk, abs_neg, maskCoefficient, if_neg hk', hval, coeffAt_of_lt _ (-k).2, hword,
      negSigned_some hfits]
    exact ⟨rfl, habs _⟩

/-- **The rows before the transform**: row `k` is `X^k` times slice `k`. -/
theorem fillRow_eq [NeZero d] (hd : IsPowerOfTwo d) (hq : q ≤ 2 ^ 56) {masks : Fin d → Poly d}
    (hmasks : ∀ j i, masks j i < q) (k : Fin d) :
    (∀ i, fillRow masks k i = some (coeff (x ^ (k : ℕ) * maskSlice masks k) i)) ∧
      ∀ i, |coeff (x ^ (k : ℕ) * maskSlice masks k) i| ≤ (q : ℤ) - 1 := by
  have hcoeff (j : Fin d) := maskCoefficient_eq hq (hmasks j) k
  have hk := k.2
  have hbound : CoeffsLe (maskSlice masks k) ((q : ℤ) - 1) := by
    intro j
    rw [maskSlice, coeff_ofCoeffs]
    exact (hcoeff j).2
  refine ⟨fun i => ?_, hbound.x_pow_mul hk⟩
  -- Every write stores the coefficient that belongs to its position.
  have hwrite (j i : Fin d) (hi : (j + k) % d = (i : ℕ)) :
      (if (j : ℕ) + k ≥ d then negSigned 64 (maskCoefficient (masks j) k)
        else maskCoefficient (masks j) k) =
        some (coeff (x ^ (k : ℕ) * maskSlice masks k) i) := by
    have hj := j.2
    have hfits : |coeff (intMask (masks j)) k| < 2 ^ (64 - 1) := by
      refine (hcoeff j).2.trans_lt ?_
      have hq' : (q : ℤ) ≤ 2 ^ 56 := by exact_mod_cast hq
      linarith [show (2 : ℤ) ^ 56 < 2 ^ (64 - 1) by norm_num]
    rw [(hcoeff j).1, coeff_x_pow_mul hk]
    by_cases hwrap : (j : ℕ) + k ≥ d
    · rw [Nat.mod_eq_sub_mod hwrap, Nat.mod_eq_of_lt (by omega)] at hi
      have hsrc : (⟨(i : ℕ) + d - k, by omega⟩ : Fin d) = j := Fin.ext (by simp only; omega)
      rw [if_pos hwrap, dif_neg (by omega), negSigned_some hfits, hsrc, maskSlice, coeff_ofCoeffs]
    · rw [Nat.mod_eq_of_lt (by omega)] at hi
      have hsrc : (⟨(i : ℕ) - k, by omega⟩ : Fin d) = j := Fin.ext (by simp only; omega)
      rw [if_neg hwrap, dif_pos (by omega), hsrc, maskSlice, coeff_ofCoeffs]
  rw [fillRow]
  have hwrites : ∀ w ∈ fillWrites masks k, ∃ j : Fin d, w = ((j + k) % d,
      if (j : ℕ) + k ≥ d then negSigned 64 (maskCoefficient (masks j) k)
        else maskCoefficient (masks j) k) := by
    intro w hw
    obtain ⟨j, -, rfl⟩ := List.mem_map.mp hw
    exact ⟨j, by rw [← and_sub_one_eq_mod hd]⟩
  refine applyWrites_eq _ _ (fun n => if h : n < d then
    some (coeff (x ^ (k : ℕ) * maskSlice masks k) ⟨n, h⟩) else none) (fun w hw => ?_) i ?_ |>.trans
      (dif_pos i.2)
  · obtain ⟨j, rfl⟩ := hwrites w hw
    have hlt := Nat.mod_lt ((j : ℕ) + k) (NeZero.pos d)
    simp only
    rw [dif_pos hlt]
    exact hwrite j ⟨_, hlt⟩ rfl
  · -- Position `i` is written by index `i - k`, taken modulo the degree.
    have hlt := Nat.mod_lt ((i : ℕ) + d - k) (NeZero.pos d)
    refine ⟨_, List.mem_map.mpr ⟨⟨_, hlt⟩, List.mem_finRange _, rfl⟩, ?_⟩
    show ((i : ℕ) + d - k) % d + k &&& (d - 1) = i
    rw [and_sub_one_eq_mod hd, Nat.mod_add_mod, Nat.sub_add_cancel (by omega), Nat.add_mod_right,
      Nat.mod_eq_of_lt i.2]

theorem rowPoly_eq {u : IntRow d} {p : NegRing d ℤ} [NeZero d] (hu : ∀ i, u i = some (coeff p i)) :
    rowPoly u = p := by
  refine ext_coeff fun i => ?_
  rw [rowPoly, coeff_ofCoeffs, hu]
  rfl

/-! ## The rounds -/

/-- **The 64-bit rounds** stop at a block length, with the invariant for it. -/
theorem narrowRounds_spec [NeZero d] {m : ℕ} (hd : d = 2 ^ (m + 1)) (hq : 0 < q) {s r : ℕ}
    (hsr : s + r = m + 1) {a b : ℕ → IntRow d}
    (hb : Fft.RoundInv rowPoly (RowHolds q s) (x ^ 2) s r a b) :
    ∃ s' r', s' + r' = m + 1 ∧ (narrowRounds d q (2 ^ s * 2) b).2 = 2 ^ s' * 2 ∧
      Fft.RoundInv rowPoly (RowHolds q s') (x ^ 2) s' r' a
        (narrowRounds d q (2 ^ s * 2) b).1 := by
  have hω : ((x : NegRing d ℤ) ^ 2) ^ 2 ^ m = -1 := by
    rw [← pow_mul, ← pow_succ', ← hd, x_pow_d]
  induction r generalizing s b with
  | zero =>
      refine ⟨s, 0, hsr, ?_⟩
      obtain rfl : s = m + 1 := by omega
      have hpos : 0 < 2 ^ (m + 1) := Nat.two_pow_pos _
      rw [narrowRounds, dif_neg (by omega)]
      exact ⟨rfl, hb⟩
  | succ r ih =>
      rw [narrowRounds]
      split
      · next hnarrow =>
        obtain ⟨-, -, hfits⟩ := hnarrow
        have hwidth : 2 ^ (s + 1) * ((q : ℤ) - 1) < 2 ^ (64 - 1) := by
          have hcast : ((2 ^ s * 2 * (q - 1) : ℕ) : ℤ) ≤ ((2 ^ 63 - 1 : ℕ) : ℤ) := by
            exact_mod_cast hfits
          push_cast [Nat.cast_sub hq] at hcast
          rw [pow_succ]
          norm_num at hcast ⊢
          linarith
        have hm : m = s + r := by omega
        have hlen : d = 2 ^ r * (2 ^ s * 2) := by
          rw [hd, hm, pow_succ, pow_add]
          ring
        have hgrow := rowButterfly_grows (s := s) hd hwidth
        have hstep := Fft.round_step (hm ▸ hgrow) (hm ▸ hω) hb
        rw [← hlen, ← pow_succ 2 s] at hstep
        obtain ⟨s', r', hsr', hlen', hinv⟩ := ih (s := s + 1) (by omega) hstep
        exact ⟨s', r', hsr', hlen', hinv⟩
      · exact ⟨s, r + 1, hsr, rfl, hb⟩

/-- The rows after the transform: no coefficient has overflowed, and row `r` is the sum of the rows
before it with the twiddles of `r`. -/
theorem aggregateRows_spec [NeZero d] (P : NativeParams d q) {masks : Fin d → Poly d}
    (hmasks : ∀ j i, masks j i < q) {r : ℕ} (hr : r < d) :
    RowHolds q d.log2 (aggregateRows q masks r) ∧ rowPoly (aggregateRows q masks r) =
      ∑ k ∈ Finset.range d, (x ^ 2) ^ (r * k) * rowPoly (fillRow masks k) := by
  obtain ⟨m, hd, hm⟩ := P.exists_d_eq
  have hω : ((x : NegRing d ℤ) ^ 2) ^ 2 ^ m = -1 := by
    rw [← pow_mul, ← pow_succ', ← hd, x_pow_d]
  have hfill : ∀ k < 2 ^ (m + 1), RowHolds q 0 (fillRow masks k) := by
    intro k hk i
    obtain ⟨hrow, hbound⟩ := fillRow_eq P.d_eq P.q_le hmasks ⟨k, hd ▸ hk⟩
    exact ⟨_, hrow i, by rw [pow_zero, one_mul]; exact hbound i⟩
  have hstart := Fft.roundInv_bitReverse (ρ := rowPoly) (ω := x ^ 2) hfill
  rw [← hd] at hstart
  obtain ⟨s, r', hsr, hlen, hinv⟩ := narrowRounds_spec hd P.q_pos (zero_add (m + 1)) hstart
  rw [pow_zero, one_mul] at hlen hinv
  -- The 128-bit words hold the bound of every round.
  have hwide (s' : ℕ) (hs : s' ≤ m) : 2 ^ (s' + 1) * ((q : ℤ) - 1) < 2 ^ (128 - 1) := by
    have hpow : (2 : ℤ) ^ (s' + 1) ≤ 2 ^ 11 := pow_le_pow_right₀ (by norm_num) (by omega)
    have hq : (q : ℤ) - 1 ≤ 2 ^ 56 := by
      have hle : (q : ℤ) ≤ 2 ^ 56 := by exact_mod_cast P.q_le
      linarith
    have hnonneg : (0 : ℤ) ≤ (q : ℤ) - 1 := by
      have hpos := P.q_pos
      omega
    calc 2 ^ (s' + 1) * ((q : ℤ) - 1) ≤ 2 ^ 11 * 2 ^ 56 := mul_le_mul hpow hq hnonneg (by norm_num)
      _ < 2 ^ (128 - 1) := by norm_num
  have hend : Fft.RoundInv rowPoly (RowHolds q (m + 1)) (x ^ 2) (m + 1) 0 (fillRow masks)
      (aggregateRows q masks) := by
    unfold aggregateRows
    dsimp only
    rw [hlen]
    split
    · next hdone =>
      -- The block length is past the degree only after the last round.
      have hle : m + 1 ≤ s := by
        by_contra hlt
        have hpow : 2 ^ s * 2 ≤ 2 ^ (m + 1) := by
          rw [← pow_succ]
          exact Nat.pow_le_pow_right two_pos (by omega)
        omega
      obtain rfl : s = m + 1 := by omega
      obtain rfl : r' = 0 := by omega
      exact hinv
    · have hgrow := Fft.rounds_grow (RowHolds q) hω
        (fun s' _ hs' => rowButterfly_grows hd (hwide s' hs')) hsr hinv
      rw [← hd] at hgrow
      exact hgrow
  have hlog : d.log2 = m + 1 := by rw [hd, Nat.log2_two_pow]
  rw [hlog]
  obtain ⟨hgood, hval⟩ := hend.entry (hd ▸ hr)
  refine ⟨hgood, ?_⟩
  rw [← hd] at hval
  exact hval

end Rows

/-! ## The traces -/

section Trace

variable {q : ℕ}

/-- The integer trace at the exponent `g`. -/
noncomputable def intTrace [NeZero d] (masks : Fin d → Poly d) (g : ℕ) : NegRing d ℤ :=
  ∑ j : Fin d, x ^ (j : ℕ) * tau g (intMask (masks j))

/-- The transform of the filled rows is the trace. -/
theorem sum_fillRow [NeZero d] (hd : IsPowerOfTwo d) (hq : q ≤ 2 ^ 56) {masks : Fin d → Poly d}
    (hmasks : ∀ j i, masks j i < q) (r : ℕ) :
    ∑ k ∈ Finset.range d, (x ^ 2) ^ (r * k) * rowPoly (fillRow masks k) =
      intTrace masks (2 * r + 1) := by
  have hrow (k : Fin d) : rowPoly (fillRow masks k) = x ^ (k : ℕ) * maskSlice masks k :=
    rowPoly_eq (fillRow_eq hd hq hmasks k).1
  have htau (j : Fin d) : tau (2 * r + 1) (intMask (masks j)) =
      ∑ k, coeff (intMask (masks j)) k • x ^ ((2 * r + 1) * (k : ℕ)) := by
    conv_lhs => rw [← sum_coeff_smul (intMask (masks j)), map_sum]
    refine Finset.sum_congr rfl fun k _ => ?_
    rw [map_smul, map_pow, tau_x (odd_two_mul_add_one r), ← pow_mul]
  calc ∑ k ∈ Finset.range d, (x ^ 2) ^ (r * k) * rowPoly (fillRow masks k)
      = ∑ k : Fin d, x ^ ((2 * r + 1) * (k : ℕ)) * maskSlice masks k := by
        rw [Finset.sum_range]
        refine Finset.sum_congr rfl fun k _ => ?_
        rw [hrow, ← mul_assoc, ← pow_mul, ← pow_add]
        congr 2
        ring
    _ = ∑ k : Fin d, ∑ j : Fin d,
          coeff (intMask (masks j)) k • (x ^ (j : ℕ) * x ^ ((2 * r + 1) * (k : ℕ))) := by
        refine Finset.sum_congr rfl fun k _ => ?_
        rw [maskSlice, ofCoeffs_apply, Finset.mul_sum]
        refine Finset.sum_congr rfl fun j _ => ?_
        rw [mul_smul_comm, mul_comm]
    _ = intTrace masks (2 * r + 1) := by
        rw [Finset.sum_comm, intTrace]
        refine Finset.sum_congr rfl fun j _ => ?_
        rw [htau, Finset.mul_sum]
        exact Finset.sum_congr rfl fun k _ => (mul_smul_comm _ _ _).symm

/-- **The aggregation is exact**: no operation of either width overflows, and the entry of an odd
exponent is the floor of its integer trace by the degree, modulo `q`. -/
theorem aggregateMasks_exact [NeZero d] (P : NativeParams d q) {masks : Fin d → Poly d}
    (hmasks : ∀ j i, masks j i < q) :
    ∃ out, aggregateMasks q masks = .ok out ∧
      ∀ g, Odd g → g < 2 * d → ∀ r : Fin d, (r : ℕ) = (g - 1) / 2 →
        ∀ i, out r i = (coeff (intTrace masks g) i / (d : ℤ) % (q : ℤ)).toNat := by
  have hfits : ¬∃ r i : Fin d, aggregateRows q masks r i = none := by
    rintro ⟨r, i, hnone⟩
    obtain ⟨z, hz, -⟩ := (aggregateRows_spec P hmasks r.2).1 i
    rw [hnone] at hz
    cases hz
  refine ⟨_, if_neg hfits, ?_⟩
  rintro g ⟨n, rfl⟩ - r hr i
  obtain rfl : n = r := by omega
  have hrow := (aggregateRows_spec P hmasks r.2).2
  rw [sum_fillRow P.d_eq P.q_le hmasks] at hrow
  have hcoeff : (aggregateRows q masks r i).getD 0 = coeff (intTrace masks (2 * r + 1)) i := by
    rw [← hrow, rowPoly, coeff_ofCoeffs]
  have hd : ((2 ^ d.log2 : ℕ) : ℤ) = d := congrArg _ P.d_eq
  rw [hcoeff, ofInt_mask P.dvd_W64 P.isPowerOfTwo]
  push_cast at hd
  rw [hd]

/-- The aggregation of four constant rows at degree four. -/
theorem aggregateMasks_exact_small : ∃ out, aggregateMasks (d := 4) (2 ^ 16) (fun _ _ => 65535) =
    .ok out ∧ ∀ g, Odd g → g < 2 * 4 → ∀ r : Fin 4, (r : ℕ) = (g - 1) / 2 → ∀ i, out r i =
      (coeff (intTrace (d := 4) (fun _ _ => 65535) g) i / ((4 : ℕ) : ℤ) %
        ((2 ^ 16 : ℕ) : ℤ)).toNat :=
  aggregateMasks_exact smallNativeParams fun _ _ => by
    show 65535 < 2 ^ 16
    decide

end Trace

end Reinspiring
