import IpirSp.Negacyclic.Automorphism
import Mathlib.RingTheory.ZMod.UnitsCyclic

/-!
# The odd exponents as signed powers of five

Modulo `2 * d`, for `d` a power of two, the odd residues are exactly the powers `5^i` with
`i < d/2` and their negatives.  A cascade that folds one slot into the previous one needs this
enumeration: consecutive slots then differ by the single automorphism of exponent five, and the
two halves by the automorphism of exponent `2 * d - 1`.

`sum_odd_eq` is the enumeration as an equality of sums, and `trace_eq` is the trace of
`IpirSp.Negacyclic.Automorphism` in that order.
-/

namespace Negacyclic

variable {d t : ℕ}

/-- The `i`-th exponent of the left half. -/
def leftExp (d i : ℕ) : ℕ := 5 ^ i % (2 * d)

/-- The `i`-th exponent of the right half, the negative of the left one. -/
def rightExp (d i : ℕ) : ℕ := 5 ^ i * (2 * d - 1) % (2 * d)

theorem odd_two_mul_sub_one (hd : 0 < d) : Odd (2 * d - 1) := ⟨d - 1, by omega⟩

theorem odd_five_pow (i : ℕ) : Odd (5 ^ i) := Odd.pow ⟨2, rfl⟩

theorem odd_leftExp (d i : ℕ) : Odd (leftExp d i) := odd_mod_two_mul (odd_five_pow i) d

theorem odd_rightExp (hd : 0 < d) (i : ℕ) : Odd (rightExp d i) :=
  odd_mod_two_mul ((odd_five_pow i).mul (odd_two_mul_sub_one hd)) d

theorem leftExp_lt (hd : 0 < d) (i : ℕ) : leftExp d i < 2 * d := Nat.mod_lt _ (by omega)

theorem rightExp_lt (hd : 0 < d) (i : ℕ) : rightExp d i < 2 * d := Nat.mod_lt _ (by omega)

@[simp] theorem leftExp_zero (hd : 0 < d) : leftExp d 0 = 1 := by
  rw [leftExp, pow_zero, Nat.mod_eq_of_lt (by omega)]

@[simp] theorem rightExp_zero (hd : 0 < d) : rightExp d 0 = 2 * d - 1 := by
  rw [rightExp, pow_zero, one_mul, Nat.mod_eq_of_lt (by omega)]

theorem leftExp_succ (d i : ℕ) : leftExp d i * 5 ≡ leftExp d (i + 1) [MOD 2 * d] := by
  simp only [leftExp, pow_succ, Nat.ModEq, Nat.mod_mul_mod, Nat.mod_mod]

theorem rightExp_succ (d i : ℕ) : rightExp d i * 5 ≡ rightExp d (i + 1) [MOD 2 * d] := by
  have h : 5 ^ (i + 1) * (2 * d - 1) = 5 ^ i * (2 * d - 1) * 5 := by ring
  simp only [rightExp, h, Nat.ModEq, Nat.mod_mul_mod, Nat.mod_mod]

theorem leftExp_mul_neg (d i : ℕ) : leftExp d i * (2 * d - 1) ≡ rightExp d i [MOD 2 * d] := by
  simp only [leftExp, rightExp, Nat.ModEq, Nat.mod_mul_mod, Nat.mod_mod]

theorem four_dvd_two_mul (hd : d = 2 ^ t) (ht : 0 < t) : 4 ∣ 2 * d := by
  obtain ⟨n, rfl⟩ : ∃ n, t = n + 1 := ⟨t - 1, by omega⟩
  exact ⟨2 ^ n, by rw [hd, pow_succ]; ring⟩

theorem leftExp_mod_four (hd : d = 2 ^ t) (ht : 0 < t) (i : ℕ) : leftExp d i % 4 = 1 := by
  rw [leftExp, Nat.mod_mod_of_dvd _ (four_dvd_two_mul hd ht), Nat.pow_mod]
  simp

theorem rightExp_mod_four (hd : d = 2 ^ t) (ht : 0 < t) (i : ℕ) : rightExp d i % 4 = 3 := by
  obtain ⟨m, hm⟩ := four_dvd_two_mul hd ht
  have hpos : 0 < d := hd ▸ Nat.two_pow_pos t
  rw [rightExp, Nat.mod_mod_of_dvd _ (four_dvd_two_mul hd ht), Nat.mul_mod, Nat.pow_mod]
  have : (2 * d - 1) % 4 = 3 := by omega
  simp [this]

/-- Powers of five below half the degree are distinct modulo `2 * d`. -/
theorem five_pow_inj (hd : d = 2 ^ t) (ht : 0 < t) {i j : ℕ} (hi : i < d / 2) (hj : j < d / 2)
    (h : 5 ^ i ≡ 5 ^ j [MOD 2 * d]) : i = j := by
  obtain ⟨n, rfl⟩ : ∃ n, t = n + 1 := ⟨t - 1, by omega⟩
  have hhalf : d / 2 = 2 ^ n := by rw [hd, pow_succ, Nat.mul_div_cancel _ two_pos]
  have hmod : 2 * d = 2 ^ (n + 2) := by rw [hd]; ring
  have hcast : (5 : ZMod (2 ^ (n + 2))) ^ i = 5 ^ j := by
    rw [hmod] at h
    exact_mod_cast (ZMod.natCast_eq_natCast_iff _ _ _).mpr h
  refine pow_injOn_Iio_orderOf ?_ ?_ hcast
  · rw [Set.mem_Iio, ZMod.orderOf_five, ← hhalf]
    exact hi
  · rw [Set.mem_Iio, ZMod.orderOf_five, ← hhalf]
    exact hj

theorem leftExp_inj (hd : d = 2 ^ t) (ht : 0 < t) {i j : ℕ} (hi : i < d / 2) (hj : j < d / 2)
    (h : leftExp d i = leftExp d j) : i = j :=
  five_pow_inj hd ht hi hj h

theorem rightExp_inj (hd : d = 2 ^ t) (ht : 0 < t) {i j : ℕ} (hi : i < d / 2) (hj : j < d / 2)
    (h : rightExp d i = rightExp d j) : i = j := by
  refine five_pow_inj hd ht hi hj (Nat.ModEq.cancel_right_of_coprime ?_ h)
  have hpos : 0 < d := hd ▸ Nat.two_pow_pos t
  have hsub : 2 * d = 2 * d - 1 + 1 := by omega
  rw [Nat.gcd_comm]
  conv_lhs => rw [hsub, Nat.add_sub_cancel]
  exact Nat.coprime_self_add_right.mpr (Nat.coprime_one_right _)

/-- **The odd exponents are the two signed halves of the powers of five.** -/
theorem sum_odd_eq {M : Type*} [AddCommMonoid M] (hd : d = 2 ^ t) (ht : 0 < t) (f : ℕ → M) :
    ∑ k ∈ Finset.range d, f (2 * k + 1) =
      ∑ i ∈ Finset.range (d / 2), f (leftExp d i) + ∑ i ∈ Finset.range (d / 2),
        f (rightExp d i) := by
  have hpos : 0 < d := hd ▸ Nat.two_pow_pos t
  have heven : 2 ∣ d := hd ▸ dvd_pow_self 2 ht.ne'
  let odds := (Finset.range d).image fun k => 2 * k + 1
  let left := (Finset.range (d / 2)).image (leftExp d)
  let right := (Finset.range (d / 2)).image (rightExp d)
  have hleft : Set.InjOn (leftExp d) (Finset.range (d / 2)) := fun i hi j hj h =>
    leftExp_inj hd ht (Finset.mem_range.mp hi) (Finset.mem_range.mp hj) h
  have hright : Set.InjOn (rightExp d) (Finset.range (d / 2)) := fun i hi j hj h =>
    rightExp_inj hd ht (Finset.mem_range.mp hi) (Finset.mem_range.mp hj) h
  have hodds : Set.InjOn (fun k => 2 * k + 1) (Finset.range d) := fun i _ j _ h => by
    simpa using h
  -- The two halves lie in different classes modulo four.
  have hdisj : Disjoint left right := by
    rw [Finset.disjoint_left]
    intro e hl hr
    obtain ⟨i, -, rfl⟩ := Finset.mem_image.mp hl
    obtain ⟨j, -, hj⟩ := Finset.mem_image.mp hr
    have h1 := leftExp_mod_four hd ht i
    have h3 := rightExp_mod_four hd ht j
    omega
  have hmem (e : ℕ) (he : Odd e) (hlt : e < 2 * d) : e ∈ odds := by
    obtain ⟨k, rfl⟩ := he
    exact Finset.mem_image.mpr ⟨k, Finset.mem_range.mpr (by omega), rfl⟩
  have hsub : left ∪ right ⊆ odds := by
    intro e he
    rcases Finset.mem_union.mp he with hl | hr
    · obtain ⟨i, -, rfl⟩ := Finset.mem_image.mp hl
      exact hmem _ (odd_leftExp d i) (Nat.mod_lt _ (by omega))
    · obtain ⟨i, -, rfl⟩ := Finset.mem_image.mp hr
      exact hmem _ (odd_rightExp hpos i) (Nat.mod_lt _ (by omega))
  have hcard : odds.card ≤ (left ∪ right).card := by
    rw [Finset.card_union_of_disjoint hdisj, Finset.card_image_of_injOn hodds,
      Finset.card_image_of_injOn hleft, Finset.card_image_of_injOn hright]
    simp only [Finset.card_range]
    omega
  have heq : left ∪ right = odds := Finset.eq_of_subset_of_card_le hsub hcard
  calc ∑ k ∈ Finset.range d, f (2 * k + 1)
      = ∑ e ∈ odds, f e := (Finset.sum_image hodds).symm
    _ = ∑ e ∈ left, f e + ∑ e ∈ right, f e := by rw [← heq, Finset.sum_union hdisj]
    _ = _ := by rw [Finset.sum_image hleft, Finset.sum_image hright]

/-- The trace, summed in the order of the two halves. -/
theorem trace_eq {R : Type*} [CommRing R] [NeZero d] (hd : d = 2 ^ t) (ht : 0 < t)
    (p : NegRing d R) :
    ∑ i ∈ Finset.range (d / 2), tau (leftExp d i) p +
      ∑ i ∈ Finset.range (d / 2), tau (rightExp d i) p = ((d : R) * coeff p 0) • 1 := by
  rw [← sum_tau hd, sum_odd_eq hd ht fun e => tau e p]

end Negacyclic
