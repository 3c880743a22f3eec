import IpirSp.Loops.Pairs

/-!
# Bit reversal by a reversed counter

An in-place transform of length `n = 2^m` first moves entry `i` to the position with the bits of
`i` reversed.  The loop `bitReverse` keeps a counter `j` that it increments from the top bit down
(`reverseIncrement`), so that `j` is the reversal of the loop index, and swaps where `i < j`.

`reverseIncrement_rev` is the step of the counter, and `bitReverse_apply` the result: the loop
reads entry `i` of the initial array at position `rev m i`.
-/

namespace Fft

open Loops

/-- Add one in reversed order: clear set bits from `bit` down, then set the first clear one. -/
def reverseIncrement (bit j : ℕ) : ℕ :=
  if _h : bit ≠ 0 ∧ j &&& bit ≠ 0 then reverseIncrement (bit / 2) (j ^^^ bit) else j ^^^ bit
termination_by bit
decreasing_by omega

section Loop

variable {α : Type}

/-- Exchange two entries. -/
def swapCells (u v : α) : α × α := (v, u)

/-- The permutation loop: the array and the reversed counter after each index. -/
def bitReverse (n : ℕ) (a : ℕ → α) : ℕ → α :=
  ((List.range' 1 (n - 1)).foldl (fun (state : (ℕ → α) × ℕ) i =>
    let j := reverseIncrement (n / 2) state.2
    (if i < j then pairStep Prod.fst Prod.snd (fun _ => swapCells) state.1 (i, j) else state.1, j))
    (a, 0)).1

end Loop

/-- The lowest `m` bits of `i`, reversed. -/
def rev : ℕ → ℕ → ℕ
  | 0, _ => 0
  | m + 1, i => i % 2 * 2 ^ m + rev m (i / 2)

theorem rev_succ (m i : ℕ) : rev (m + 1) i = i % 2 * 2 ^ m + rev m (i / 2) := rfl

@[simp] theorem rev_zero (m : ℕ) : rev m 0 = 0 := by
  induction m with
  | zero => rfl
  | succ m ih => rw [rev_succ, Nat.zero_mod, zero_mul, zero_add, Nat.zero_div, ih]

theorem rev_lt (m i : ℕ) : rev m i < 2 ^ m := by
  induction m generalizing i with
  | zero => exact one_pos
  | succ m ih =>
      have hrest := ih (i / 2)
      have hbit : i % 2 * 2 ^ m ≤ 1 * 2 ^ m := Nat.mul_le_mul_right _ (by omega)
      rw [rev_succ, pow_succ]
      omega

theorem rev_two_mul (m i : ℕ) : rev (m + 1) (2 * i) = rev m i := by
  rw [rev_succ, Nat.mul_mod_right, zero_mul, zero_add, Nat.mul_div_cancel_left _ two_pos]

theorem rev_two_mul_add_one (m i : ℕ) : rev (m + 1) (2 * i + 1) = rev m i + 2 ^ m := by
  rw [rev_succ, show (2 * i + 1) % 2 = 1 by omega, show (2 * i + 1) / 2 = i by omega, one_mul,
    add_comm]

/-- The top bit of the argument is the bottom bit of the reversal. -/
theorem rev_add_two_pow (m i : ℕ) (hi : i < 2 ^ m) (b : ℕ) (hb : b < 2) :
    rev (m + 1) (b * 2 ^ m + i) = 2 * rev m i + b := by
  induction m generalizing i with
  | zero =>
      obtain rfl : i = 0 := by simpa using hi
      simp only [rev, pow_zero, mul_one, add_zero, mul_zero, zero_add]
      omega
  | succ m ih =>
      have hhalf : i / 2 < 2 ^ m := by
        rw [pow_succ] at hi
        omega
      have hdiv : (b * 2 ^ (m + 1) + i) / 2 = b * 2 ^ m + i / 2 := by
        rw [pow_succ, ← mul_assoc]
        omega
      have hmod : (b * 2 ^ (m + 1) + i) % 2 = i % 2 := by
        rw [pow_succ, ← mul_assoc]
        omega
      rw [rev_succ (m + 1), hdiv, hmod, ih _ hhalf, rev_succ m i, pow_succ]
      ring

/-- Complementing the bits of the argument complements those of the reversal. -/
theorem rev_complement (m i : ℕ) (hi : i < 2 ^ m) :
    rev m (2 ^ m - 1 - i) = 2 ^ m - 1 - rev m i := by
  induction m generalizing i with
  | zero => rfl
  | succ m ih =>
      have hpow : 2 ^ (m + 1) = 2 * 2 ^ m := by rw [pow_succ, mul_comm]
      have hhalf : i / 2 < 2 ^ m := by omega
      have hdiv : (2 ^ (m + 1) - 1 - i) / 2 = 2 ^ m - 1 - i / 2 := by omega
      have hmod : (2 ^ (m + 1) - 1 - i) % 2 = 1 - i % 2 := by omega
      have hlt := rev_lt m (i / 2)
      rw [rev_succ, hdiv, hmod, ih _ hhalf, rev_succ, Nat.sub_mul, one_mul, hpow]
      have hbit : i % 2 * 2 ^ m ≤ 1 * 2 ^ m := Nat.mul_le_mul_right _ (by omega)
      omega

/-- **Bit reversal is an involution.** -/
theorem rev_rev (m i : ℕ) (hi : i < 2 ^ m) : rev m (rev m i) = i := by
  induction m generalizing i with
  | zero =>
      obtain rfl : i = 0 := by simpa using hi
      rfl
  | succ m ih =>
      have hhalf : i / 2 < 2 ^ m := by
        rw [pow_succ] at hi
        omega
      rw [rev_succ m i, rev_add_two_pow m _ (rev_lt m _) _ (Nat.mod_lt _ two_pos), ih _ hhalf]
      omega

/-! ## The counter -/

/-- Bit `m` of a number below `2^m` is clear, and setting it adds `2^m`. -/
theorem and_xor_two_pow {r m : ℕ} (h : r < 2 ^ m) :
    r &&& 2 ^ m = 0 ∧ r ^^^ 2 ^ m = r + 2 ^ m := by
  have hsum : r + 2 ^ m = 2 ^ m ||| r := by
    have hor := Nat.two_pow_add_eq_or_of_lt h 1
    rwa [mul_one, add_comm] at hor
  constructor
  · apply Nat.eq_of_testBit_eq
    intro i
    rw [Nat.testBit_and, Nat.zero_testBit]
    rcases eq_or_ne m i with rfl | hne
    · rw [Nat.testBit_lt_two_pow h, Bool.false_and]
    · rw [Nat.testBit_two_pow_of_ne hne, Bool.and_false]
  · rw [hsum]
    apply Nat.eq_of_testBit_eq
    intro i
    rw [Nat.testBit_xor, Nat.testBit_or]
    rcases eq_or_ne m i with rfl | hne
    · rw [Nat.testBit_lt_two_pow h, Bool.or_false, Bool.false_xor]
    · rw [Nat.testBit_two_pow_of_ne hne, Bool.false_or, Bool.xor_false]

/-- Clearing a set bit. -/
theorem add_two_pow_and_xor {r m : ℕ} (h : r < 2 ^ m) :
    (r + 2 ^ m) &&& 2 ^ m ≠ 0 ∧ (r + 2 ^ m) ^^^ 2 ^ m = r := by
  obtain ⟨-, hxor⟩ := and_xor_two_pow h
  constructor
  · intro hzero
    have hbit := congrArg (Nat.testBit · m) hzero
    rw [← hxor] at hbit
    simp [Nat.testBit_xor, Nat.testBit_lt_two_pow h] at hbit
  · rw [← hxor, Nat.xor_assoc, Nat.xor_self, Nat.xor_zero]

/-- **The counter runs through the reversals.** -/
theorem reverseIncrement_rev (m i : ℕ) (hi : i + 1 < 2 ^ (m + 1)) :
    reverseIncrement (2 ^ m) (rev (m + 1) i) = rev (m + 1) (i + 1) := by
  induction m generalizing i with
  | zero =>
      obtain rfl : i = 0 := by
        rw [zero_add, pow_one] at hi
        omega
      rw [reverseIncrement, dif_neg (by decide)]
      rfl
  | succ m ih =>
      obtain ⟨k, rfl | rfl⟩ : ∃ k, i = 2 * k ∨ i = 2 * k + 1 := ⟨i / 2, by omega⟩
      · -- The top bit is clear and gets set.
        obtain ⟨hand, hxor⟩ := and_xor_two_pow (rev_lt (m + 1) k)
        rw [rev_two_mul, rev_two_mul_add_one, reverseIncrement, dif_neg (by simp [hand]), hxor]
      · -- The top bit is set: it is cleared and the carry goes on below.
        obtain ⟨hand, hxor⟩ := add_two_pow_and_xor (rev_lt (m + 1) k)
        have hk : k + 1 < 2 ^ (m + 1) := by
          rw [pow_succ] at hi
          omega
        have hnext : 2 * k + 1 + 1 = 2 * (k + 1) := by ring
        have hhalf : 2 ^ (m + 1) / 2 = 2 ^ m := by
          rw [pow_succ, Nat.mul_div_cancel _ two_pos]
        rw [rev_two_mul_add_one, hnext, rev_two_mul, reverseIncrement,
          dif_pos ⟨(Nat.two_pow_pos _).ne', hand⟩, hxor, hhalf, ih k hk]

/-! ## The permutation -/

section Permutation

variable {α : Type}

/-- The swaps among the indices `1, …, k`. -/
def swaps (m k : ℕ) : List (ℕ × ℕ) :=
  ((List.range' 1 k).map fun i => (i, rev m i)).filter fun p => p.1 < p.2

theorem mem_swaps {m k : ℕ} {p : ℕ × ℕ} (hp : p ∈ swaps m k) :
    p.2 = rev m p.1 ∧ p.1 < p.2 ∧ p.1 ≤ k := by
  obtain ⟨hmem, hlt⟩ := List.mem_filter.mp hp
  obtain ⟨i, hi, rfl⟩ := List.mem_map.mp hmem
  refine ⟨rfl, by simpa using hlt, ?_⟩
  have := (List.mem_range'_1.mp hi).2
  omega

/-- The loop is the swaps, and its counter is the reversal of its last index. -/
theorem bitReverse_loop (m k : ℕ) (hk : k < 2 ^ (m + 1)) (a : ℕ → α) :
    (List.range' 1 k).foldl (fun (state : (ℕ → α) × ℕ) i =>
        let j := reverseIncrement (2 ^ m) state.2
        (if i < j then pairStep Prod.fst Prod.snd (fun _ => swapCells) state.1 (i, j)
          else state.1, j)) (a, 0) =
      (applyPairs Prod.fst Prod.snd (fun _ => swapCells) a (swaps (m + 1) k), rev (m + 1) k) := by
  induction k with
  | zero =>
      rw [rev_zero]
      rfl
  | succ k ih =>
      have hrange : List.range' 1 (k + 1) = List.range' 1 k ++ [k + 1] := by
        rw [List.range'_concat, one_mul, add_comm 1 k]
      rw [hrange, List.foldl_append, ih (by omega), List.foldl_cons, List.foldl_nil,
        reverseIncrement_rev m k hk]
      have hswaps : swaps (m + 1) (k + 1) = swaps (m + 1) k ++
          if k + 1 < rev (m + 1) (k + 1) then [(k + 1, rev (m + 1) (k + 1))] else [] := by
        unfold swaps
        rw [hrange, List.map_append, List.filter_append, List.map_singleton, List.filter_singleton]
        simp
      rw [hswaps]
      by_cases hlt : k + 1 < rev (m + 1) (k + 1)
      · simp only [if_pos hlt, applyPairs, List.foldl_append, List.foldl_cons, List.foldl_nil]
      · simp only [if_neg hlt, List.append_nil]

/-- Different swaps have different cells. -/
theorem pairwise_swaps {m : ℕ} {k : ℕ} (hk : k < 2 ^ m) :
    (swaps m k).Pairwise (DisjointCells Prod.fst Prod.snd) := by
  have hinj : Function.Injective fun i => (i, rev m i) := fun _ _ h => congrArg Prod.fst h
  have hnodup : (swaps m k).Nodup := List.Nodup.filter _ (List.Nodup.map hinj List.nodup_range')
  refine List.Pairwise.imp_of_mem ?_ hnodup
  intro p p' hp hp' hne
  obtain ⟨h1, h2, h3⟩ := mem_swaps hp
  obtain ⟨h1', h2', h3'⟩ := mem_swaps hp'
  have hinv := rev_rev m p.1 (by omega)
  have hinv' := rev_rev m p'.1 (by omega)
  rw [← h1] at hinv
  rw [← h1'] at hinv'
  refine ⟨fun h => hne (Prod.ext h (by rw [h1, h1', h])), fun h => ?_, fun h => ?_, fun h => ?_⟩
  · -- `p.1 = rev p'.1` would make `p.2 = p'.1`, against both orders.
    rw [h, hinv'] at h1
    omega
  · rw [← h, hinv] at h1'
    omega
  · refine hne (Prod.ext ?_ h)
    rw [← hinv, h, hinv']

/-- **The loop reads every entry at the reversed position.** -/
theorem bitReverse_apply {m : ℕ} (hm : 0 < m) (a : ℕ → α) {i : ℕ} (hi : i < 2 ^ m) :
    bitReverse (2 ^ m) a i = a (rev m i) := by
  obtain ⟨m, rfl⟩ := Nat.exists_eq_add_of_lt hm
  rw [zero_add] at hi ⊢
  have hhalf : 2 ^ (m + 1) / 2 = 2 ^ m := by rw [pow_succ, Nat.mul_div_cancel _ two_pos]
  have hpos : 0 < 2 ^ (m + 1) := Nat.two_pow_pos _
  unfold bitReverse
  rw [hhalf, bitReverse_loop m _ (by omega)]
  have hdisj := pairwise_swaps (m := m + 1) (k := 2 ^ (m + 1) - 1) (by omega)
  have hself : ∀ p ∈ swaps (m + 1) (2 ^ (m + 1) - 1), p.1 ≠ p.2 := fun p hp =>
    (mem_swaps hp).2.1.ne
  have hmem (k : ℕ) (hk : k < rev (m + 1) k) (hlt : k < 2 ^ (m + 1)) :
      (k, rev (m + 1) k) ∈ swaps (m + 1) (2 ^ (m + 1) - 1) := by
    refine List.mem_filter.mpr
      ⟨List.mem_map.mpr ⟨k, List.mem_range'_1.mpr ?_, rfl⟩, by simpa using hk⟩
    have hne : k ≠ 0 := by
      rintro rfl
      rw [rev_zero] at hk
      exact lt_irrefl _ hk
    omega
  rcases lt_trichotomy i (rev (m + 1) i) with hlt | heq | hgt
  · exact (applyPairs_cells hdisj hself a (hmem i hlt hi)).1
  · rw [← heq]
    refine applyPairs_of_notMem (fun p hp => ?_) a
    obtain ⟨h1, h2, h3⟩ := mem_swaps hp
    constructor
    · rintro rfl
      omega
    · intro h
      have hinv := rev_rev (m + 1) p.1 (by omega)
      rw [← h1, ← h, ← heq] at hinv
      omega
  · have hinv := rev_rev (m + 1) i hi
    have hmem' := hmem (rev (m + 1) i) (by rwa [hinv]) (rev_lt _ _)
    rw [hinv] at hmem'
    exact (applyPairs_cells hdisj hself a hmem').2

end Permutation

end Fft
