import IpirSp.MachineWord.Wrapping
import Mathlib.Data.List.GetD

/-!
# Dot products on machine words

A kernel that multiplies signed words with unsigned ones and lets everything wrap computes the low
word of the exact sum.  That is enough in two situations: modulo a power of two
(`cast_wrappingDot`), and exactly when the sum fits a signed word (`toInt_wrappingDot`).  For
longer factors the second is applied limb by limb, and `sum_limbs` puts the limbs together again.

`readPacked` reads a signed entry of fewer than 64 bits by two shifts; `readPacked_mask` is its
round trip.
-/

namespace MachineWord

/-- The low word of a dot product. -/
def wrappingDot (row : ℕ → ℤ) (y : List ℕ) : ℕ :=
  (List.range y.length).foldl
    (fun s c => wrappingAdd s (wrappingMul (ofInt (row c)) (y.getD c 0))) 0

/-- The exact dot product. -/
def exactDot (row : ℕ → ℤ) (y : List ℕ) : ℤ :=
  (List.range y.length).foldl (fun s c => s + row c * (y.getD c 0 : ℤ)) 0

/-- A sum of terms below a bound. -/
theorem abs_foldl_add_le {α : Type} {B : ℤ} (term : α → ℤ) (l : List α)
    (h : ∀ a ∈ l, |term a| ≤ B) : |l.foldl (fun s a => s + term a) 0| ≤ l.length * B := by
  induction l using List.reverseRecOn with
  | nil => simp
  | append_singleton l a ih =>
      have hl := ih fun b hb => h b (List.mem_append_left _ hb)
      have ha := h a (List.mem_append_right _ List.mem_cons_self)
      rw [List.foldl_append, List.length_append, Nat.cast_add, add_mul]
      refine (abs_add_le _ _).trans (add_le_add hl ?_)
      rwa [List.length_singleton, Nat.cast_one, one_mul]

theorem exactDot_eq_sum (row : ℕ → ℤ) (y : List ℕ) :
    exactDot row y = ∑ c ∈ Finset.range y.length, row c * (y.getD c 0 : ℤ) := by
  unfold exactDot
  induction y.length with
  | zero => rfl
  | succ n ih => rw [List.range_succ, List.foldl_append, ih, Finset.sum_range_succ]; rfl

/-- A dot product reads a row up to the length of the vector. -/
theorem wrappingDot_congr {row row' : ℕ → ℤ} {y : List ℕ} (h : ∀ c < y.length, row c = row' c) :
    wrappingDot row y = wrappingDot row' y := by
  refine List.foldl_ext _ _ _ fun s c hc => ?_
  rw [h c (List.mem_range.mp hc)]

theorem wrappingDot_lt (row : ℕ → ℤ) (y : List ℕ) : wrappingDot row y < W64 := by
  unfold wrappingDot
  cases y.length with
  | zero => exact W64_pos
  | succ n =>
      rw [List.range_succ, List.foldl_append]
      exact Nat.mod_lt _ W64_pos

/-- **The low word is the exact sum** modulo every divisor of the word range. -/
theorem cast_wrappingDot {q : ℕ} (hdvd : q ∣ W64) (row : ℕ → ℤ) (y : List ℕ) :
    ((wrappingDot row y : ℕ) : ZMod q) =
      ∑ c ∈ Finset.range y.length, (row c : ZMod q) * (y.getD c 0 : ℕ) := by
  unfold wrappingDot
  induction y.length with
  | zero => simp
  | succ n ih =>
      rw [List.range_succ, List.foldl_append, Finset.sum_range_succ, ← ih, List.foldl_cons,
        List.foldl_nil, cast_wrappingAdd hdvd, cast_wrappingMul hdvd, cast_ofInt hdvd]

/-- **A sum that fits a signed word** is read off the low word. -/
theorem toInt_wrappingDot {row : ℕ → ℤ} {y : List ℕ} (hlo : -(W64 / 2 : ℕ) ≤ exactDot row y)
    (hhi : exactDot row y < (W64 / 2 : ℕ)) : toInt (wrappingDot row y) = exactDot row y := by
  refine toInt_of_modEq (wrappingDot_lt row y) ?_ hlo hhi
  rw [← ZMod.intCast_eq_intCast_iff, Int.cast_natCast, cast_wrappingDot dvd_rfl, exactDot_eq_sum]
  push_cast
  rfl

/-- The magnitude of a dot product. -/
theorem abs_exactDot_le (row : ℕ → ℤ) (y : List ℕ) {A B : ℤ}
    (hrow : ∀ c < y.length, |row c| ≤ A) (hy : ∀ v ∈ y, (v : ℤ) ≤ B) :
    |exactDot row y| ≤ y.length * (A * B) := by
  rw [exactDot_eq_sum]
  have hterm : ∀ c ∈ Finset.range y.length, |row c * (y.getD c 0 : ℤ)| ≤ A * B := by
    intro c hc
    have hlt := Finset.mem_range.mp hc
    have hmem := hy _ (List.getElem_mem hlt)
    rw [List.getD_eq_getElem _ _ hlt, abs_mul, Nat.abs_cast]
    exact mul_le_mul (hrow c hlt) hmem (Int.natCast_nonneg _) ((abs_nonneg _).trans (hrow c hlt))
  refine (Finset.abs_sum_le_sum_abs _ _).trans ((Finset.sum_le_sum hterm).trans ?_)
  rw [Finset.sum_const, Finset.card_range, nsmul_eq_mul]

/-! ## Limbs -/

/-- The `j`-th limb of 16 bits. -/
def limb (j v : ℕ) : ℕ := v >>> (j * 16) &&& 65535

theorem limb_le (j v : ℕ) : limb j v ≤ 65535 := Nat.and_le_right

/-- **Four limbs make a word.** -/
theorem sum_limb {v : ℕ} (hv : v < W64) : ∑ j ∈ Finset.range 4, limb j v * 2 ^ (j * 16) = v := by
  have hmask (n : ℕ) : n &&& 65535 = n % 65536 := Nat.and_two_pow_sub_one_eq_mod n 16
  have hval : W64 = 18446744073709551616 := rfl
  simp only [Finset.sum_range_succ, Finset.sum_range_zero, limb, hmask, Nat.shiftRight_eq_div_pow]
  norm_num
  omega

/-- A dot product is the weighted sum of those with the limbs. -/
theorem sum_exactDot_limb (row : ℕ → ℤ) {y : List ℕ} (hy : ∀ v ∈ y, v < W64) :
    ∑ j ∈ Finset.range 4, exactDot row (y.map (limb j)) * 2 ^ (j * 16) = exactDot row y := by
  have hdot (j : ℕ) : exactDot row (y.map (limb j)) =
      ∑ c ∈ Finset.range y.length, row c * (limb j (y.getD c 0) : ℤ) := by
    rw [exactDot_eq_sum, List.length_map]
    refine Finset.sum_congr rfl fun c hc => ?_
    have hlt := Finset.mem_range.mp hc
    rw [List.getD_eq_getElem _ _ (by simpa using hlt), List.getElem_map,
      List.getD_eq_getElem _ _ hlt]
  simp only [hdot, Finset.sum_mul]
  rw [Finset.sum_comm, exactDot_eq_sum]
  refine Finset.sum_congr rfl fun c hc => ?_
  have hlt := Finset.mem_range.mp hc
  have hsum := sum_limb (hy _ (List.getElem_mem hlt))
  rw [List.getD_eq_getElem _ _ hlt]
  calc ∑ j ∈ Finset.range 4, row c * (limb j y[c] : ℤ) * 2 ^ (j * 16)
      = row c * ((∑ j ∈ Finset.range 4, limb j y[c] * 2 ^ (j * 16) : ℕ) : ℤ) := by
        push_cast
        rw [Finset.mul_sum]
        exact Finset.sum_congr rfl fun j _ => mul_assoc _ _ _
    _ = row c * (y[c] : ℤ) := by rw [hsum]

/-! ## Packed entries -/

/-- Read a signed entry of `bits` bits by shifting it up and arithmetically down again. -/
def readPacked (bits code : ℕ) : ℤ :=
  toInt (code * 2 ^ (64 - bits) % W64) / 2 ^ (64 - bits)

/-- **The round trip of a signed entry** through its low bits. -/
theorem readPacked_mask {bits : ℕ} (hpos : 0 < bits) (hle : bits ≤ 64) {z : ℤ}
    (hlo : -2 ^ (bits - 1) ≤ z) (hhi : z < 2 ^ (bits - 1)) :
    readPacked bits (z % 2 ^ bits).toNat = z := by
  have hscale : (2 : ℤ) ^ (64 - bits) * 2 ^ (bits - 1) = (W64 / 2 : ℕ) := by
    rw [← pow_add, show 64 - bits + (bits - 1) = 63 by omega]
    rfl
  have hword : (2 : ℤ) ^ bits * 2 ^ (64 - bits) = (W64 : ℕ) := by
    rw [← pow_add, show bits + (64 - bits) = 64 by omega]
    rfl
  have hup : (0 : ℤ) < 2 ^ (64 - bits) := by positivity
  have hmod : (((z % 2 ^ bits).toNat * 2 ^ (64 - bits) % W64 : ℕ) : ℤ) ≡
      z * 2 ^ (64 - bits) [ZMOD W64] := by
    push_cast
    rw [Int.toNat_of_nonneg (Int.emod_nonneg _ (by positivity))]
    refine (Int.mod_modEq _ _).trans ?_
    rw [← hword]
    exact Int.ModEq.mul_right' (Int.mod_modEq z _)
  have hread : toInt ((z % 2 ^ bits).toNat * 2 ^ (64 - bits) % W64) = z * 2 ^ (64 - bits) := by
    refine toInt_of_modEq (Nat.mod_lt _ W64_pos) hmod ?_ ?_
    · rw [← hscale]
      nlinarith
    · rw [← hscale]
      nlinarith
  rw [readPacked, hread, Int.mul_ediv_cancel _ hup.ne']

end MachineWord
