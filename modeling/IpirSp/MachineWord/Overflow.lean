import Mathlib.Tactic

/-!
# Additions that may overflow

An addition of unsigned words whose exact sum does not fit either wraps or traps: `Overflow` is the
choice.  A program that returns the same value for both choices never overflows, so a statement for
every `o : Overflow` says two things at once: the program is right as it is built, and no
accumulator of it leaves its width.

An accumulator that adds terms one after the other is exact as soon as the whole sum fits
(`Overflow.sum_ok`), and so are the two accumulators of a dot product whose left operand is cut
into limbs of 32 bits (`Overflow.splitDot_ok`).  `Lanes` are the 64-bit lanes of a vector register.
-/

namespace MachineWord

/-- What an operation does when its result does not fit. -/
inductive Overflow
  | wraps
  | traps

/-- The result of an operation on words of `width` bits; `none` is the trap. -/
def Overflow.fit : Overflow → (width result : ℕ) → Option ℕ
  | wraps, width, result => some (result % 2 ^ width)
  | traps, width, result => if result < 2 ^ width then some result else none

/-- Addition. -/
def Overflow.add (o : Overflow) (width a b : ℕ) : Option ℕ := o.fit width (a + b)

/-- Multiplication. -/
def Overflow.mul (o : Overflow) (width a b : ℕ) : Option ℕ := o.fit width (a * b)

/-- `iter().sum()`. -/
def Overflow.sum (o : Overflow) (width : ℕ) (terms : List ℕ) : Option ℕ :=
  terms.foldlM (o.add width) 0

/-- The low limb of a word of 64 bits, `as u32`. -/
def low32 (w : ℕ) : ℕ := w % 2 ^ 32

/-- One step of a dot product with the limbs of `x`: `lo += low(x) * v; hi += high(x) * v`. -/
def Overflow.splitStep (o : Overflow) (x v : ℕ) (sums : ℕ × ℕ) : Option (ℕ × ℕ) := do
  let lo ← o.add 64 sums.1 (← o.mul 64 (low32 x) v)
  let hi ← o.add 64 sums.2 (← o.mul 64 (x >>> 32) v)
  return (lo, hi)

/-- The low and the high accumulator over the rows of a list. -/
def Overflow.splitDot (o : Overflow) (x v : ℕ → ℕ) (rows : List ℕ) (sums : ℕ × ℕ) :
    Option (ℕ × ℕ) :=
  rows.foldlM (fun sums r => o.splitStep (x r) (v r) sums) sums

/-- The words of a vector register. -/
abbrev Lanes (n : ℕ) := Fin n → ℕ

/-- `add_epi64`, lane by lane. -/
def Overflow.addLanes {n : ℕ} (o : Overflow) (a b : Lanes n) : Option (Lanes n) :=
  match o with
  | wraps => some fun j => (a j + b j) % 2 ^ 64
  | traps => if ∀ j, a j + b j < 2 ^ 64 then some fun j => a j + b j else none

theorem Overflow.fit_ok (o : Overflow) {width result : ℕ} (h : result < 2 ^ width) :
    o.fit width result = some result := by
  cases o with
  | wraps => rw [fit, Nat.mod_eq_of_lt h]
  | traps => rw [fit, if_pos h]

theorem Overflow.add_ok (o : Overflow) {width a b : ℕ} (h : a + b < 2 ^ width) :
    o.add width a b = some (a + b) := o.fit_ok h

theorem Overflow.mul_ok (o : Overflow) {width a b : ℕ} (h : a * b < 2 ^ width) :
    o.mul width a b = some (a * b) := o.fit_ok h

theorem Overflow.addLanes_ok (o : Overflow) {n : ℕ} {a b : Lanes n} (h : ∀ j, a j + b j < 2 ^ 64) :
    o.addLanes a b = some fun j => a j + b j := by
  cases o with
  | wraps =>
      rw [addLanes]
      exact congrArg some (funext fun j => Nat.mod_eq_of_lt (h j))
  | traps => rw [addLanes, if_pos h]

theorem Overflow.foldlM_add_ok (o : Overflow) {width : ℕ} (terms : List ℕ) {start : ℕ}
    (h : start + terms.sum < 2 ^ width) :
    terms.foldlM (o.add width) start = some (start + terms.sum) := by
  induction terms generalizing start with
  | nil => rfl
  | cons t terms ih =>
      rw [List.sum_cons, ← add_assoc] at h
      rw [List.foldlM_cons, o.add_ok ((Nat.le_add_right _ _).trans_lt h), List.sum_cons,
        ← add_assoc]
      exact ih h

/-- **A sum that fits is exact.** -/
theorem Overflow.sum_ok (o : Overflow) {width : ℕ} {terms : List ℕ} (h : terms.sum < 2 ^ width) :
    o.sum width terms = some terms.sum := by
  rw [← zero_add terms.sum] at h ⊢
  exact o.foldlM_add_ok terms h

/-! ## Limbs of 32 bits -/

theorem low32_lt (w : ℕ) : low32 w < 2 ^ 32 := Nat.mod_lt _ (by decide)

theorem high32_lt {w : ℕ} (hw : w < 2 ^ 64) : w >>> 32 < 2 ^ 32 := by
  rw [Nat.shiftRight_eq_div_pow, Nat.div_lt_iff_lt_mul (by decide), ← pow_add]
  exact hw

/-- **Two limbs make a word.** -/
theorem low32_add_high32 (w : ℕ) : low32 w + (w >>> 32) * 2 ^ 32 = w := by
  rw [low32, Nat.shiftRight_eq_div_pow, Nat.mod_add_div']

/-- The limb sums of a dot product give the product. -/
theorem sum_limbs (x v : ℕ → ℕ) (rows : List ℕ) :
    (rows.map fun r => low32 (x r) * v r).sum +
        (rows.map fun r => (x r >>> 32) * v r).sum * 2 ^ 32 =
      (rows.map fun r => x r * v r).sum := by
  induction rows with
  | nil => simp
  | cons r rows ih =>
      simp only [List.map_cons, List.sum_cons]
      rw [← ih]
      conv_rhs => rw [← low32_add_high32 (x r)]
      ring

/-- **The limb accumulators are exact** while their sums fit. -/
theorem Overflow.splitDot_ok (o : Overflow) (x v : ℕ → ℕ) (rows : List ℕ) {lo hi : ℕ}
    (hlo : lo + (rows.map fun r => low32 (x r) * v r).sum < 2 ^ 64)
    (hhi : hi + (rows.map fun r => (x r >>> 32) * v r).sum < 2 ^ 64) :
    o.splitDot x v rows (lo, hi) =
      some (lo + (rows.map fun r => low32 (x r) * v r).sum,
        hi + (rows.map fun r => (x r >>> 32) * v r).sum) := by
  unfold splitDot
  induction rows generalizing lo hi with
  | nil => rfl
  | cons r rows ih =>
      simp only [List.map_cons, List.sum_cons, ← add_assoc] at hlo hhi ⊢
      have hstep : o.splitStep (x r) (v r) (lo, hi) =
          some (lo + low32 (x r) * v r, hi + (x r >>> 32) * v r) := by
        rw [splitStep, o.mul_ok (by omega), Option.bind_eq_bind, Option.bind_some,
          o.add_ok (by omega), Option.bind_some, o.mul_ok (by omega), Option.bind_some,
          o.add_ok (by omega), Option.bind_some]
        rfl
      rw [List.foldlM_cons, hstep]
      exact ih hlo hhi

/-- A limb sum with a bound on its terms. -/
theorem sum_limb_le {x v : ℕ → ℕ} {rows : List ℕ} {limb : ℕ → ℕ} {bound : ℕ}
    (hlimb : ∀ r ∈ rows, limb (x r) ≤ 2 ^ 32 - 1) (hv : ∀ r ∈ rows, v r ≤ bound) :
    (rows.map fun r => limb (x r) * v r).sum ≤ rows.length * ((2 ^ 32 - 1) * bound) := by
  have hterm : ∀ t ∈ rows.map fun r => limb (x r) * v r, t ≤ (2 ^ 32 - 1) * bound := by
    intro t ht
    obtain ⟨r, hr, rfl⟩ := List.mem_map.mp ht
    exact Nat.mul_le_mul (hlimb r hr) (hv r hr)
  have hsum := List.sum_le_card_nsmul _ _ hterm
  rwa [List.length_map, nsmul_eq_mul] at hsum

/-! ## Lanes -/

/-- What a vector loop over `count` groups of `w` rows adds up in lane `j`. -/
def laneSum (w : ℕ) (f : ℕ → ℕ) (start count : ℕ) : Lanes w := fun j =>
  ((List.range count).map fun k => f (start + w * k + j)).sum

theorem laneSum_succ (w : ℕ) (f : ℕ → ℕ) (start count : ℕ) (j : Fin w) :
    laneSum w f start (count + 1) j = laneSum w f start count j + f (start + w * count + j) := by
  rw [laneSum, List.range_succ, List.map_append, List.sum_append, List.map_singleton,
    List.sum_singleton]
  rfl

theorem sum_map_range' (f : ℕ → ℕ) (start n : ℕ) :
    ((List.range' start n).map f).sum = ∑ j : Fin n, f (start + j) := by
  rw [List.range'_eq_map_range, List.map_map, ← Finset.sum_range fun j => f (start + j)]
  rfl

/-- **The lanes together hold the sum over all rows.** -/
theorem sum_laneSum (w : ℕ) (f : ℕ → ℕ) (start count : ℕ) :
    (List.ofFn (laneSum w f start count)).sum = ((List.range' start (w * count)).map f).sum := by
  rw [List.sum_ofFn]
  induction count with
  | zero => simp [laneSum]
  | succ count ih =>
      simp only [laneSum_succ]
      rw [Finset.sum_add_distrib, ih, ← sum_map_range', Nat.mul_succ, ← List.range'_append_1,
        List.map_append, List.sum_append]

theorem laneSum_le (w : ℕ) (f : ℕ → ℕ) (start count : ℕ) (j : Fin w) :
    laneSum w f start count j ≤ ((List.range' start (w * count)).map f).sum := by
  rw [← sum_laneSum, List.sum_ofFn]
  exact Finset.single_le_sum (fun _ _ => Nat.zero_le _) (Finset.mem_univ j)

end MachineWord
