import Mathlib.Tactic

/-!
# Loops that fill an array

A nest of `for` loops whose body stores one value at one index is the list of its writes in
execution order.  `applyWrites` runs such a list.  When every write stores the value that belongs
to its index, the result does not depend on the order or on repetitions: `applyWrites_eq` needs
only that the index is written at all.  That turns the correctness of a blocked or tiled loop nest
into the statement that the blocks cover the index range.

`blockStarts` and `blockRange` are the two ranges of a blocked loop, `(0..n).step_by(size)` and
`start..min(start + size, n)`; `exists_block` says that the blocks cover.
-/

namespace Loops

variable {κ α : Type*} [DecidableEq κ]

/-- Run a list of writes. -/
def applyWrites (init : κ → α) (ws : List (κ × α)) : κ → α :=
  ws.foldl (fun m w => Function.update m w.1 w.2) init

@[simp] theorem applyWrites_nil (init : κ → α) : applyWrites init [] = init := rfl

@[simp] theorem applyWrites_cons (init : κ → α) (w : κ × α) (ws : List (κ × α)) :
    applyWrites init (w :: ws) = applyWrites (Function.update init w.1 w.2) ws := rfl

/-- An index that no write names keeps its value. -/
theorem applyWrites_of_notMem {init : κ → α} {ws : List (κ × α)} {k : κ}
    (hk : ∀ w ∈ ws, w.1 ≠ k) : applyWrites init ws k = init k := by
  induction ws generalizing init with
  | nil => rfl
  | cons w ws ih =>
      rw [applyWrites_cons, ih fun w' hw' => hk w' (List.mem_cons_of_mem _ hw')]
      exact Function.update_of_ne (hk w List.mem_cons_self).symm _ _

/-- **A written index holds its value**, whatever the order and the number of its writes. -/
theorem applyWrites_eq (init : κ → α) (ws : List (κ × α)) (f : κ → α)
    (hval : ∀ w ∈ ws, w.2 = f w.1) (k : κ) (hk : ∃ w ∈ ws, w.1 = k) :
    applyWrites init ws k = f k := by
  induction ws generalizing init with
  | nil =>
      obtain ⟨w, hw, -⟩ := hk
      cases hw
  | cons w ws ih =>
      have hrest : ∀ w' ∈ ws, w'.2 = f w'.1 := fun w' hw' => hval w' (List.mem_cons_of_mem _ hw')
      rw [applyWrites_cons]
      by_cases hlater : ∃ w' ∈ ws, w'.1 = k
      · exact ih _ hrest hlater
      · have hnot : ∀ w' ∈ ws, w'.1 ≠ k := fun w' hw' h => hlater ⟨w', hw', h⟩
        obtain ⟨w', hw', rfl⟩ := hk
        rcases List.mem_cons.mp hw' with rfl | hw'
        · rw [applyWrites_of_notMem hnot, Function.update_self]
          exact hval _ List.mem_cons_self
        · exact absurd rfl (hnot w' hw')

/-- A property of every stored value and of the initial array holds of the result. -/
theorem applyWrites_induction {init : κ → α} {ws : List (κ × α)} {p : α → Prop}
    (hinit : ∀ k, p (init k)) (hws : ∀ w ∈ ws, p w.2) (k : κ) : p (applyWrites init ws k) := by
  induction ws generalizing init with
  | nil => exact hinit k
  | cons w ws ih =>
      rw [applyWrites_cons]
      refine ih (fun k' => ?_) fun w' hw' => hws w' (List.mem_cons_of_mem _ hw')
      by_cases hk : k' = w.1
      · subst hk
        rw [Function.update_self]
        exact hws w List.mem_cons_self
      · rw [Function.update_of_ne hk]
        exact hinit k'

/-! ## Index ranges -/

/-- Row and column of a flat index. -/
theorem flat_div {d r c : ℕ} (hc : c < d) : (r * d + c) / d = r := by
  rw [mul_comm, Nat.mul_add_div (by omega), Nat.div_eq_of_lt hc, add_zero]

theorem flat_mod {d r c : ℕ} (hc : c < d) : (r * d + c) % d = c := by
  rw [mul_comm, Nat.mul_add_mod, Nat.mod_eq_of_lt hc]

/-- `(0..n).step_by(size)`. -/
def blockStarts (n size : ℕ) : List ℕ := (List.range ((n + size - 1) / size)).map (· * size)

/-- The starts of whole blocks. -/
theorem blockStarts_mul (count : ℕ) {size : ℕ} (hsize : 0 < size) :
    blockStarts (count * size) size = (List.range count).map (· * size) := by
  have hcount : (count * size + size - 1) / size = count := by
    rw [Nat.add_sub_assoc hsize]
    exact flat_div (Nat.sub_lt hsize one_pos)
  rw [blockStarts, hcount]

/-- `start..min(start + size, n)`. -/
def blockRange (n size start : ℕ) : List ℕ := List.range' start (min (start + size) n - start)

theorem mem_blockRange {n size start i : ℕ} :
    i ∈ blockRange n size start ↔ start ≤ i ∧ i < start + size ∧ i < n := by
  rw [blockRange, List.mem_range'_1]
  omega

/-- **The blocks cover the range.** -/
theorem exists_block (size : ℕ) {n i : ℕ} (hsize : 0 < size) (hi : i < n) :
    ∃ start ∈ blockStarts n size, i ∈ blockRange n size start := by
  have hmod := Nat.mod_lt i hsize
  have hdiv := Nat.div_add_mod i size
  rw [mul_comm] at hdiv
  refine ⟨i / size * size, ?_, mem_blockRange.mpr ⟨by omega, by omega, hi⟩⟩
  refine List.mem_map.mpr ⟨i / size, List.mem_range.mpr ?_, rfl⟩
  rw [Nat.div_lt_iff_lt_mul hsize]
  have hceil : n ≤ (n + size - 1) / size * size := by
    have hdiv' := Nat.div_add_mod (n + size - 1) size
    have hmod' := Nat.mod_lt (n + size - 1) hsize
    rw [mul_comm] at hdiv'
    omega
  omega

end Loops
