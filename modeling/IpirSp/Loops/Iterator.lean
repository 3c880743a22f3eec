import Mathlib.Tactic

/-!
# Iterators

An iterator is a state with a fallible `next`.  `Emits` is a run of calls that return values, and
`Drains` such a run up to a state whose `next` returns nothing and stays where it is.  The rules put
runs together.  `foldl_zipIdx` is the invariant rule of an enumerated loop.
-/

namespace Loops

section Iterator

variable {ε σ α : Type} {next : σ → Except ε (Option α × σ)}

/-- Calls of `next` that return the values one after the other. -/
inductive Emits (next : σ → Except ε (Option α × σ)) : σ → List α → σ → Prop
  | nil (s : σ) : Emits next s [] s
  | cons {s t u : σ} {value : α} {values : List α} :
      next s = .ok (some value, t) → Emits next t values u → Emits next s (value :: values) u

/-- Calls of `next` that return the values, and nothing from then on. -/
def Drains (next : σ → Except ε (Option α × σ)) (s : σ) (values : List α) : Prop :=
  ∃ t, Emits next s values t ∧ next t = .ok (none, t)

/-- Two runs, one after the other. -/
theorem Emits.append {s t u : σ} {values values' : List α} (h : Emits next s values t)
    (h' : Emits next t values' u) : Emits next s (values ++ values') u := by
  induction h with
  | nil => exact h'
  | cons hnext _ ih => exact .cons hnext (ih h')

/-- A run from a state that answers the first call in the same way. -/
theorem Emits.of_next_eq {s s' t : σ} {values : List α} (hne : values ≠ [])
    (h : Emits next s' values t) (hnext : next s = next s') : Emits next s values t := by
  cases h with
  | nil => exact absurd rfl hne
  | cons hfirst hrest => exact .cons (hnext.trans hfirst) hrest

/-- **The invariant rule of a run of runs**, with the number of runs done as the index of the
invariant. -/
theorem emits_flatMap (Inv : ℕ → σ → Prop) {values : ℕ → List α} {n : ℕ} {s : σ} (hstart : Inv 0 s)
    (hstep : ∀ i < n, ∀ s, Inv i s → ∃ t, Emits next s (values i) t ∧ Inv (i + 1) t) :
    ∃ t, Emits next s ((List.range n).flatMap values) t ∧ Inv n t := by
  induction n with
  | zero => exact ⟨s, .nil s, hstart⟩
  | succ n ih =>
      obtain ⟨t, hrun, hinv⟩ := ih fun i hi => hstep i (hi.trans (Nat.lt_succ_self n))
      obtain ⟨u, hlast, hinv'⟩ := hstep n (Nat.lt_succ_self n) t hinv
      refine ⟨u, ?_, hinv'⟩
      rw [List.range_succ, List.flatMap_append, List.flatMap_singleton]
      exact hrun.append hlast

end Iterator

/-- **The invariant rule of an enumerated loop**, with the number of items done as its index. -/
theorem foldl_zipIdx {α β : Type} {f : β → α × ℕ → β} (Inv : ℕ → β → Prop) (l : List α) {start : β}
    (hstart : Inv 0 start)
    (hstep : ∀ i (hi : i < l.length) acc, Inv i acc → Inv (i + 1) (f acc (l[i], i))) :
    Inv l.length (l.zipIdx.foldl f start) := by
  induction l using List.reverseRecOn with
  | nil => exact hstart
  | append_singleton l a ih =>
      have hinit := ih fun i hi acc hacc => by
        have hi' : i < (l ++ [a]).length := by
          rw [List.length_append]
          omega
        have hnext := hstep i hi' acc hacc
        rwa [List.getElem_append_left hi] at hnext
      have hlast : l.length < (l ++ [a]).length := by
        rw [List.length_append]
        exact Nat.lt_succ_self _
      have hnext := hstep l.length hlast _ hinit
      rw [List.getElem_concat_length rfl] at hnext
      rw [List.zipIdx_append, List.foldl_append, List.length_append, zero_add]
      exact hnext

/-- One of several pieces of the same length. -/
theorem take_drop_flatMap {α : Type} {f : ℕ → List α} {n m k : ℕ} (hlen : ∀ i, (f i).length = n)
    (hk : k < m) : (((List.range m).flatMap f).drop (k * n)).take n = f k := by
  have hinit (j : ℕ) : ((List.range j).flatMap f).length = j * n := by
    simp [List.length_flatMap, hlen]
  induction m with
  | zero => exact absurd hk (Nat.not_lt_zero k)
  | succ m ih =>
      rw [List.range_succ, List.flatMap_append, List.flatMap_singleton]
      rcases Nat.lt_succ_iff_lt_or_eq.mp hk with hlt | rfl
      · have hroom : (k + 1) * n ≤ m * n := Nat.mul_le_mul_right n hlt
        rw [Nat.add_mul, one_mul] at hroom
        have hfits : n ≤ (((List.range m).flatMap f).drop (k * n)).length := by
          rw [List.length_drop, hinit]
          omega
        rw [List.drop_append_of_le_length (by rw [hinit]; omega),
          List.take_append_of_le_length hfits, ih hlt]
      · rw [List.drop_left' (hinit k)]
        exact List.take_of_length_le (hlen k).le

end Loops
