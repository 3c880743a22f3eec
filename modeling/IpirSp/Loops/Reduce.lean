import Mathlib.Tactic

/-!
# Parallel reductions over bounded accumulators

A parallel reduction cuts a list of items into chunks, folds every chunk into a private
accumulator and merges the accumulators pairwise; which chunks there are and in which shape they
are merged is up to the scheduler.  A `TaskTree` is one such shape, with idle workers that
contribute an empty accumulator, and `flatten` is the list of items it processes, in order.

Accumulators are machine words.  `checkedAdd` adds two of them and is `none` where the sum does
not fit, so an accumulator that is `some` at the end has never wrapped.  `eval_eq_sum` says that
it is `some` of the exact total whenever the total fits, whatever the shape.
-/

namespace Loops

/-- One way for workers to divide a list of items. -/
inductive TaskTree (α : Type)
  | idle
  | task (chunk : List α)
  | merge (left right : TaskTree α)

namespace TaskTree

variable {α β γ : Type}

/-- The items of a tree, in order. -/
def flatten : TaskTree α → List α
  | idle => []
  | task chunk => chunk
  | merge left right => left.flatten ++ right.flatten

/-- Fold every chunk from `zero` with `step`, and merge with `op`. -/
def eval (step : β → α → β) (zero : β) (op : β → β → β) : TaskTree α → β
  | idle => zero
  | task chunk => chunk.foldl step zero
  | merge left right => op (left.eval step zero op) (right.eval step zero op)

/-- A map that commutes with the steps and the merges commutes with the reduction. -/
theorem eval_map {step : β → α → β} {step' : γ → α → γ} {op : β → β → β} {op' : γ → γ → γ}
    (f : β → γ) (hstep : ∀ b a, f (step b a) = step' (f b) a)
    (hop : ∀ b c, f (op b c) = op' (f b) (f c)) (zero : β) (t : TaskTree α) :
    f (t.eval step zero op) = t.eval step' (f zero) op' := by
  induction t with
  | idle => rfl
  | task chunk =>
      simp only [eval]
      generalize zero = b
      induction chunk generalizing b with
      | nil => rfl
      | cons a chunk ih => rw [List.foldl_cons, List.foldl_cons, ih, hstep]
  | merge left right ihl ihr => rw [eval, eval, hop, ihl, ihr]

/-- A tree with every item replaced by its image. -/
def map (f : α → β) : TaskTree α → TaskTree β
  | idle => idle
  | task chunk => task (chunk.map f)
  | merge left right => merge (left.map f) (right.map f)

theorem flatten_map (f : α → β) (t : TaskTree α) : (t.map f).flatten = t.flatten.map f := by
  induction t with
  | idle => rfl
  | task chunk => rfl
  | merge left right ihl ihr => rw [map, flatten, flatten, ihl, ihr, List.map_append]

/-- Reducing the images is reducing with the composed step. -/
theorem eval_items_map {step : γ → β → γ} {op : γ → γ → γ} (f : α → β) (zero : γ)
    (t : TaskTree α) :
    (t.map f).eval step zero op = t.eval (fun c a => step c (f a)) zero op := by
  induction t with
  | idle => rfl
  | task chunk => rw [map, eval, eval, List.foldl_map]
  | merge left right ihl ihr => rw [map, eval, eval, ihl, ihr]

end TaskTree

/-- A scheduler: how a list of items is divided among the workers. -/
structure Scheduler (α : Type) where
  divide : List α → TaskTree α
  flatten_divide : ∀ items, (divide items).flatten = items

/-- One task an item, merged from the right. -/
def Scheduler.perItem (α : Type) : Scheduler α where
  divide items := items.foldr (fun item tree => .merge (.task [item]) tree) .idle
  flatten_divide items := by
    induction items with
    | nil => rfl
    | cons item items ih => exact congrArg (item :: ·) ih

/-- Addition of two accumulators below `bound`; `none` where an operand or the sum is not. -/
def checkedAdd (bound : ℕ) (a b : Option ℕ) : Option ℕ := do
  let x ← a
  let y ← b
  if x + y < bound then some (x + y) else none

theorem checkedAdd_some {bound x y : ℕ} (h : x + y < bound) :
    checkedAdd bound (some x) (some y) = some (x + y) := by
  simp [checkedAdd, h]

/-- Multiplication of two words below `bound`; `none` where an operand or the product is not. -/
def checkedMul (bound : ℕ) (a b : Option ℕ) : Option ℕ := do
  let x ← a
  let y ← b
  if x * y < bound then some (x * y) else none

theorem checkedMul_some {bound x y : ℕ} (h : x * y < bound) :
    checkedMul bound (some x) (some y) = some (x * y) := by
  simp [checkedMul, h]

/-- A loop of checked additions returns its total or overflows. -/
theorem foldl_checkedAdd_list (bound : ℕ) {α : Type} (p : α → ℕ) (l : List α) {v : ℕ}
    (hv : v < bound) :
    l.foldl (fun acc a => checkedAdd bound acc (some (p a))) (some v) =
      if v + (l.map p).sum < bound then some (v + (l.map p).sum) else none := by
  induction l generalizing v with
  | nil => simp [hv]
  | cons a l ih =>
      rw [List.foldl_cons, List.map_cons, List.sum_cons, ← add_assoc]
      by_cases hnext : v + p a < bound
      · rw [checkedAdd_some hnext, ih hnext]
      · -- Once the sum overflows it stays lost.
        have hnone : checkedAdd bound (some v) (some (p a)) = none := by simp [checkedAdd, hnext]
        have hlost : ∀ l : List α, l.foldl (fun acc a => checkedAdd bound acc (some (p a))) none =
            none := by
          intro l
          induction l with
          | nil => rfl
          | cons b l ih => exact ih
        rw [hnone, hlost, if_neg (by omega)]

/-- A loop of checked additions is exact when its total fits. -/
theorem foldl_checkedAdd (bound : ℕ) (p : ℕ → ℕ) (n v : ℕ)
    (h : v + ∑ k ∈ Finset.range n, p k < bound) :
    (List.range n).foldl (fun acc k => checkedAdd bound acc (some (p k))) (some v) =
      some (v + ∑ k ∈ Finset.range n, p k) := by
  induction n with
  | zero => simp
  | succ n ih =>
      rw [Finset.sum_range_succ] at h ⊢
      rw [List.range_succ, List.foldl_append, ih (by omega), List.foldl_cons, List.foldl_nil,
        checkedAdd_some (by omega), add_assoc]

/-- **No accumulator of a reduction wraps if the total fits**, and the result is the total. -/
theorem TaskTree.eval_eq_sum {α : Type} {bound : ℕ} {step : Option ℕ → α → Option ℕ} {w : α → ℕ}
    (hstep : ∀ v a, v + w a < bound → step (some v) a = some (v + w a)) (t : TaskTree α)
    (htotal : (t.flatten.map w).sum < bound) :
    t.eval step (some 0) (checkedAdd bound) = some (t.flatten.map w).sum := by
  induction t with
  | idle => rfl
  | task chunk =>
      have hrun (l : List α) (v : ℕ) (h : v + (l.map w).sum < bound) :
          l.foldl step (some v) = some (v + (l.map w).sum) := by
        induction l generalizing v with
        | nil => rfl
        | cons a l ih =>
            rw [List.map_cons, List.sum_cons] at h ⊢
            rw [List.foldl_cons, hstep v a (by omega), ih _ (by omega), add_assoc]
      have := hrun chunk 0 (by simpa [flatten] using htotal)
      simpa [eval, flatten] using this
  | merge left right ihl ihr =>
      rw [flatten, List.map_append, List.sum_append] at htotal ⊢
      rw [eval, ihl (by omega), ihr (by omega), checkedAdd_some htotal]

end Loops
