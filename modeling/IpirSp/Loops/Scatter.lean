import Mathlib.Tactic

/-!
# Loops that accumulate into an array

A scatter loop visits a list of items, each an index and an increment, and adds the increment into
the cell of the index.  Unlike the loops of `IpirSp.Loops.Writes` it may meet a cell several times,
and its addition may be modular or wrapping.  `sum_scatter` is the rule for both: if reading a cell
through `ρ` turns the loop's addition into a real one, then every weighted sum of the array grows
by the weighted sum of the increments.  With monomials as weights this turns a loop over
coefficients into an equation of polynomials.
-/

namespace Loops

variable {ι α β : Type} [DecidableEq ι]

/-- Add every increment into its cell. -/
def scatter (add : α → β → α) (init : ι → α) (ws : List (ι × β)) : ι → α :=
  ws.foldl (fun a w => Function.update a w.1 (add (a w.1) w.2)) init

@[simp] theorem scatter_nil (add : α → β → α) (init : ι → α) : scatter add init [] = init := rfl

@[simp] theorem scatter_cons (add : α → β → α) (init : ι → α) (w : ι × β) (ws : List (ι × β)) :
    scatter add init (w :: ws) =
      scatter add (Function.update init w.1 (add (init w.1) w.2)) ws := rfl

/-- A property of every result of the addition holds of the array. -/
theorem scatter_induction {add : α → β → α} {init : ι → α} {ws : List (ι × β)} {p : α → Prop}
    (hinit : ∀ i, p (init i)) (hadd : ∀ w ∈ ws, ∀ a, p a → p (add a w.2)) (i : ι) :
    p (scatter add init ws i) := by
  induction ws generalizing init with
  | nil => exact hinit i
  | cons w ws ih =>
      rw [scatter_cons]
      refine ih (fun j => ?_) fun w' hw' => hadd w' (List.mem_cons_of_mem _ hw')
      by_cases hj : j = w.1
      · subst hj
        rw [Function.update_self]
        exact hadd w List.mem_cons_self _ (hinit w.1)
      · rw [Function.update_of_ne hj]
        exact hinit j

/-- **One cell of a scatter loop** holds the sum of the increments that meet it. -/
theorem map_scatter {M : Type*} [AddCommMonoid M] (add : α → β → α) (ρ : α → M) (σ : β → M)
    (init : ι → α) (ws : List (ι × β)) (hadd : ∀ w ∈ ws, ∀ a, ρ (add a w.2) = ρ a + σ w.2) (i : ι) :
    ρ (scatter add init ws i) =
      ρ (init i) + (ws.map fun w => if w.1 = i then σ w.2 else 0).sum := by
  induction ws generalizing init with
  | nil => simp
  | cons w ws ih =>
      rw [scatter_cons, ih _ fun w' hw' => hadd w' (List.mem_cons_of_mem _ hw'), List.map_cons,
        List.sum_cons, ← add_assoc]
      congr 1
      by_cases hi : w.1 = i
      · subst hi
        rw [Function.update_self, if_pos rfl, hadd w List.mem_cons_self]
      · rw [Function.update_of_ne (Ne.symm hi), if_neg hi, add_zero]

section Sums

variable {R M : Type*} [Semiring R] [AddCommGroup M] [Module R M]

/-- **A scatter loop adds the weighted increments** to a weighted sum over cells that contain those
of the loop. -/
theorem sum_scatter (cells : Finset ι) (add : α → β → α) (ρ : α → R) (σ : β → R) (good : α → Prop)
    (weight : ι → M) (init : ι → α) (ws : List (ι × β)) (hcells : ∀ w ∈ ws, w.1 ∈ cells)
    (hinit : ∀ i, good (init i)) (hgood : ∀ w ∈ ws, ∀ a, good a → good (add a w.2))
    (hadd : ∀ w ∈ ws, ∀ a, good a → ρ (add a w.2) = ρ a + σ w.2) :
    ∑ i ∈ cells, ρ (scatter add init ws i) • weight i =
      ∑ i ∈ cells, ρ (init i) • weight i + (ws.map fun w => σ w.2 • weight w.1).sum := by
  induction ws generalizing init with
  | nil => simp
  | cons w ws ih =>
      have hnext (i : ι) : good (Function.update init w.1 (add (init w.1) w.2) i) := by
        by_cases hi : i = w.1
        · subst hi
          rw [Function.update_self]
          exact hgood w List.mem_cons_self _ (hinit w.1)
        · rw [Function.update_of_ne hi]
          exact hinit i
      have hcell (i : ι) : ρ (Function.update init w.1 (add (init w.1) w.2) i) • weight i =
          ρ (init i) • weight i + if i = w.1 then σ w.2 • weight w.1 else 0 := by
        by_cases hi : i = w.1
        · subst hi
          rw [Function.update_self, hadd w List.mem_cons_self _ (hinit w.1), add_smul, if_pos rfl]
        · rw [Function.update_of_ne hi, if_neg hi, add_zero]
      have hrest := ih _ (fun w' hw' => hcells w' (List.mem_cons_of_mem _ hw')) hnext
        (fun w' hw' => hgood w' (List.mem_cons_of_mem _ hw'))
        fun w' hw' => hadd w' (List.mem_cons_of_mem _ hw')
      rw [scatter_cons, hrest, Finset.sum_congr rfl fun i _ => hcell i, Finset.sum_add_distrib,
        Finset.sum_ite_eq' cells w.1, if_pos (hcells w List.mem_cons_self), List.map_cons,
        List.sum_cons, add_assoc]

end Sums

end Loops
