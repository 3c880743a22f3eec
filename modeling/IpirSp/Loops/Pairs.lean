import Mathlib.Tactic

/-!
# Loops that update two cells at a time

A butterfly loop or a permutation by swaps visits pairs of cells of one array and replaces both by
functions of both.  When no cell belongs to two pairs, every visit still finds the initial values
of its cells, so the loop is a simultaneous assignment: `applyPairs_cells` says what the cells of a
pair hold at the end, and `applyPairs_of_notMem` that the other cells are unchanged.
-/

namespace Loops

variable {ι κ α : Type} [DecidableEq ι]

section Definitions

variable (fst snd : κ → ι) (f : κ → α → α → α × α)

/-- One visit: the cells `fst p` and `snd p` are replaced by `f p` of their values. -/
def pairStep (a : ι → α) (p : κ) : ι → α :=
  let r := f p (a (fst p)) (a (snd p))
  Function.update (Function.update a (fst p) r.1) (snd p) r.2

/-- The loop over a list of pairs. -/
def applyPairs (a : ι → α) (ps : List κ) : ι → α := ps.foldl (pairStep fst snd f) a

/-- Two pairs without a common cell. -/
def DisjointCells (p p' : κ) : Prop :=
  fst p ≠ fst p' ∧ fst p ≠ snd p' ∧ snd p ≠ fst p' ∧ snd p ≠ snd p'

end Definitions

variable {fst snd : κ → ι} {f : κ → α → α → α × α}

theorem pairStep_of_ne {a : ι → α} {p : κ} {i : ι} (h1 : i ≠ fst p) (h2 : i ≠ snd p) :
    pairStep fst snd f a p i = a i := by
  unfold pairStep
  rw [Function.update_of_ne h2, Function.update_of_ne h1]

/-- A cell outside all pairs is unchanged. -/
theorem applyPairs_of_notMem {ps : List κ} {i : ι} (h : ∀ p ∈ ps, i ≠ fst p ∧ i ≠ snd p)
    (a : ι → α) : applyPairs fst snd f a ps i = a i := by
  induction ps generalizing a with
  | nil => rfl
  | cons p ps ih =>
      obtain ⟨h1, h2⟩ := h p List.mem_cons_self
      have hrest := ih (fun p' hp' => h p' (List.mem_cons_of_mem _ hp')) (pairStep fst snd f a p)
      exact hrest.trans (pairStep_of_ne h1 h2)

/-- **The cells of a pair** hold the function of their initial values. -/
theorem applyPairs_cells {ps : List κ} (hdisj : ps.Pairwise (DisjointCells fst snd))
    (hself : ∀ p ∈ ps, fst p ≠ snd p) (a : ι → α) {p : κ} (hp : p ∈ ps) :
    applyPairs fst snd f a ps (fst p) = (f p (a (fst p)) (a (snd p))).1 ∧
      applyPairs fst snd f a ps (snd p) = (f p (a (fst p)) (a (snd p))).2 := by
  induction ps generalizing a with
  | nil => cases hp
  | cons p₀ ps ih =>
      obtain ⟨hhead, htail⟩ := List.pairwise_cons.mp hdisj
      have hself' : ∀ p ∈ ps, fst p ≠ snd p := fun p' hp' => hself p' (List.mem_cons_of_mem _ hp')
      rcases List.mem_cons.mp hp with rfl | hp
      · -- The pair is visited now and its cells are left alone later.
        have hne : fst p ≠ snd p := hself p List.mem_cons_self
        have h1 : ∀ p' ∈ ps, fst p ≠ fst p' ∧ fst p ≠ snd p' := fun p' hp' =>
          ⟨(hhead p' hp').1, (hhead p' hp').2.1⟩
        have h2 : ∀ p' ∈ ps, snd p ≠ fst p' ∧ snd p ≠ snd p' := fun p' hp' =>
          ⟨(hhead p' hp').2.2.1, (hhead p' hp').2.2.2⟩
        constructor
        · refine (applyPairs_of_notMem h1 (pairStep fst snd f a p)).trans ?_
          unfold pairStep
          rw [Function.update_of_ne hne, Function.update_self]
        · refine (applyPairs_of_notMem h2 (pairStep fst snd f a p)).trans ?_
          unfold pairStep
          rw [Function.update_self]
      · -- The first visit leaves the cells of `p` alone.
        obtain ⟨h1, h2, h3, h4⟩ := hhead p hp
        have hfst : pairStep fst snd f a p₀ (fst p) = a (fst p) := pairStep_of_ne h1.symm h3.symm
        have hsnd : pairStep fst snd f a p₀ (snd p) = a (snd p) := pairStep_of_ne h2.symm h4.symm
        have hrest := ih htail hself' (pairStep fst snd f a p₀) hp
        rw [hfst, hsnd] at hrest
        exact hrest

end Loops
