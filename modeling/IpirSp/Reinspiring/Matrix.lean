import IpirSp.Reinspiring.Coefficients
import IpirSp.Reinspiring.Params
import Mathlib.Data.List.GetD

/-!
# Packing matrices

The online part of the compiled packing is one matrix-vector product.  A `PackingMatrix` is a dense
matrix of reduced words; the blocks of the gadget limbs are `d × d` and stand side by side.

A block acts on the coefficient vector of a polynomial.  `IsCompiled` says what the action of a
compiled block is: column `c` is `∑ t · X^(c·g)` over its terms `(t, g)`, so the block maps `y` to
`∑ t · τ_g(y)` (`IsCompiled.action`).
-/

namespace Reinspiring

open Negacyclic SpiralRs Inspiring

/-- A matrix of words modulo `q`. -/
structure PackingMatrix where
  rows : ℕ
  cols : ℕ
  q : ℕ
  entry : ℕ → ℕ → ℕ

namespace PackingMatrix

/-- `PackingMatrix::zero`. -/
def zero (rows cols q : ℕ) : PackingMatrix := ⟨rows, cols, q, fun _ _ => 0⟩

/-- The matrix whose column `c` is `col c`. -/
def ofColumns (d q : ℕ) (col : ℕ → Poly d) : PackingMatrix :=
  ⟨d, d, q, fun r c => if hr : r < d then col c ⟨r, hr⟩ else 0⟩

/-- A column as a coefficient vector. -/
def column (M : PackingMatrix) (d c : ℕ) : Poly d := fun r => M.entry r c

/-- The entries of matrices that stand side by side. -/
def concatEntry : List PackingMatrix → ℕ → ℕ → ℕ
  | [], _, _ => 0
  | b :: bs, r, c => if c < b.cols then b.entry r c else concatEntry bs r (c - b.cols)

/-- The checks of `hstack`, one block after the other, with the columns counted so far. -/
def hstackCols (rows q : ℕ) (cols : ℕ) (b : PackingMatrix) : Result ℕ :=
  if b.rows ≠ rows ∨ b.q ≠ q then preprocessMismatch "hstack block shape/modulus mismatch"
  else if b.cols ≠ rows then preprocessMismatch "hstack expects square d×d blocks"
  else .ok (cols + b.cols)

/-- `PackingMatrix::hstack`. -/
def hstack (blocks : List PackingMatrix) : Result PackingMatrix :=
  match blocks with
  | [] => invalidParams "hstack requires at least one block"
  | first :: _ => do
      let cols ← blocks.foldlM (hstackCols first.rows first.q) 0
      .ok ⟨first.rows, cols, first.q, concatEntry blocks⟩

@[simp] theorem column_ofColumns {d q : ℕ} (col : ℕ → Poly d) (c : ℕ) :
    (ofColumns d q col).column d c = col c := by
  funext r
  rw [column, ofColumns]
  simp only [r.2, dif_pos]

end PackingMatrix

section Action

variable {d q : ℕ}

/-- What a block is compiled from: a polynomial and an exponent a term. -/
abbrev Term (d : ℕ) := Poly d × ℕ

/-- A `d × d` block compiled from the given terms. -/
structure IsCompiled (d q : ℕ) (M : PackingMatrix) (terms : List (Term d)) : Prop where
  rows : M.rows = d
  cols : M.cols = d
  modulus : M.q = q
  entry_lt : ∀ r c, M.entry r c < q
  ring_column : ∀ c < d, Poly.ring q (M.column d c) =
    (terms.map fun t => Poly.ring q t.1 * x ^ (c * t.2)).sum

/-- The zero block has no terms. -/
theorem isCompiled_zero (hq : 0 < q) : IsCompiled d q (PackingMatrix.zero d d q) [] where
  rows := rfl
  cols := rfl
  modulus := rfl
  entry_lt _ _ := hq
  ring_column _ _ := Poly.ring_zero

/-- A loop whose body adds one term builds a block of its terms. -/
theorem foldl_isCompiled (hq : 0 < q) (step : PackingMatrix → Term d → PackingMatrix)
    (hstep : ∀ m done t, IsCompiled d q m done → Odd t.2 → IsCompiled d q (step m t) (done ++ [t]))
    {terms : List (Term d)} (hodd : ∀ t ∈ terms, Odd t.2) :
    IsCompiled d q (terms.foldl step (PackingMatrix.zero d d q)) terms := by
  have hrun : ∀ (rest done : List (Term d)) (m : PackingMatrix), (∀ t ∈ rest, Odd t.2) →
      IsCompiled d q m done → IsCompiled d q (rest.foldl step m) (done ++ rest) := by
    intro rest
    induction rest with
    | nil =>
        intro done m _ hm
        rwa [List.append_nil]
    | cons t rest ih =>
        intro done m hodd hm
        have hnext := hstep m done t hm (hodd t List.mem_cons_self)
        have hrest := ih (done ++ [t]) _ (fun t' ht' => hodd t' (List.mem_cons_of_mem _ ht')) hnext
        rwa [List.append_assoc, List.singleton_append] at hrest
  exact hrun terms [] _ hodd (isCompiled_zero hq)

/-- **The terms determine the block.** -/
theorem IsCompiled.entry_eq {M M' : PackingMatrix} {terms : List (Term d)}
    (hM : IsCompiled d q M terms) (hM' : IsCompiled d q M' terms) {r c : ℕ} (hr : r < d)
    (hc : c < d) : M.entry r c = M'.entry r c := by
  have : NeZero d := ⟨by omega⟩
  have hcoeff := congrArg (fun p => coeff p (⟨r, hr⟩ : Fin d))
    ((hM.ring_column c hc).trans (hM'.ring_column c hc).symm)
  simp only [Poly.coeff_ring, PackingMatrix.column] at hcoeff
  have hmod := (ZMod.natCast_eq_natCast_iff _ _ q).mp hcoeff
  rwa [Nat.ModEq, Nat.mod_eq_of_lt (hM.entry_lt r c), Nat.mod_eq_of_lt (hM'.entry_lt r c)] at hmod

/-- **The action of a compiled block** on a coefficient vector. -/
theorem IsCompiled.action {M : PackingMatrix} {terms : List (Term d)} (hM : IsCompiled d q M terms)
    (hodd : ∀ t ∈ terms, Odd t.2) (y : Poly d) :
    ∑ c : Fin d, (y c : ZMod q) • Poly.ring q (M.column d c) =
      (terms.map fun t => Poly.ring q t.1 * tau t.2 (Poly.ring q y)).sum := by
  have hcol (c : Fin d) : (y c : ZMod q) • Poly.ring q (M.column d c) =
      (terms.map fun t => (y c : ZMod q) • (Poly.ring q t.1 * x ^ ((c : ℕ) * t.2))).sum := by
    rw [hM.ring_column c c.2, List.smul_sum, List.map_map]
    rfl
  simp only [hcol]
  clear hcol hM
  induction terms with
  | nil => simp
  | cons t terms ih =>
      have hrest := ih fun t' ht' => hodd t' (List.mem_cons_of_mem _ ht')
      simp only [List.map_cons, List.sum_cons, Finset.sum_add_distrib, hrest]
      congr 1
      have himage : tau t.2 (Poly.ring q y) = ∑ c : Fin d, (y c : ZMod q) • x ^ ((c : ℕ) * t.2) :=
        tau_ofCoeffs (hodd t List.mem_cons_self) _
      rw [himage, Finset.mul_sum]
      refine Finset.sum_congr rfl fun c _ => ?_
      rw [mul_smul_comm]

/-! ## Blocks side by side -/

/-- Limb vectors one after the other. -/
def joinLimbs (ys : List (Poly d)) : List ℕ := ys.flatMap List.ofFn

@[simp] theorem length_joinLimbs (ys : List (Poly d)) : (joinLimbs ys).length = ys.length * d := by
  simp [joinLimbs, List.length_flatMap]

theorem mem_joinLimbs {ys : List (Poly d)} {v : ℕ} (hv : v ∈ joinLimbs ys) :
    ∃ y ∈ ys, ∃ i, v = y i := by
  obtain ⟨y, hy, hmem⟩ := List.mem_flatMap.mp hv
  obtain ⟨i, rfl⟩ := (List.mem_ofFn' y v).mp hmem
  exact ⟨y, hy, i, rfl⟩

/-- A row of the concatenation meets every limb with its own block. -/
theorem sum_concatEntry {blocks : List PackingMatrix} {ys : List (Poly d)}
    (hcols : ∀ b ∈ blocks, b.cols = d) (hlen : blocks.length = ys.length) (r : ℕ) :
    ∑ c ∈ Finset.range (blocks.map PackingMatrix.cols).sum,
        ((PackingMatrix.concatEntry blocks r c : ℕ) : ZMod q) * ((joinLimbs ys).getD c 0 : ℕ) =
      ((blocks.zip ys).map fun p => ∑ c : Fin d, (p.1.entry r c : ZMod q) * (p.2 c : ℕ)).sum := by
  induction blocks generalizing ys with
  | nil => simp
  | cons b blocks ih =>
      obtain ⟨y, ys, rfl⟩ := List.exists_cons_of_length_eq_add_one hlen.symm
      have hb : b.cols = d := hcols b List.mem_cons_self
      have hrest := ih (fun b' hb' => hcols b' (List.mem_cons_of_mem _ hb'))
        (Nat.succ.inj hlen)
      have hjoin : joinLimbs (y :: ys) = List.ofFn y ++ joinLimbs ys := rfl
      rw [List.map_cons, List.sum_cons, Finset.sum_range_add, List.zip_cons_cons, List.map_cons,
        List.sum_cons, ← hrest, hb]
      congr 1
      · rw [Finset.sum_range]
        refine Finset.sum_congr rfl fun c _ => ?_
        have hentry : PackingMatrix.concatEntry (b :: blocks) r c = b.entry r c :=
          if_pos (by rw [hb]; exact c.2)
        rw [hentry, hjoin, List.getD_append _ _ _ _ (by simp), List.getD_eq_getElem _ _ (by simp),
          List.getElem_ofFn]
      · refine Finset.sum_congr rfl fun c _ => ?_
        have hentry : PackingMatrix.concatEntry (b :: blocks) r (d + c) =
            PackingMatrix.concatEntry blocks r c := by
          refine (if_neg (by omega)).trans ?_
          rw [hb, Nat.add_sub_cancel_left]
        rw [hentry, hjoin, List.getD_append_right _ _ _ _ (by simp), List.length_ofFn,
          Nat.add_sub_cancel_left]

/-- A row-by-row product is the combination of the columns. -/
theorem ring_rowSums {blocks : List PackingMatrix} {ys : List (Poly d)} {out : ℕ → ℕ}
    (hout : ∀ r < d, ((out r : ℕ) : ZMod q) =
      ((blocks.zip ys).map fun p => ∑ c : Fin d, (p.1.entry r c : ZMod q) * (p.2 c : ℕ)).sum) :
    Poly.ring q (fun r : Fin d => out r) = ((blocks.zip ys).map fun p =>
      ∑ c : Fin d, (p.2 c : ZMod q) • Poly.ring q (p.1.column d c)).sum := by
  have hcolumns (l : List (PackingMatrix × Poly d)) :
      (l.map fun p => ∑ c : Fin d, (p.2 c : ZMod q) • Poly.ring q (p.1.column d c)).sum =
        ofCoeffs fun r : Fin d =>
          (l.map fun p => ∑ c : Fin d, (p.1.entry r c : ZMod q) * (p.2 c : ℕ)).sum := by
    induction l with
    | nil => exact (map_zero ofCoeffs).symm
    | cons p l ih =>
        simp only [List.map_cons, List.sum_cons, ih]
        have hblock : ∑ c : Fin d, (p.2 c : ZMod q) • Poly.ring q (p.1.column d c) =
            ofCoeffs fun r : Fin d => ∑ c : Fin d, (p.1.entry r c : ZMod q) * (p.2 c : ℕ) := by
          simp only [Poly.ring, ← map_smul, ← map_sum]
          congr 1
          funext r
          simp [PackingMatrix.column, mul_comm]
        rw [hblock, ← map_add]
        rfl
  rw [hcolumns, Poly.ring]
  congr 1
  funext r
  exact hout r r.2

end Action

end Reinspiring
