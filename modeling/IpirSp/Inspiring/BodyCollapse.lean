import IpirSp.Inspiring.Collapse
import IpirSp.Inspiring.Aggregate
import IpirSp.Loops.Reduce

/-!
# Collapsing uploaded key bodies

Online, only the body of the cascade is left to compute, from the two uploaded key bodies and the
recorded digits.  There are two implementations.  `collapseUploadedBodyBStepwise` performs the
`d - 1` switches one at a time and reduces after each.  `collapseTerms` sums all products of all
switches in one `u128` accumulator a slot, divided among workers, and reduces once at the end;
`fusedAccumulatorFits` gates it.  `collapseUploadedBodyBBatched` is the fused form for several
queries.

An accumulator lane is an `Option ℕ` that becomes `none` when an addition leaves the `u128` range,
so a result that exists is a run in which no accumulator wrapped.

`fused_eq_stepwise` is the main result: under the gate, for every scheduler, the fused form returns
what the step-by-step form returns.  `batched_eq_single` is the corresponding fact about batches.
-/

namespace Inspiring

open Negacyclic SpiralRs KeySwitch Loops

/-- The range of the accumulators. -/
def U128 : ℕ := 2 ^ 128

/-- One `u128` accumulator a slot; `none` once it has wrapped. -/
abbrev Lanes (P : RlweParams) := Fin P.d → Option ℕ

/-- One term of the fused sum: `τ_table(body) · digits`. -/
structure CollapseTerm (P : RlweParams) where
  body : PolyMatrixNTT P.d P.q
  table : Option (NttAutomorphTable P.d)
  digits : PolyMatrixNTT P.d P.q

/-- Public fixed top-row key images and the body tables. -/
structure TopKeyImages (P : RlweParams) where
  kgTopLeft : List (PolyMatrixNTT P.d P.q)
  kgTopRight : List (PolyMatrixNTT P.d P.q)
  khTop : PolyMatrixNTT P.d P.q
  kgBodyLeftTables : List (NttAutomorphTable P.d)
  kgBodyRightTables : List (NttAutomorphTable P.d)

variable {P : RlweParams}

/-! ## The fused sum -/

section Fused

/-- The slot of the body that meets slot `dst` of the digits. -/
def CollapseTerm.src (term : CollapseTerm P) (dst : Fin P.d) : Fin P.d :=
  match term.table with
  | some table => table.indices dst
  | none => dst

/-- The product of digit `k` at slot `dst`, with the body read at `src`. -/
def CollapseTerm.product (term : CollapseTerm P) (src dst : Fin P.d) (k : ℕ) : ℕ :=
  (term.body.poly 0 k).word src * (term.digits.poly k 0).word dst

/-- `indices[dst] as usize & mask` with `mask = d - 1`. -/
def maskIndex (i : Fin P.d) : Fin P.d := Fin.ofNat P.d ((i : ℕ) &&& (P.d - 1))

/-- The path of `accumulate_collapse_term` for `ell = 3`. -/
def accumulateThree (term : CollapseTerm P) (acc : Lanes P) : Lanes P := fun dst =>
  let src := match term.table with
    | some table => maskIndex (table.indices dst)
    | none => dst
  checkedAdd U128 (acc dst) (checkedAdd U128
    (checkedAdd U128 (some (term.product src dst 0)) (some (term.product src dst 1)))
    (some (term.product src dst 2)))

/-- The slot-outer path of `accumulate_collapse_term`: digits are summed before the accumulator is
touched. -/
def accumulateSlotOuter (term : CollapseTerm P) (acc : Lanes P) : Lanes P := fun dst =>
  checkedAdd U128 (acc dst) ((List.range term.body.cols).foldl
    (fun sum k => checkedAdd U128 sum (some (term.product (term.src dst) dst k))) (some 0))

/-- `accumulate_collapse_term_digit_outer`: one pass over all accumulators a digit. -/
def accumulateCollapseTermDigitOuter (term : CollapseTerm P) (acc : Lanes P) : Lanes P :=
  (List.range term.body.cols).foldl
    (fun acc k dst => checkedAdd U128 (acc dst) (some (term.product (term.src dst) dst k))) acc

/-- `MAX_INLINE_ELL`. -/
def MAX_INLINE_ELL : ℕ := 8

/-- `accumulate_collapse_term`. -/
def accumulateCollapseTerm (acc : Lanes P) (term : CollapseTerm P) : Lanes P :=
  if term.body.cols = 3 then accumulateThree term acc
  else if term.body.cols > MAX_INLINE_ELL then accumulateCollapseTermDigitOuter term acc
  else accumulateSlotOuter term acc

/-- The reduction of `collapse_terms`, before the final pass. -/
def collapsePartials (tasks : TaskTree (CollapseTerm P)) : Lanes P :=
  tasks.eval accumulateCollapseTerm (fun _ => some 0)
    fun lhs rhs slot => checkedAdd U128 (lhs slot) (rhs slot)

/-- The final pass of `collapse_terms`: one Barrett reduction and one conditional subtraction a
slot.  `none` if an accumulator wrapped. -/
def finishLanes (b : Ntt P.d P.q) (partials : Lanes P) : Option (Ntt P.d P.q) :=
  if hall : ∀ slot, (partials slot).isSome then
    some {
      word := fun slot =>
        let reduced := P.spiral.barrettReductionU128 ((partials slot).get (hall slot))
        let sum := (b.word slot + reduced) % 2 ^ 64
        if sum ≥ P.q then sum - P.q else sum
      lt := fun slot => by
        have hb := b.lt slot
        have hr := P.spiral.barrettReductionU128_lt ((partials slot).get (hall slot))
        have := Nat.mod_le
          (b.word slot + P.spiral.barrettReductionU128 ((partials slot).get (hall slot))) (2 ^ 64)
        dsimp only
        split <;> omega }
  else none

/-- `collapse_terms`. -/
def collapseTerms (workers : Scheduler (CollapseTerm P)) (b : Ntt P.d P.q)
    (schedule : List (CollapseTerm P)) : Option (Ntt P.d P.q) :=
  finishLanes b (collapsePartials (workers.divide schedule))

variable (P) in
/-- `fused_accumulator_fits`.  The number of products counts polynomials held in memory, so it is
not reduced to the width of `usize`. -/
def fusedAccumulatorFits (ell : ℕ) : Bool :=
  let terms := (P.d - 1) * ell
  let maxProduct := min ((P.q - 1) * (P.q - 1)) (2 ^ 128 - 1)
  maxProduct * terms < 2 ^ 128

/-- The schedule of `collapse_uploaded_body_b`: the left tables from the last to the first, then the
right ones, then the `K_h` step, each with its recorded digits. -/
def collapseSchedule (kgBody khBody : PolyMatrixNTT P.d P.q) (topImages : TopKeyImages P)
    (digits : List (PolyMatrixNTT P.d P.q)) : List (CollapseTerm P) :=
  List.zipWith (fun (step : PolyMatrixNTT P.d P.q × Option (NttAutomorphTable P.d)) D =>
      ⟨step.1, step.2, D⟩)
    ((topImages.kgBodyLeftTables.reverse.map fun table => (kgBody, some table)) ++
      (topImages.kgBodyRightTables.reverse.map fun table => (kgBody, some table)) ++
      [(khBody, none)]) digits

end Fused

/-! ## The step-by-step form -/

section Stepwise

/-- The digit loop of `multiply_permuted_body_by_digits` at one slot, with `u128` additions that
wrap. -/
def permutedSlot (q : ℕ) (canReduceOnce : Bool) (product : ℕ → ℕ) (cols : ℕ) : ℕ :=
  (List.range cols).foldl (fun acc k =>
    let sum := (acc + product k) % 2 ^ 128
    if canReduceOnce then sum else sum % q) 0

/-- `multiply_permuted_body_by_digits`. -/
def multiplyPermutedBodyByDigits (bodyRow : PolyMatrixNTT P.d P.q)
    (bodyTable : NttAutomorphTable P.d) (digits : PolyMatrixNTT P.d P.q) :
    Outcome (Ntt P.d P.q) :=
  if bodyRow.rows ≠ 1 ∨ digits.cols ≠ 1 ∨ bodyRow.cols ≠ digits.rows then
    .error (.panic "assertion failed: body_row.cols == digits_ntt.rows")
  else
    let maxProduct := (P.q - 1) * (P.q - 1)
    let canReduceOnce := decide (maxProduct * bodyRow.cols < 2 ^ 128)
    let term : CollapseTerm P := ⟨bodyRow, some bodyTable, digits⟩
    .ok ⟨fun dst => permutedSlot P.q canReduceOnce (term.product (bodyTable.indices dst) dst)
        bodyRow.cols % P.q, fun _ => Nat.mod_lt _ P.q_pos⟩

/-- `collapse_uploaded_body_half`, on the tables from the last to the first; returns the digits
that are left. -/
def collapseUploadedBodyHalf (kgBody : PolyMatrixNTT P.d P.q) :
    List (NttAutomorphTable P.d) → List (PolyMatrixNTT P.d P.q) → Ntt P.d P.q →
      Outcome (Ntt P.d P.q × List (PolyMatrixNTT P.d P.q))
  | [], digits, b => .ok (b, digits)
  | _ :: _, [], _ => .error (.panic "index out of bounds")
  | table :: tables, D :: digits, b => do
      let nextB ← multiplyPermutedBodyByDigits kgBody table D
      collapseUploadedBodyHalf kgBody tables digits (P.spiral.addInto nextB b)

/-- `collapse_uploaded_body_b_stepwise`. -/
def collapseUploadedBodyBStepwise (b : Ntt P.d P.q) (kgBody khBody : PolyMatrixNTT P.d P.q)
    (topImages : TopKeyImages P) (digits : List (PolyMatrixNTT P.d P.q)) :
    Outcome (Ntt P.d P.q) := do
  let (b, digits) ← collapseUploadedBodyHalf kgBody topImages.kgBodyLeftTables.reverse digits b
  let (b, digits) ← collapseUploadedBodyHalf kgBody topImages.kgBodyRightTables.reverse digits b
  match digits with
  | [D] =>
      if khBody.cols ≠ D.rows then .error (.panic "assertion failed: a.cols == b.rows")
      else
        let finalB := P.spiral.multiply (khBody.row 0 khBody.cols) (D.col khBody.cols)
        .ok (P.spiral.addInto finalB b)
  | [] => .error (.panic "index out of bounds")
  | _ :: _ :: _ => .error (.panic "assertion failed: digit_idx == digits_ntt.len()")

end Stepwise

/-- The result of the fused sum, with a wrap reported the way a checked build does. -/
def overflowPanic (out : Option (Ntt P.d P.q)) : Outcome (Ntt P.d P.q) :=
  match out with
  | some out => .ok out
  | none => .error (.panic "attempt to add with overflow")

/-- `collapse_uploaded_body_b`. -/
def collapseUploadedBodyB (workers : Scheduler (CollapseTerm P)) (b : Ntt P.d P.q)
    (kgBody khBody : PolyMatrixNTT P.d P.q) (topImages : TopKeyImages P)
    (digits : List (PolyMatrixNTT P.d P.q)) : Outcome (Ntt P.d P.q) :=
  if digits.length ≠ P.d - 1 then
    .error (.panic "preprocess::collapse_uploaded_body_b expects d - 1 digit blocks")
  else if ¬fusedAccumulatorFits P kgBody.cols then
    collapseUploadedBodyBStepwise b kgBody khBody topImages digits
  else if topImages.kgBodyLeftTables.length ≠ P.d / 2 - 1 ∨
      topImages.kgBodyRightTables.length ≠ P.d / 2 - 1 then
    .error (.panic "assertion failed: left.len() == params.d / 2 - 1")
  else if digits.any fun D => D.cols ≠ 1 then
    .error (.panic "assertion failed: m.cols == 1")
  else
    overflowPanic (collapseTerms workers b (collapseSchedule kgBody khBody topImages digits))

/-! ## Batches -/

/-- A term shared by a batch: the body is that of the query, `K_h`'s if `useKh`. -/
structure BatchedTerm (P : RlweParams) where
  table : Option (NttAutomorphTable P.d)
  digits : PolyMatrixNTT P.d P.q
  useKh : Bool

/-- The key bodies of one query. -/
abbrev KeyBodies (P : RlweParams) := PolyMatrixNTT P.d P.q × PolyMatrixNTT P.d P.q

/-- The term of one query. -/
def BatchedTerm.forQuery (term : BatchedTerm P) (bodies : KeyBodies P) : CollapseTerm P :=
  ⟨if term.useKh then bodies.2 else bodies.1, term.table, term.digits⟩

/-- The body of a worker's loop: every query accumulates the term into its own lanes. -/
def accumulateBatchedTerm (bodies : List (KeyBodies P)) (acc : ℕ → Lanes P) (term : BatchedTerm P) :
    ℕ → Lanes P := fun queryIdx =>
  match bodies[queryIdx]? with
  | some pair => accumulateCollapseTerm (acc queryIdx) (term.forQuery pair)
  | none => acc queryIdx

/-- The shared schedule of `collapse_uploaded_body_b_batched`. -/
def batchedSchedule (topImages : TopKeyImages P) (digits : List (PolyMatrixNTT P.d P.q)) :
    List (BatchedTerm P) :=
  List.zipWith (fun (step : Option (NttAutomorphTable P.d) × Bool) D => ⟨step.1, D, step.2⟩)
    ((topImages.kgBodyLeftTables.reverse.map fun table => (some table, false)) ++
      (topImages.kgBodyRightTables.reverse.map fun table => (some table, false)) ++
      [(none, true)]) digits

/-- `collapse_uploaded_body_b_batched`. -/
def collapseUploadedBodyBBatched (workers : Scheduler (BatchedTerm P)) (b : List (Ntt P.d P.q))
    (bodies : List (KeyBodies P)) (topImages : TopKeyImages P)
    (digits : List (PolyMatrixNTT P.d P.q)) : Outcome (List (Ntt P.d P.q)) :=
  if digits.length ≠ P.d - 1 then
    .error (.panic "preprocess::collapse_uploaded_body_b_batched expects d - 1 digit blocks")
  else if b.length ≠ bodies.length then
    .error (.panic "one b per key-body pair")
  else if ¬bodies.all fun pair => fusedAccumulatorFits P pair.1.cols then
    (b.zip bodies).mapM fun (bOne, pair) =>
      collapseUploadedBodyBStepwise bOne pair.1 pair.2 topImages digits
  else if topImages.kgBodyLeftTables.length ≠ P.d / 2 - 1 ∨
      topImages.kgBodyRightTables.length ≠ P.d / 2 - 1 then
    .error (.panic "assertion failed: left.len() == params.d / 2 - 1")
  else if digits.any fun D => D.cols ≠ 1 then
    .error (.panic "assertion failed: m.cols == 1")
  else
    let partials := (workers.divide (batchedSchedule topImages digits)).eval
      (accumulateBatchedTerm bodies) (fun _ _ => some 0)
      fun lhs rhs queryIdx slot => checkedAdd U128 (lhs queryIdx slot) (rhs queryIdx slot)
    b.zipIdx.mapM fun (out, queryIdx) => overflowPanic (finishLanes out (partials queryIdx))

/-! ## What a term contributes -/

section Value

/-- The body polynomials of a term, moved by its table. -/
def CollapseTerm.image (term : CollapseTerm P) (k : Fin term.body.cols) : Ntt P.d P.q :=
  match term.table with
  | some table => applyTauNtt (term.body.poly 0 k) table
  | none => term.body.poly 0 k

/-- The ring element that a term adds to the body. -/
noncomputable def CollapseTerm.value (term : CollapseTerm P) : NegRing P.d (ZMod P.q) :=
  ∑ k, P.spiral.ring (term.image k) * P.spiral.ring (term.digits.poly k 0)

/-- The integer that a term adds to an accumulator. -/
def CollapseTerm.total (term : CollapseTerm P) (dst : Fin P.d) : ℕ :=
  ∑ k ∈ Finset.range term.body.cols, term.product (term.src dst) dst k

theorem CollapseTerm.eval_value (term : CollapseTerm P) (dst : Fin P.d) :
    P.spiral.slots.eval dst term.value = (term.total dst : ZMod P.q) := by
  rw [value, total, Finset.sum_range, map_sum]
  push_cast
  refine Finset.sum_congr rfl fun k _ => ?_
  rw [map_mul, P.spiral.eval_ring, P.spiral.eval_ring, product, Nat.cast_mul]
  refine congrArg (· * _) ?_
  simp only [image, src]
  split <;> rfl

theorem CollapseTerm.product_le (term : CollapseTerm P) (src dst : Fin P.d) (k : ℕ) :
    term.product src dst k ≤ (P.q - 1) * (P.q - 1) :=
  Nat.mul_le_mul (Nat.le_sub_one_of_lt ((term.body.poly 0 k).lt src))
    (Nat.le_sub_one_of_lt ((term.digits.poly k 0).lt dst))

theorem CollapseTerm.total_le (term : CollapseTerm P) (dst : Fin P.d) :
    term.total dst ≤ term.body.cols * ((P.q - 1) * (P.q - 1)) := by
  refine (Finset.sum_le_card_nsmul _ _ _ fun k _ => term.product_le _ dst k).trans ?_
  rw [Finset.card_range, smul_eq_mul]

end Value

/-! ## No accumulator wraps -/

section Accumulate

theorem maskIndex_eq (i : Fin P.d) : maskIndex i = i := by
  refine Fin.ext ?_
  have hmask : (i : ℕ) &&& (P.d - 1) = i := by
    have hmod := Nat.and_two_pow_sub_one_eq_mod (i : ℕ) P.spiral.logLen
    rwa [← P.d_eq, Nat.mod_eq_of_lt i.2] at hmod
  rw [maskIndex, hmask]
  exact Nat.mod_eq_of_lt i.2

/-- What an accumulation step does to one lane. -/
def laneStep (dst : Fin P.d) (acc : Option ℕ) (term : CollapseTerm P) : Option ℕ :=
  accumulateCollapseTerm (fun _ => acc) term dst

/-- Lanes do not depend on each other. -/
theorem accumulateCollapseTerm_apply (acc : Lanes P) (term : CollapseTerm P) (dst : Fin P.d) :
    accumulateCollapseTerm acc term dst = laneStep dst (acc dst) term := by
  have houter (n : ℕ) (f : ℕ → Fin P.d → ℕ) (acc acc' : Lanes P) (h : acc dst = acc' dst) :
      (List.range n).foldl (fun acc k dst => checkedAdd U128 (acc dst) (some (f k dst))) acc dst =
        (List.range n).foldl (fun acc k dst => checkedAdd U128 (acc dst) (some (f k dst)))
          acc' dst := by
    generalize List.range n = l
    induction l generalizing acc acc' with
    | nil => exact h
    | cons k l ih => exact ih _ _ (congrArg (fun a => checkedAdd U128 a (some (f k dst))) h)
  simp only [laneStep, accumulateCollapseTerm]
  split
  · rfl
  · split
    · exact houter _ (fun k dst => term.product (term.src dst) dst k) acc (fun _ => acc dst) rfl
    · rfl

/-- **Every path of `accumulate_collapse_term` adds the same total**, if it fits. -/
theorem laneStep_some (dst : Fin P.d) (term : CollapseTerm P) (v : ℕ)
    (h : v + term.total dst < U128) : laneStep dst (some v) term = some (v + term.total dst) := by
  have hsum := foldl_checkedAdd U128 (term.product (term.src dst) dst) term.body.cols
  simp only [laneStep, accumulateCollapseTerm]
  split
  · -- The special path for three digits, which reads the table through the mask.
    rename_i hthree
    have hsrc : (match term.table with
        | some table => maskIndex (table.indices dst)
        | none => dst) = term.src dst := by
      simp only [CollapseTerm.src, maskIndex_eq]
    have htotal : term.total dst = term.product (term.src dst) dst 0 +
        term.product (term.src dst) dst 1 + term.product (term.src dst) dst 2 := by
      rw [CollapseTerm.total, hthree]
      simp only [Finset.sum_range_succ, Finset.sum_range_zero, zero_add]
    simp only [accumulateThree, hsrc]
    rw [htotal] at h ⊢
    rw [checkedAdd_some (by omega), checkedAdd_some (by omega), checkedAdd_some (by omega)]
  · split
    · -- One pass a digit.
      have hpass (n : ℕ) (acc : Lanes P) (hacc : acc dst = some v)
          (hn : v + ∑ k ∈ Finset.range n, term.product (term.src dst) dst k < U128) :
          (List.range n).foldl (fun acc k dst =>
            checkedAdd U128 (acc dst) (some (term.product (term.src dst) dst k))) acc dst =
              some (v + ∑ k ∈ Finset.range n, term.product (term.src dst) dst k) := by
        induction n with
        | zero => simpa using hacc
        | succ n ih =>
            rw [Finset.sum_range_succ] at hn ⊢
            rw [List.range_succ, List.foldl_append, List.foldl_cons, List.foldl_nil,
              ih (by omega), checkedAdd_some (by omega), add_assoc]
      exact hpass term.body.cols (fun _ => some v) rfl h
    · -- All digits of a slot are summed first.
      have h0 : 0 + ∑ k ∈ Finset.range term.body.cols, term.product (term.src dst) dst k <
          U128 := by
        rw [zero_add]
        exact lt_of_le_of_lt (Nat.le_add_left _ v) h
      rw [accumulateSlotOuter, hsum 0 h0, zero_add]
      exact checkedAdd_some h

/-- **A lane of the reduction is the exact total of its terms**, for every division of the
schedule, if that total fits. -/
theorem collapsePartials_eq (tasks : TaskTree (CollapseTerm P)) (dst : Fin P.d)
    (hfits : (tasks.flatten.map fun term => term.total dst).sum < U128) :
    collapsePartials tasks dst = some (tasks.flatten.map fun term => term.total dst).sum := by
  have hlane : collapsePartials tasks dst =
      tasks.eval (laneStep dst) (some 0) (checkedAdd U128) :=
    TaskTree.eval_map (fun acc : Lanes P => acc dst)
      (fun acc term => accumulateCollapseTerm_apply acc term dst) (fun _ _ => rfl) _ tasks
  rw [hlane]
  exact tasks.eval_eq_sum (fun v term h => laneStep_some dst term v h) hfits

/-- **The gate bounds every accumulator.** -/
theorem sum_total_lt {ell : ℕ} (hgate : fusedAccumulatorFits P ell)
    {schedule : List (CollapseTerm P)}
    (hlen : schedule.length ≤ P.d - 1) (hcols : ∀ term ∈ schedule, term.body.cols = ell)
    (dst : Fin P.d) : (schedule.map fun term => term.total dst).sum < U128 := by
  have hq := P.spiral.modulus_lt
  have hsmall : (P.q - 1) * (P.q - 1) ≤ 2 ^ 128 - 1 := by
    have hle : (P.q - 1) * (P.q - 1) ≤ (2 ^ 64 - 1) * (2 ^ 64 - 1) :=
      Nat.mul_le_mul (by omega) (by omega)
    exact hle.trans (by norm_num)
  simp only [fusedAccumulatorFits, decide_eq_true_eq, min_eq_left hsmall] at hgate
  have hterm : ∀ t ∈ schedule.map fun term => term.total dst,
      t ≤ ell * ((P.q - 1) * (P.q - 1)) := by
    intro t ht
    obtain ⟨term, hmem, rfl⟩ := List.mem_map.mp ht
    exact (hcols term hmem) ▸ term.total_le dst
  calc (schedule.map fun term => term.total dst).sum
      ≤ (schedule.map fun term => term.total dst).length • (ell * ((P.q - 1) * (P.q - 1))) :=
        List.sum_le_card_nsmul _ _ hterm
    _ ≤ (P.d - 1) * (ell * ((P.q - 1) * (P.q - 1))) := by
        rw [List.length_map, smul_eq_mul]
        exact Nat.mul_le_mul_right _ hlen
    _ = (P.q - 1) * (P.q - 1) * ((P.d - 1) * ell) := by ring
    _ < U128 := hgate

/-- The final pass adds the exact lane totals modulo `q`. -/
theorem finishLanes_eq (hq : P.q < 2 ^ 62) (b : Ntt P.d P.q) {partials : Lanes P}
    (totals : Fin P.d → ℕ) (hpartials : ∀ dst, partials dst = some (totals dst))
    (hfits : ∀ dst, totals dst < U128) :
    ∃ out, finishLanes b partials = some out ∧
      ∀ dst, (out.word dst : ZMod P.q) = (b.word dst : ZMod P.q) + totals dst := by
  have hall : ∀ slot, (partials slot).isSome := fun slot => by rw [hpartials slot]; rfl
  refine ⟨_, dif_pos hall, fun dst => ?_⟩
  have hget : (partials dst).get (hall dst) = totals dst := by
    simp only [hpartials, Option.get_some]
  have hred : P.spiral.barrettReductionU128 (totals dst) = totals dst % P.q :=
    P.spiral.barrettReductionU128_eq _ (hfits dst)
  simp only [hget, hred]
  rw [(cast_condSub (b.lt dst) (Nat.mod_lt _ P.q_pos).le hq).1, ZMod.natCast_mod]

/-- **The fused sum.**  Under the gate no accumulator wraps, however the schedule is divided, and
the result is the body plus the values of all terms. -/
theorem finishLanes_collapsePartials (hq : P.q < 2 ^ 62) {ell : ℕ}
    (hgate : fusedAccumulatorFits P ell) (b : Ntt P.d P.q) (tasks : TaskTree (CollapseTerm P))
    (hlen : tasks.flatten.length ≤ P.d - 1) (hcols : ∀ term ∈ tasks.flatten, term.body.cols = ell) :
    ∃ out, finishLanes b (collapsePartials tasks) = some out ∧
      P.spiral.ring out = P.spiral.ring b + (tasks.flatten.map CollapseTerm.value).sum := by
  have hfits (dst : Fin P.d) : (tasks.flatten.map fun term => term.total dst).sum < U128 :=
    sum_total_lt hgate hlen hcols dst
  obtain ⟨out, hout, hword⟩ := finishLanes_eq hq b
    (fun dst => (tasks.flatten.map fun term => term.total dst).sum)
    (fun dst => collapsePartials_eq tasks dst (hfits dst)) hfits
  refine ⟨out, hout, P.spiral.ring_eq_of_word fun dst => ?_⟩
  rw [hword dst, map_add, P.spiral.eval_ring, map_list_sum, List.map_map]
  refine congrArg _ ?_
  push_cast [List.map_map]
  refine congrArg List.sum (List.map_congr_left fun term _ => ?_)
  exact (term.eval_value dst).symm

end Accumulate

/-! ## The step-by-step form adds the same values -/

/-- The digits and tables of one block, for gadget length `ell`. -/
structure BlockShape (topImages : TopKeyImages P) (digits : List (PolyMatrixNTT P.d P.q))
    (ell : ℕ) : Prop where
  digits_length : digits.length = P.d - 1
  digits_shape : ∀ D ∈ digits, D.rows = ell ∧ D.cols = 1
  left_length : topImages.kgBodyLeftTables.length = P.d / 2 - 1
  right_length : topImages.kgBodyRightTables.length = P.d / 2 - 1

/-- A key body of gadget length `ell`. -/
def BodyShape (body : PolyMatrixNTT P.d P.q) (ell : ℕ) : Prop := body.rows = 1 ∧ body.cols = ell

section Stepwise

/-- **The digit loop computes the sum modulo `q`** and its `u128` additions do not wrap, whichever
way it reduces. -/
theorem cast_permutedSlot {q : ℕ} (hq0 : 0 < q) (hq : q < 2 ^ 64) {product : ℕ → ℕ}
    (hle : ∀ k, product k ≤ (q - 1) * (q - 1)) (cols : ℕ) :
    ((permutedSlot q (decide ((q - 1) * (q - 1) * cols < 2 ^ 128)) product cols : ℕ) : ZMod q) =
      ∑ k ∈ Finset.range cols, (product k : ZMod q) := by
  have hsq : (q - 1) * (q - 1) ≤ (2 ^ 64 - 1) * (2 ^ 64 - 1) :=
    Nat.mul_le_mul (by omega) (by omega)
  have hsquare : (2 ^ 64 - 1) * (2 ^ 64 - 1) + 2 ^ 64 ≤ 2 ^ 128 := by norm_num
  by_cases honce : (q - 1) * (q - 1) * cols < 2 ^ 128
  · -- One reduction at the end: the running sum is the exact sum.
    have hrun (n : ℕ) (hn : n ≤ cols) :
        (List.range n).foldl (fun acc k => (acc + product k) % 2 ^ 128) 0 =
          ∑ k ∈ Finset.range n, product k ∧
        ∑ k ∈ Finset.range n, product k ≤ (q - 1) * (q - 1) * n := by
      induction n with
      | zero => simp
      | succ n ih =>
          obtain ⟨hacc, hbound⟩ := ih (by omega)
          have hnext : ∑ k ∈ Finset.range (n + 1), product k ≤ (q - 1) * (q - 1) * (n + 1) := by
            rw [Finset.sum_range_succ, Nat.mul_succ]
            exact Nat.add_le_add hbound (hle n)
          have hfit : (q - 1) * (q - 1) * (n + 1) ≤ (q - 1) * (q - 1) * cols :=
            Nat.mul_le_mul_left _ hn
          refine ⟨?_, hnext⟩
          rw [List.range_succ, List.foldl_append, hacc, List.foldl_cons, List.foldl_nil,
            ← Finset.sum_range_succ, Nat.mod_eq_of_lt (by omega)]
    simp only [permutedSlot, honce, decide_true, if_true]
    rw [(hrun cols le_rfl).1, Nat.cast_sum]
  · -- One reduction a digit: the running sum stays reduced.
    have hrun (n : ℕ) :
        (((List.range n).foldl (fun acc k => (acc + product k) % 2 ^ 128 % q) 0 : ℕ) : ZMod q) =
          ∑ k ∈ Finset.range n, (product k : ZMod q) ∧
        (List.range n).foldl (fun acc k => (acc + product k) % 2 ^ 128 % q) 0 < q := by
      induction n with
      | zero => simpa using hq0
      | succ n ih =>
          obtain ⟨hacc, hlt⟩ := ih
          rw [List.range_succ, List.foldl_append, List.foldl_cons, List.foldl_nil,
            Finset.sum_range_succ, ← hacc]
          have hprod := hle n
          refine ⟨?_, Nat.mod_lt _ hq0⟩
          rw [Nat.mod_eq_of_lt (by omega : _ + product n < 2 ^ 128), ZMod.natCast_mod, Nat.cast_add]
    simp only [permutedSlot, honce, decide_false, Bool.false_eq_true, if_false]
    exact (hrun cols).1

theorem multiplyPermutedBodyByDigits_eq {body D : PolyMatrixNTT P.d P.q} {ell : ℕ}
    (hbody : BodyShape body ell) (hD : D.rows = ell ∧ D.cols = 1) (table : NttAutomorphTable P.d) :
    ∃ out, multiplyPermutedBodyByDigits body table D = .ok out ∧
      P.spiral.ring out = CollapseTerm.value ⟨body, some table, D⟩ := by
  have hassert : ¬(body.rows ≠ 1 ∨ D.cols ≠ 1 ∨ body.cols ≠ D.rows) := by
    simp [hbody.1, hbody.2, hD.1, hD.2]
  rw [multiplyPermutedBodyByDigits, if_neg hassert]
  refine ⟨_, rfl, P.spiral.ring_eq_of_word fun dst => ?_⟩
  rw [CollapseTerm.eval_value, ZMod.natCast_mod,
    cast_permutedSlot P.q_pos P.spiral.modulus_lt fun k => CollapseTerm.product_le _ _ _ k,
    CollapseTerm.total, Nat.cast_sum]
  rfl

/-- The terms of one half of the schedule. -/
def halfTerms (kgBody : PolyMatrixNTT P.d P.q) (tables : List (NttAutomorphTable P.d))
    (digits : List (PolyMatrixNTT P.d P.q)) : List (CollapseTerm P) :=
  List.zipWith (fun table D => ⟨kgBody, some table, D⟩) tables digits

/-- One half of the cascade adds the values of its terms and leaves the rest of the digits. -/
theorem collapseUploadedBodyHalf_eq {kgBody : PolyMatrixNTT P.d P.q} {ell : ℕ}
    (hbody : BodyShape kgBody ell) (tables : List (NttAutomorphTable P.d))
    (used rest : List (PolyMatrixNTT P.d P.q)) (hlen : used.length = tables.length)
    (hused : ∀ D ∈ used, D.rows = ell ∧ D.cols = 1) (b : Ntt P.d P.q) :
    ∃ out, collapseUploadedBodyHalf kgBody tables (used ++ rest) b = .ok (out, rest) ∧
      P.spiral.ring out =
        P.spiral.ring b + ((halfTerms kgBody tables used).map CollapseTerm.value).sum := by
  induction tables generalizing used b with
  | nil =>
      obtain rfl : used = [] := List.length_eq_zero_iff.mp hlen
      exact ⟨b, rfl, by simp [halfTerms]⟩
  | cons table tables ih =>
      obtain ⟨D, used, rfl⟩ : ∃ D used', used = D :: used' := by
        cases used with
        | nil => simp at hlen
        | cons D used => exact ⟨D, used, rfl⟩
      obtain ⟨next, hnext, hvalue⟩ :=
        multiplyPermutedBodyByDigits_eq hbody (hused D List.mem_cons_self) table
      obtain ⟨out, hout, hring⟩ := ih used (by simpa using hlen)
        (fun D' hD' => hused D' (List.mem_cons_of_mem _ hD')) (P.spiral.addInto next b)
      refine ⟨out, ?_, ?_⟩
      · rw [List.cons_append, collapseUploadedBodyHalf, hnext]
        exact hout
      · rw [hring, P.spiral.ring_addInto, hvalue]
        simp only [halfTerms, List.zipWith_cons_cons, List.map_cons, List.sum_cons]
        ring

/-- A full schedule of digits, cut the way the cascade consumes it. -/
theorem exists_split_digits {topImages : TopKeyImages P} {digits : List (PolyMatrixNTT P.d P.q)}
    {ell : ℕ} (hshape : BlockShape topImages digits ell) :
    ∃ left right last, digits = left ++ (right ++ [last]) ∧
      left.length = topImages.kgBodyLeftTables.reverse.length ∧
      right.length = topImages.kgBodyRightTables.reverse.length := by
  have hd := P.two_le_d
  have heven := P.two_dvd_d
  have hlen := hshape.digits_length
  have hdrop : (digits.drop (P.d / 2 - 1)).length = P.d / 2 := by
    rw [List.length_drop]
    omega
  have hlast : ((digits.drop (P.d / 2 - 1)).drop (P.d / 2 - 1)).length = 1 := by
    rw [List.length_drop]
    omega
  obtain ⟨last, hlast⟩ := List.length_eq_one_iff.mp hlast
  refine ⟨digits.take (P.d / 2 - 1), (digits.drop (P.d / 2 - 1)).take (P.d / 2 - 1),
    last, ?_, ?_, ?_⟩
  · rw [← hlast, List.take_append_drop, List.take_append_drop]
  · rw [List.length_take, List.length_reverse, hshape.left_length]
    omega
  · rw [List.length_take, List.length_reverse, hshape.right_length]
    omega

/-- The schedule over a cut digit list. -/
theorem collapseSchedule_append (kgBody khBody : PolyMatrixNTT P.d P.q) {topImages : TopKeyImages P}
    {left right : List (PolyMatrixNTT P.d P.q)} {last : PolyMatrixNTT P.d P.q}
    (hleft : left.length = topImages.kgBodyLeftTables.reverse.length)
    (hright : right.length = topImages.kgBodyRightTables.reverse.length) :
    collapseSchedule kgBody khBody topImages (left ++ (right ++ [last])) =
      halfTerms kgBody topImages.kgBodyLeftTables.reverse left ++
        (halfTerms kgBody topImages.kgBodyRightTables.reverse right ++ [⟨khBody, none, last⟩]) := by
  rw [collapseSchedule, List.append_assoc, List.zipWith_append (by simp [hleft]),
    List.zipWith_append (by simp [hright]), List.zipWith_map_left, List.zipWith_map_left]
  rfl

/-- **The step-by-step cascade** adds the value of every term of the schedule. -/
theorem collapseUploadedBodyBStepwise_eq {kgBody khBody : PolyMatrixNTT P.d P.q}
    {topImages : TopKeyImages P} {digits : List (PolyMatrixNTT P.d P.q)} {ell : ℕ}
    (hshape : BlockShape topImages digits ell) (hkg : BodyShape kgBody ell)
    (hkh : BodyShape khBody ell) (b : Ntt P.d P.q) :
    ∃ out, collapseUploadedBodyBStepwise b kgBody khBody topImages digits = .ok out ∧
      P.spiral.ring out = P.spiral.ring b +
        ((collapseSchedule kgBody khBody topImages digits).map CollapseTerm.value).sum := by
  obtain ⟨left, right, last, rfl, hleft, hright⟩ := exists_split_digits hshape
  have hmem (D : PolyMatrixNTT P.d P.q) (hD : D ∈ left ++ (right ++ [last])) :=
    hshape.digits_shape D hD
  obtain ⟨b₁, hrun₁, hring₁⟩ := collapseUploadedBodyHalf_eq hkg topImages.kgBodyLeftTables.reverse
    left (right ++ [last]) hleft (fun D hD => hmem D (by simp [hD])) b
  obtain ⟨b₂, hrun₂, hring₂⟩ := collapseUploadedBodyHalf_eq hkg topImages.kgBodyRightTables.reverse
    right [last] hright (fun D hD => hmem D (by simp [hD])) b₁
  have hlast : ¬khBody.cols ≠ last.rows := by
    rw [not_not, hkh.2, (hmem last (by simp)).1]
  refine ⟨P.spiral.addInto (P.spiral.multiply (khBody.row 0 khBody.cols)
    (last.col khBody.cols)) b₂, ?_, ?_⟩
  · rw [collapseUploadedBodyBStepwise, hrun₁]
    show (do
      let (b, digits) ← collapseUploadedBodyHalf kgBody topImages.kgBodyRightTables.reverse
        (right ++ [last]) b₁
      match digits with
      | [D] =>
          if khBody.cols ≠ D.rows then Except.error (.panic "assertion failed: a.cols == b.rows")
          else Except.ok (P.spiral.addInto (P.spiral.multiply (khBody.row 0 khBody.cols)
            (D.col khBody.cols)) b)
      | [] => Except.error (.panic "index out of bounds")
      | _ :: _ :: _ => Except.error (.panic "assertion failed: digit_idx == digits_ntt.len()")) = _
    rw [hrun₂]
    exact if_neg hlast
  · rw [P.spiral.ring_addInto, P.spiral.ring_multiply, hring₂, hring₁,
      collapseSchedule_append kgBody khBody hleft hright]
    simp only [List.map_append, List.sum_append, List.map_cons, List.map_nil, List.sum_cons,
      List.sum_nil]
    have hvalue : ∑ k, P.spiral.ring (khBody.row 0 khBody.cols k) *
        P.spiral.ring (last.col khBody.cols k) = CollapseTerm.value ⟨khBody, none, last⟩ := rfl
    rw [hvalue]
    ring

end Stepwise

/-! ## Agreement -/

section Agreement

variable {kgBody khBody : PolyMatrixNTT P.d P.q} {topImages : TopKeyImages P}
  {digits : List (PolyMatrixNTT P.d P.q)} {ell : ℕ}

theorem length_collapseSchedule (hshape : BlockShape topImages digits ell) :
    (collapseSchedule kgBody khBody topImages digits).length = P.d - 1 := by
  have hd := P.two_le_d
  have heven := P.two_dvd_d
  simp only [collapseSchedule, List.length_zipWith, List.length_append, List.length_map,
    List.length_reverse, List.length_cons, List.length_nil, hshape.left_length,
    hshape.right_length, hshape.digits_length]
  omega

theorem collapseSchedule_cols (hshape : BlockShape topImages digits ell)
    (hkg : BodyShape kgBody ell) (hkh : BodyShape khBody ell) :
    ∀ term ∈ collapseSchedule kgBody khBody topImages digits, term.body.cols = ell := by
  obtain ⟨left, right, last, rfl, hleft, hright⟩ := exists_split_digits hshape
  rw [collapseSchedule_append kgBody khBody hleft hright]
  have hhalf (tables : List (NttAutomorphTable P.d)) (ds : List (PolyMatrixNTT P.d P.q)) :
      ∀ term ∈ halfTerms kgBody tables ds, term.body.cols = ell := by
    intro term hterm
    obtain ⟨i, hi, rfl⟩ := List.getElem_of_mem hterm
    simp only [halfTerms, List.getElem_zipWith]
    exact hkg.2
  intro term hterm
  simp only [List.mem_append, List.mem_singleton] at hterm
  rcases hterm with hterm | hterm | rfl
  · exact hhalf _ _ term hterm
  · exact hhalf _ _ term hterm
  · exact hkh.2

/-- Any tree over the schedule computes what the step-by-step cascade computes. -/
theorem fused_tasks_eq_stepwise (hq : P.q < 2 ^ 62) (hgate : fusedAccumulatorFits P ell)
    (hshape : BlockShape topImages digits ell) (hkg : BodyShape kgBody ell)
    (hkh : BodyShape khBody ell) (b : Ntt P.d P.q) (tasks : TaskTree (CollapseTerm P))
    (hflat : tasks.flatten = collapseSchedule kgBody khBody topImages digits) :
    ∃ out, finishLanes b (collapsePartials tasks) = some out ∧
      collapseUploadedBodyBStepwise b kgBody khBody topImages digits = .ok out := by
  obtain ⟨out, hout, hring⟩ := finishLanes_collapsePartials hq hgate b tasks
    (hflat ▸ (length_collapseSchedule hshape).le) (hflat ▸ collapseSchedule_cols hshape hkg hkh)
  obtain ⟨out', hout', hring'⟩ := collapseUploadedBodyBStepwise_eq hshape hkg hkh b
  rw [hflat] at hring
  exact ⟨out, hout, by rw [hout', P.spiral.ring_injective (hring'.trans hring.symm)]⟩

/-- **The fused sum equals the step-by-step cascade.**  Under the gate no accumulator wraps, for
every division of the schedule among workers, and the result is the polynomial that the cascade
computes with a reduction after every switch. -/
theorem fused_eq_stepwise (hq : P.q < 2 ^ 62) (hgate : fusedAccumulatorFits P ell)
    (hshape : BlockShape topImages digits ell) (hkg : BodyShape kgBody ell)
    (hkh : BodyShape khBody ell) (workers : Scheduler (CollapseTerm P)) (b : Ntt P.d P.q) :
    ∃ out, collapseTerms workers b (collapseSchedule kgBody khBody topImages digits) = some out ∧
      collapseUploadedBodyBStepwise b kgBody khBody topImages digits = .ok out := by
  exact fused_tasks_eq_stepwise hq hgate hshape hkg hkh b _ (workers.flatten_divide _)

/-- The gated entry point always returns what the step-by-step cascade returns. -/
theorem collapseUploadedBodyB_eq_stepwise (hq : P.q < 2 ^ 62)
    (hshape : BlockShape topImages digits ell) (hkg : BodyShape kgBody ell)
    (hkh : BodyShape khBody ell) (workers : Scheduler (CollapseTerm P)) (b : Ntt P.d P.q) :
    collapseUploadedBodyB workers b kgBody khBody topImages digits =
      collapseUploadedBodyBStepwise b kgBody khBody topImages digits := by
  by_cases hgate : fusedAccumulatorFits P ell
  · have hlens : ¬(topImages.kgBodyLeftTables.length ≠ P.d / 2 - 1 ∨
        topImages.kgBodyRightTables.length ≠ P.d / 2 - 1) := by
      simp [hshape.left_length, hshape.right_length]
    have hcols : ¬(digits.any fun D => D.cols ≠ 1) = true := by
      simp only [List.any_eq_true, decide_eq_true_eq, not_exists, not_and, not_not]
      exact fun D hD => (hshape.digits_shape D hD).2
    obtain ⟨out, hfused, hstep⟩ := fused_eq_stepwise hq hgate hshape hkg hkh workers b
    rw [collapseUploadedBodyB, if_neg (not_not.mpr hshape.digits_length), hkg.2,
      if_neg (not_not.mpr hgate), if_neg hlens, if_neg hcols, hfused, hstep]
    rfl
  · rw [collapseUploadedBodyB, if_neg (not_not.mpr hshape.digits_length), hkg.2, if_pos hgate]

/-- The shared schedule of a batch, read for one query, is the schedule of that query. -/
theorem batchedSchedule_forQuery (pair : KeyBodies P) :
    (batchedSchedule topImages digits).map (BatchedTerm.forQuery · pair) =
      collapseSchedule pair.1 pair.2 topImages digits := by
  rw [batchedSchedule, collapseSchedule, List.map_zipWith]
  have hsteps : ((topImages.kgBodyLeftTables.reverse.map fun table => (pair.1, some table)) ++
      (topImages.kgBodyRightTables.reverse.map fun table => (pair.1, some table)) ++
      [(pair.2, none)]) =
      ((topImages.kgBodyLeftTables.reverse.map fun table => (some table, false)) ++
        (topImages.kgBodyRightTables.reverse.map fun table => (some table, false)) ++
        [(none, true)]).map fun step : Option (NttAutomorphTable P.d) × Bool =>
          (if step.2 then pair.2 else pair.1, step.1) := by
    simp [Function.comp_def]
  rw [hsteps, List.zipWith_map_left]
  rfl

/-- The lanes of one query of a batch are those of its own reduction. -/
theorem batchedPartials_apply {bodies : List (KeyBodies P)} {queryIdx : ℕ} {pair : KeyBodies P}
    (hpair : bodies[queryIdx]? = some pair) (tasks : TaskTree (BatchedTerm P)) :
    tasks.eval (accumulateBatchedTerm bodies) (fun _ _ => some 0)
        (fun lhs rhs queryIdx slot => checkedAdd U128 (lhs queryIdx slot) (rhs queryIdx slot))
        queryIdx =
      collapsePartials (tasks.map (BatchedTerm.forQuery · pair)) := by
  rw [collapsePartials, TaskTree.eval_items_map]
  refine TaskTree.eval_map (fun acc : ℕ → Lanes P => acc queryIdx) (fun acc term => ?_)
    (fun _ _ => rfl) _ tasks
  simp only [accumulateBatchedTerm, hpair]

/-- **A batch returns for each query what the query alone returns.** -/
theorem batched_eq_single (hq : P.q < 2 ^ 62) (hshape : BlockShape topImages digits ell)
    {b : List (Ntt P.d P.q)} {bodies : List (KeyBodies P)} (hlen : b.length = bodies.length)
    (hbodies : ∀ pair ∈ bodies, BodyShape pair.1 ell ∧ BodyShape pair.2 ell)
    (batchWorkers : Scheduler (BatchedTerm P)) (workers : Scheduler (CollapseTerm P)) :
    collapseUploadedBodyBBatched batchWorkers b bodies topImages digits =
      (b.zip bodies).mapM fun (bOne, pair) =>
        collapseUploadedBodyB workers bOne pair.1 pair.2 topImages digits := by
  have hsingle (i : ℕ) (hi : i < b.length) (hi' : i < bodies.length) :
      collapseUploadedBodyB workers b[i] bodies[i].1 bodies[i].2 topImages digits =
        collapseUploadedBodyBStepwise b[i] bodies[i].1 bodies[i].2 topImages digits := by
    obtain ⟨hkg, hkh⟩ := hbodies _ (List.getElem_mem hi')
    exact collapseUploadedBodyB_eq_stepwise hq hshape hkg hkh workers b[i]
  have hlens : ¬(topImages.kgBodyLeftTables.length ≠ P.d / 2 - 1 ∨
      topImages.kgBodyRightTables.length ≠ P.d / 2 - 1) := by
    simp [hshape.left_length, hshape.right_length]
  have hcols : ¬(digits.any fun D => D.cols ≠ 1) = true := by
    simp only [List.any_eq_true, decide_eq_true_eq, not_exists, not_and, not_not]
    exact fun D hD => (hshape.digits_shape D hD).2
  rw [collapseUploadedBodyBBatched, if_neg (not_not.mpr hshape.digits_length),
    if_neg (not_not.mpr hlen)]
  by_cases hfits : (bodies.all fun pair => fusedAccumulatorFits P pair.1.cols) = true
  · rw [if_neg (not_not.mpr hfits), if_neg hlens, if_neg hcols]
    -- Every query of the batch runs its own tree, and ends where the cascade ends.
    refine mapM_eq_mapM _ _ (by simp [hlen]) fun i hi _ => ?_
    have hb : i < b.length := by simpa using hi
    have hbodies' : i < bodies.length := hlen ▸ hb
    have hmem : bodies[i] ∈ bodies := List.getElem_mem hbodies'
    obtain ⟨hkg, hkh⟩ := hbodies _ hmem
    have hgate : fusedAccumulatorFits P ell = true := by
      rw [← hkg.2]
      exact List.all_eq_true.mp hfits _ hmem
    obtain ⟨out, hout, hstep⟩ := fused_tasks_eq_stepwise hq hgate hshape hkg hkh b[i]
      ((batchWorkers.divide (batchedSchedule topImages digits)).map
        (BatchedTerm.forQuery · bodies[i]))
      (by rw [TaskTree.flatten_map, batchWorkers.flatten_divide, batchedSchedule_forQuery])
    simp only [List.getElem_zipIdx, List.getElem_zip, zero_add]
    rw [batchedPartials_apply (List.getElem?_eq_getElem hbodies'), hout,
      hsingle i hb hbodies', hstep]
    rfl
  · rw [if_pos hfits]
    refine mapM_eq_mapM _ _ rfl fun i hi _ => ?_
    have hi' : i < b.length ∧ i < bodies.length := by simpa using hi
    simp only [List.getElem_zip]
    exact (hsingle i hi'.1 hi'.2).symm

/-- **The fused collapse.**  Under the gate the fused sum of a block does not wrap for any division
of the schedule among workers, it is what the entry point returns and it is the body of the
step-by-step cascade; a batch returns for each query what the query alone returns. -/
theorem fusedCollapse_spec {P : RlweParams} {ell : ℕ} (hq : P.q < 2 ^ 62)
    (hgate : fusedAccumulatorFits P ell) {topImages : TopKeyImages P}
    {digits : List (PolyMatrixNTT P.d P.q)} (hshape : BlockShape topImages digits ell) :
    (∀ (workers : Scheduler (CollapseTerm P)) (kgBody khBody : PolyMatrixNTT P.d P.q)
        (b : Ntt P.d P.q), BodyShape kgBody ell → BodyShape khBody ell →
      ∃ out, collapseTerms workers b (collapseSchedule kgBody khBody topImages digits) = some out ∧
        collapseUploadedBodyB workers b kgBody khBody topImages digits = .ok out ∧
        collapseUploadedBodyBStepwise b kgBody khBody topImages digits = .ok out) ∧
      ∀ (batchWorkers : Scheduler (BatchedTerm P)) (workers : Scheduler (CollapseTerm P))
        (b : List (Ntt P.d P.q)) (bodies : List (KeyBodies P)), b.length = bodies.length →
        (∀ pair ∈ bodies, BodyShape pair.1 ell ∧ BodyShape pair.2 ell) →
      collapseUploadedBodyBBatched batchWorkers b bodies topImages digits =
        (b.zip bodies).mapM fun (bOne, pair) =>
          collapseUploadedBodyB workers bOne pair.1 pair.2 topImages digits := by
  refine ⟨fun workers kgBody khBody b hkg hkh => ?_,
    fun batchWorkers workers b bodies hlen hbodies =>
    batched_eq_single hq hshape hlen hbodies batchWorkers workers⟩
  obtain ⟨out, hfused, hstep⟩ := fused_eq_stepwise hq hgate hshape hkg hkh workers b
  refine ⟨out, hfused, ?_, hstep⟩
  rw [collapseUploadedBodyB_eq_stepwise hq hshape hkg hkh workers b, hstep]

/-- Fixed images of the small parameter set: one table a half. -/
def smallTopImages : TopKeyImages smallParams :=
  let table : NttAutomorphTable 4 := ⟨5, ![1, 0, 3, 2], by decide⟩
  let row := PolyMatrixNTT.ofRow 2 fun k => smallParams.spiral.toNttAlloc fun i => i + k
  ⟨[row], [row], row, [table], [table]⟩

/-- Three digit blocks of the small parameter set. -/
def smallDigits : List (PolyMatrixNTT smallParams.d smallParams.q) :=
  List.replicate 3 (.ofCol 2 fun k => smallParams.spiral.toNttAlloc fun i => 3 * i + k)

/-- The small parameter set passes the gate. -/
theorem fusedCollapse_spec_small :
    ∃ out, collapseTerms (Scheduler.perItem _) (smallParams.spiral.toNttAlloc fun i => i)
        (collapseSchedule (.ofRow 2 fun k => smallParams.spiral.toNttAlloc fun i => i * k)
          (.ofRow 2 fun k => smallParams.spiral.toNttAlloc fun i => i + 7 * k) smallTopImages
          smallDigits) = some out := by
  have hshape : BlockShape smallTopImages smallDigits 2 :=
    ⟨rfl, fun D hD => by rw [List.eq_of_mem_replicate hD]; exact ⟨rfl, rfl⟩, rfl, rfl⟩
  have hgate : fusedAccumulatorFits smallParams 2 := by decide
  have hblock := (fusedCollapse_spec (by decide) hgate hshape).1
    (Scheduler.perItem _) (.ofRow 2 fun k => smallParams.spiral.toNttAlloc fun i => i * k)
    (.ofRow 2 fun k => smallParams.spiral.toNttAlloc fun i => i + 7 * k)
    (smallParams.spiral.toNttAlloc fun i => i) ⟨rfl, rfl⟩ ⟨rfl, rfl⟩
  obtain ⟨out, hout, -⟩ := hblock
  exact ⟨out, hout⟩

end Agreement

end Inspiring
