import IpirSp.Loops.Calls
import IpirSp.Loops.Reduce
import IpirSp.MachineWord.Wrapping
import IpirSp.Reinspiring.Params

/-!
# Norms of weights

The offline accounting measures signed weights: the sum of their magnitudes, the sum of their
squares and the largest of them.  Every sum is checked, and panics past 128 bits.  `norms` is what
`measure` returns where its sum of squares fits (`measure_ok`); `independent` measures weights that
stand side by side (`independent_norms`), and `envelope` covers both of its arguments.

`abs_weightedSum_le` is what a norm is for: values within a bound, with weights of norm `l1`, sum up
to at most `l1` times the bound.
-/

namespace Reinspiring

open Loops MachineWord Inspiring

/-- `WeightNorms`. -/
structure WeightNorms where
  l1 : ℕ
  l2Squared : ℕ
  max : ℕ
deriving DecidableEq

namespace WeightNorms

/-- `WeightNorms::default`. -/
def default : WeightNorms := ⟨0, 0, 0⟩

/-- `expect` on a checked operation of 128 bits. -/
def expect (value : Option ℕ) (msg : String) : Result ℕ :=
  match value with
  | none => .error (.panic msg)
  | some n => .ok n

/-- One step of `measure`. -/
def measureStep (out : WeightNorms) (x : ℤ) : Result WeightNorms := do
  let x := x.natAbs
  let l1 ← expect (checkedAdd W128 (some out.l1) (some x)) "noise L1 overflow"
  let square ← expect (checkedMul W128 (some x) (some x)) "noise square overflow"
  let l2Squared ← expect (checkedAdd W128 (some out.l2Squared) (some square)) "noise L2 overflow"
  .ok ⟨l1, l2Squared, Nat.max out.max x⟩

/-- `measure`. -/
def measure (xs : List ℤ) : Result WeightNorms := xs.foldlM measureStep default

/-- `independent`. -/
def independent (v w : WeightNorms) : Result WeightNorms := do
  let l1 ← expect (checkedAdd W128 (some v.l1) (some w.l1)) "noise L1 overflow"
  let l2Squared ← expect (checkedAdd W128 (some v.l2Squared) (some w.l2Squared)) "noise L2 overflow"
  .ok ⟨l1, l2Squared, Nat.max v.max w.max⟩

/-- `envelope`. -/
def envelope (v w : WeightNorms) : WeightNorms :=
  ⟨Nat.max v.l1 w.l1, Nat.max v.l2Squared w.l2Squared, Nat.max v.max w.max⟩

/-- The norms of a list of weights. -/
def norms (xs : List ℤ) : WeightNorms :=
  ⟨(xs.map Int.natAbs).sum, (xs.map fun x => x.natAbs * x.natAbs).sum,
    (xs.map Int.natAbs).foldr Nat.max 0⟩

/-! ## Measuring -/

section Measure

@[simp] theorem norms_cons (x : ℤ) (xs : List ℤ) :
    norms (x :: xs) = ⟨x.natAbs + (norms xs).l1, x.natAbs * x.natAbs + (norms xs).l2Squared,
      Nat.max x.natAbs (norms xs).max⟩ := by
  simp [norms]

/-- Squares are at least the magnitudes. -/
theorem l1_le_l2Squared (xs : List ℤ) : (norms xs).l1 ≤ (norms xs).l2Squared := by
  induction xs with
  | nil => rfl
  | cons x xs ih =>
      rw [norms_cons]
      exact Nat.add_le_add (Nat.le_mul_self _) ih

theorem norms_append (xs ys : List ℤ) :
    norms (xs ++ ys) = ⟨(norms xs).l1 + (norms ys).l1, (norms xs).l2Squared + (norms ys).l2Squared,
      Nat.max (norms xs).max (norms ys).max⟩ := by
  induction xs with
  | nil => simp [norms]
  | cons x xs ih =>
      rw [List.cons_append, norms_cons, ih, norms_cons]
      simp only [Nat.add_assoc, Nat.max_assoc]

theorem expect_checkedAdd {a b : ℕ} (h : a + b < W128) (msg : String) :
    expect (checkedAdd W128 (some a) (some b)) msg = .ok (a + b) := by
  rw [checkedAdd_some h]
  rfl

theorem expect_checkedMul {a b : ℕ} (h : a * b < W128) (msg : String) :
    expect (checkedMul W128 (some a) (some b)) msg = .ok (a * b) := by
  rw [checkedMul_some h]
  rfl

/-- **Weights are measured** where their squares fit. -/
theorem measure_ok {xs : List ℤ} (h : (norms xs).l2Squared < W128) :
    measure xs = .ok (norms xs) := by
  have hrun (xs ys : List ℤ) (hfits : (norms (ys ++ xs)).l2Squared < W128) :
      xs.foldlM measureStep (norms ys) = .ok (norms (ys ++ xs)) := by
    induction xs generalizing ys with
    | nil =>
        rw [List.append_nil]
        rfl
    | cons x xs ih =>
        have hsplit : ys ++ x :: xs = (ys ++ [x]) ++ xs := by simp
        have hle : (norms (ys ++ [x])).l2Squared < W128 := by
          rw [hsplit, norms_append] at hfits
          exact (Nat.le_add_right _ _).trans_lt hfits
        have hsquare : (norms ys).l2Squared + x.natAbs * x.natAbs < W128 := by
          rw [norms_append] at hle
          simpa [norms] using hle
        have hl1 : (norms ys).l1 + x.natAbs < W128 :=
          (Nat.add_le_add (l1_le_l2Squared ys) (Nat.le_mul_self _)).trans_lt hsquare
        have hstep : measureStep (norms ys) x = .ok (norms (ys ++ [x])) := by
          rw [measureStep, expect_checkedAdd hl1, ok_bind,
            expect_checkedMul ((Nat.le_add_left _ _).trans_lt hsquare), ok_bind,
            expect_checkedAdd hsquare, ok_bind, norms_append]
          simp [norms]
        rw [List.foldlM_cons, hstep, ok_bind, ih _ (hsplit ▸ hfits), ← hsplit]
  exact hrun xs [] h

/-- **Independent weights stand side by side.** -/
theorem independent_norms {xs ys : List ℤ} (h : (norms (xs ++ ys)).l2Squared < W128) :
    (norms xs).independent (norms ys) = .ok (norms (xs ++ ys)) := by
  have hl1 := (l1_le_l2Squared (xs ++ ys)).trans_lt h
  rw [norms_append] at h hl1
  rw [independent, expect_checkedAdd hl1, ok_bind, expect_checkedAdd h, ok_bind, norms_append]

/-- Weights within a bound have bounded squares. -/
theorem l2Squared_le {xs : List ℤ} {m : ℕ} (h : ∀ x ∈ xs, x.natAbs ≤ m) :
    (norms xs).l2Squared ≤ xs.length * (m * m) := by
  have hle := List.sum_le_card_nsmul (xs.map fun x => x.natAbs * x.natAbs) (m * m) fun n hn => by
    obtain ⟨x, hx, rfl⟩ := List.mem_map.mp hn
    exact Nat.mul_le_mul (h x hx) (h x hx)
  rwa [List.length_map, smul_eq_mul] at hle

end Measure

/-! ## Envelopes -/

section Envelope

/-- The envelope of a list of norms. -/
def envelopeAll (l : List WeightNorms) : WeightNorms := l.foldl envelope default

theorem l1_le_foldl_envelope (l : List WeightNorms) (out : WeightNorms) :
    out.l1 ≤ (l.foldl envelope out).l1 ∧ ∀ w ∈ l, w.l1 ≤ (l.foldl envelope out).l1 := by
  induction l generalizing out with
  | nil => exact ⟨le_rfl, fun w hw => absurd hw List.not_mem_nil⟩
  | cons v l ih =>
      obtain ⟨hout, hrest⟩ := ih (out.envelope v)
      refine ⟨(Nat.le_max_left _ _).trans hout, fun w hw => ?_⟩
      rcases List.mem_cons.mp hw with rfl | hw
      · exact (Nat.le_max_right _ _).trans hout
      · exact hrest w hw

/-- **An envelope covers every row.** -/
theorem l1_le_envelopeAll {l : List WeightNorms} {w : WeightNorms} (hw : w ∈ l) :
    w.l1 ≤ (envelopeAll l).l1 := (l1_le_foldl_envelope l default).2 w hw

/-- A loop that measures one row after the other. -/
def envelopeRows (n : ℕ) (row : ℕ → Result WeightNorms) : Result WeightNorms :=
  (List.range n).foldlM (fun out r => do
    let w ← row r
    .ok (out.envelope w)) default

theorem envelopeRows_ok {n : ℕ} {row : ℕ → Result WeightNorms} {w : ℕ → WeightNorms}
    (h : ∀ r < n, row r = .ok (w r)) :
    envelopeRows n row = .ok (envelopeAll ((List.range n).map w)) := by
  have hrun (l : List ℕ) (hl : ∀ r ∈ l, row r = .ok (w r)) (out : WeightNorms) :
      l.foldlM (fun out r => do
        let w ← row r
        .ok (out.envelope w)) out = (.ok ((l.map w).foldl envelope out) : Result WeightNorms) := by
    induction l generalizing out with
    | nil => rfl
    | cons r l ih =>
        rw [List.foldlM_cons, hl r List.mem_cons_self, ok_bind]
        exact ih (fun r hr => hl r (List.mem_cons_of_mem _ hr)) _
  exact hrun _ (fun r hr => h r (List.mem_range.mp hr)) _

end Envelope

theorem cast_l1 (n : ℕ) (w : ℕ → ℤ) :
    (((norms ((List.range n).map w)).l1 : ℕ) : ℤ) = ∑ c ∈ Finset.range n, |w c| := by
  induction n with
  | zero => rfl
  | succ n ih =>
      have hlast : (norms [w n]).l1 = (w n).natAbs := by simp [norms]
      rw [List.range_succ, List.map_append, List.map_singleton, norms_append, Finset.sum_range_succ,
        ← ih, hlast, Int.abs_eq_natAbs]
      exact Nat.cast_add _ _

/-- **Values within a bound**, with weights of a norm. -/
theorem abs_weightedSum_le (n : ℕ) (w y : ℕ → ℤ) {bound : ℕ} (hy : ∀ c < n, |y c| ≤ bound) :
    |∑ c ∈ Finset.range n, w c * y c| ≤ (norms ((List.range n).map w)).l1 * bound := by
  rw [cast_l1, Finset.sum_mul]
  refine (Finset.abs_sum_le_sum_abs _ _).trans (Finset.sum_le_sum fun c hc => ?_)
  rw [abs_mul]
  exact mul_le_mul_of_nonneg_left (hy c (Finset.mem_range.mp hc)) (abs_nonneg _)

end WeightNorms

end Reinspiring
