import Mathlib.Tactic

/-!
# Rejection sampling

A rejection sampler makes draws until one is accepted and returns the value of that draw.  `accept`
says which draws are accepted and with which value; `firstAccepted` is the loop, on the draws that a
generator is going to make.

If every value has the same number of draws (`EqualFibres`), the sampler is exactly uniform, and
`EqualFibres.law` says so for a whole run: of all sequences of `n` draws every value is the result
of the same number, and the sequences without a result are those of rejected draws only.
-/

namespace Sampling

section Loop

variable {α β : Type*}

/-- The value of the first accepted draw and the draws after it; `none` while no draw has been
accepted. -/
def firstAccepted (accept : α → Option β) : List α → Option (β × List α)
  | [] => none
  | draw :: rest =>
      match accept draw with
      | some value => some (value, rest)
      | none => firstAccepted accept rest

/-- The value that a sampler has returned after some draws. -/
def outcome (accept : α → Option β) (draws : List α) : Option β :=
  (firstAccepted accept draws).map Prod.fst

@[simp] theorem outcome_nil (accept : α → Option β) : outcome accept [] = none := rfl

theorem outcome_cons_some {accept : α → Option β} {draw : α} {value : β}
    (h : accept draw = some value) (rest : List α) :
    outcome accept (draw :: rest) = some value := by
  rw [outcome, firstAccepted, h]
  rfl

theorem outcome_cons_none {accept : α → Option β} {draw : α} (h : accept draw = none)
    (rest : List α) : outcome accept (draw :: rest) = outcome accept rest := by
  rw [outcome, firstAccepted, h]
  rfl

end Loop

section Counting

variable {α β : Type*} [Fintype α] [DecidableEq β]

/-- The draws that are accepted with a value. -/
def fibre (accept : α → Option β) (value : β) : Finset α :=
  Finset.univ.filter fun draw => accept draw = some value

/-- The rejected draws. -/
def rejected (accept : α → Option β) : Finset α :=
  Finset.univ.filter fun draw => accept draw = none

/-- The sequences of `n` draws after which the sampler has returned a value. -/
def runs (accept : α → Option β) (n : ℕ) (value : β) : Finset (Fin n → α) :=
  Finset.univ.filter fun draws => outcome accept (List.ofFn draws) = some value

/-- The values of a sampler all have the same positive number of draws. -/
structure EqualFibres (accept : α → Option β) (values : Finset β) (count : ℕ) : Prop where
  pos : 0 < count
  mem : ∀ draw value, accept draw = some value → value ∈ values
  card : ∀ value ∈ values, (fibre accept value).card = count

section Law

variable {accept : α → Option β} {values : Finset β} {count : ℕ}

/-- Every draw is rejected or has one of the values. -/
theorem EqualFibres.card_draws (h : EqualFibres accept values count) :
    values.card * count + (rejected accept).card = Fintype.card α := by
  have hmaps : Set.MapsTo accept (Finset.univ : Finset α) values.insertNone := by
    intro draw _
    rw [Finset.mem_coe, Finset.mem_insertNone]
    exact fun value hvalue => h.mem draw value hvalue
  have hsum := Finset.card_eq_sum_card_fiberwise hmaps
  rw [Finset.sum_insertNone, Finset.card_univ] at hsum
  rw [hsum, add_comm, ← smul_eq_mul, ← Finset.sum_const]
  exact congrArg (_ + ·) (Finset.sum_congr rfl fun value hvalue => (h.card value hvalue).symm)

/-- **One more draw.**  A sequence returns a value by its first draw, or rejects it and returns the
value by the rest. -/
theorem card_runs_succ (accept : α → Option β) (n : ℕ) (value : β) :
    (runs accept (n + 1) value).card = (fibre accept value).card * Fintype.card α ^ n +
      (rejected accept).card * (runs accept n value).card := by
  have hdraw (draw : α) : (∑ rest : Fin n → α,
      if outcome accept (List.ofFn (Fin.cons draw rest : Fin (n + 1) → α)) =
        some value then 1 else 0) = (if accept draw = some value then Fintype.card α ^ n else 0) +
          if accept draw = none then (runs accept n value).card else 0 := by
    simp only [List.ofFn_cons]
    rcases haccept : accept draw with _ | v
    · simp only [outcome_cons_none haccept]
      rw [if_neg (by simp), if_pos trivial, zero_add, runs, Finset.card_filter]
    · simp only [outcome_cons_some haccept]
      by_cases hv : v = value
      · simp [hv]
      · simp [hv]
  rw [runs, Finset.card_filter, ← (Fin.consEquiv fun _ => α).sum_comp, Fintype.sum_prod_type]
  rw [fibre, rejected, Finset.card_filter, Finset.card_filter, Finset.sum_mul, Finset.sum_mul,
    ← Finset.sum_add_distrib]
  refine Finset.sum_congr rfl fun draw _ => ?_
  rw [ite_mul, ite_mul, one_mul, one_mul, zero_mul, zero_mul]
  exact hdraw draw

/-- **The law of a run.**  Of the sequences of `n` draws, each value is the result of as many as any
other, and all but those of rejected draws have a result. -/
theorem EqualFibres.law (h : EqualFibres accept values count) (n : ℕ) {value : β}
    (hvalue : value ∈ values) :
    values.card * (runs accept n value).card + (rejected accept).card ^ n = Fintype.card α ^ n := by
  induction n with
  | zero =>
      have hempty : runs accept 0 value = ∅ := by
        refine Finset.filter_false_of_mem fun draws _ => ?_
        rw [List.ofFn_zero, outcome_nil]
        exact fun hnone => Option.some_ne_none _ hnone.symm
      rw [hempty, Finset.card_empty, mul_zero, zero_add, pow_zero, pow_zero]
  | succ n ih =>
      have hdraws := h.card_draws
      rw [card_runs_succ, h.card value hvalue, pow_succ (Fintype.card α)]
      calc values.card * (count * Fintype.card α ^ n +
            (rejected accept).card * (runs accept n value).card) + (rejected accept).card ^ (n + 1)
          = values.card * count * Fintype.card α ^ n + (rejected accept).card *
              (values.card * (runs accept n value).card + (rejected accept).card ^ n) := by ring
        _ = (values.card * count + (rejected accept).card) * Fintype.card α ^ n := by rw [ih]; ring
        _ = Fintype.card α ^ n * Fintype.card α := by rw [hdraws, mul_comm]

end Law

end Counting

/-! ## Multiples in a window -/

/-- **A half-open window of `m` steps holds `m` multiples**, wherever it starts. -/
theorem mem_window_iff {b : ℕ} (hb : 0 < b) (c m x : ℕ) :
    c ≤ x * b ∧ x * b < c + m * b ↔ (c + b - 1) / b ≤ x ∧ x < (c + b - 1) / b + m := by
  have hlow (y : ℕ) : (c + b - 1) / b ≤ y ↔ c ≤ y * b := by
    rw [Nat.div_le_iff_le_mul hb]
    omega
  rw [hlow, and_congr_right_iff]
  intro hx
  rcases Nat.lt_or_ge x m with hlt | hge
  · refine iff_of_true ?_ (hlt.trans_le (Nat.le_add_left _ _))
    exact (Nat.mul_lt_mul_of_pos_right hlt hb).trans_le (Nat.le_add_left _ _)
  · -- shift the window down by `m` steps
    obtain ⟨y, rfl⟩ := Nat.exists_eq_add_of_le' hge
    rw [Nat.add_mul, Nat.add_lt_add_iff_right, Nat.add_lt_add_iff_right, ← not_le, ← not_le, hlow]

/-- The number of draws below a bound that land in a window of multiples. -/
theorem card_window {size b : ℕ} (hb : 0 < b) {c m : ℕ} (hfit : c + m * b ≤ size * b) :
    (Finset.univ.filter fun x : Fin size => c ≤ (x : ℕ) * b ∧ (x : ℕ) * b < c + m * b).card =
      m := by
  have himage : (Finset.univ.filter fun x : Fin size =>
      c ≤ (x : ℕ) * b ∧ (x : ℕ) * b < c + m * b).map Fin.valEmbedding =
        Finset.Ico ((c + b - 1) / b) ((c + b - 1) / b + m) := by
    ext x
    rw [Finset.mem_map, Finset.mem_Ico, ← mem_window_iff hb]
    constructor
    · rintro ⟨y, hy, rfl⟩
      exact (Finset.mem_filter.mp hy).2
    · intro hx
      have hlt : x < size := Nat.lt_of_mul_lt_mul_right (hx.2.trans_le hfit)
      exact ⟨⟨x, hlt⟩, Finset.mem_filter.mpr ⟨Finset.mem_univ _, hx⟩, rfl⟩
  rw [← Finset.card_map Fin.valEmbedding, himage, Nat.card_Ico, Nat.add_sub_cancel_left]

end Sampling
