import IpirSp.Inspiring.Params
import IpirSp.Sampling.Rejection
import Mathlib.Data.Nat.Size

/-!
# Uniform sampling of public randomness

The query polynomials come from Lemire's rejection sampler: a draw is multiplied by the bound, the
high half of the product is the value and the low half decides whether the draw counts.  The code
has the sampler at two widths; `uniformBelow` is both.

The accepted draws of the value `v` are those whose multiple of the bound lies in the first part of
the block `[v · 2^w, (v + 1) · 2^w)`, a window whose length is the bound shifted to the top of the
word.  Every such window holds the same power of two of multiples (`equalFibres_acceptDraw`), so
that the output is exactly uniform, also of a whole run.
-/

namespace SimplePir

open Inspiring Sampling

/-- `leading_zeros` of a word of `width` bits. -/
def leadingZeros (width bound : ℕ) : ℕ := width - Nat.size bound

/-- `(bound << bound.leading_zeros()).wrapping_sub(1)`. -/
def zone (width bound : ℕ) : ℕ :=
  (bound <<< leadingZeros width bound % 2 ^ width + (2 ^ width - 1)) % 2 ^ width

/-- One turn of the loop: the value of the draw, if it is accepted. -/
def acceptDraw (width bound : ℕ) (draw : Fin (2 ^ width)) : Option ℕ :=
  let product := (draw : ℕ) * bound
  let low := product % 2 ^ width
  if low ≤ zone width bound then some ((product >>> width) % 2 ^ width) else none

/-- The sampler at a width: the value and the draws that are left, or `none` where the given draws
are all rejected and the loop goes on. -/
def uniformBelow (width : ℕ) (rng : List (Fin (2 ^ width))) (bound : ℕ) :
    Outcome (Option (ℕ × List (Fin (2 ^ width)))) :=
  if 0 < bound then .ok (firstAccepted (acceptDraw width bound) rng)
  else .error (.panic "uniform bound must be non-zero")

/-- `uniform_u64_below`. -/
def uniformU64Below (rng : List (Fin (2 ^ 64))) (bound : ℕ) :
    Outcome (Option (ℕ × List (Fin (2 ^ 64)))) := uniformBelow 64 rng bound

/-- `uniform_u32_below`. -/
def uniformU32Below (rng : List (Fin (2 ^ 32))) (bound : ℕ) :
    Outcome (Option (ℕ × List (Fin (2 ^ 32)))) := uniformBelow 32 rng bound

/-! ## The accepted draws -/

section Accepted

variable {width bound : ℕ}

theorem size_le_width (hbound : bound < 2 ^ width) :
    Nat.size bound ≤ width := Nat.size_le.mpr hbound

/-- The bound shifted to the top fits the word. -/
theorem shifted_le (hbound : bound < 2 ^ width) :
    2 ^ leadingZeros width bound * bound ≤ 2 ^ width := by
  calc 2 ^ leadingZeros width bound * bound
      ≤ 2 ^ leadingZeros width bound * 2 ^ Nat.size bound :=
        Nat.mul_le_mul_left _ (Nat.lt_size_self bound).le
    _ = 2 ^ width := by rw [← pow_add, leadingZeros, Nat.sub_add_cancel (size_le_width hbound)]

/-- The bound shifted to the top is at least half of the word. -/
theorem half_le_shifted (hpos : 0 < bound) (hbound : bound < 2 ^ width) :
    2 ^ width ≤ 2 * (2 ^ leadingZeros width bound * bound) := by
  have hsize : 0 < Nat.size bound := Nat.size_pos.mpr hpos
  have htop : 2 ^ (Nat.size bound - 1) ≤ bound := Nat.lt_size.mp (Nat.sub_lt hsize one_pos)
  have hwidth := size_le_width hbound
  have hexp : width = 1 + (leadingZeros width bound + (Nat.size bound - 1)) := by
    unfold leadingZeros
    omega
  calc 2 ^ width = 2 * (2 ^ leadingZeros width bound * 2 ^ (Nat.size bound - 1)) := by
        conv_lhs => rw [hexp, pow_add, pow_one, pow_add]
    _ ≤ 2 * (2 ^ leadingZeros width bound * bound) :=
        Nat.mul_le_mul_left _ (Nat.mul_le_mul_left _ htop)

/-- The zone ends one below the shifted bound: the subtraction never wraps. -/
theorem zone_eq (hpos : 0 < bound) (hbound : bound < 2 ^ width) :
    zone width bound + 1 = 2 ^ leadingZeros width bound * bound := by
  have hlt : bound * 2 ^ leadingZeros width bound < 2 ^ width := by
    calc bound * 2 ^ leadingZeros width bound
        < 2 ^ Nat.size bound * 2 ^ leadingZeros width bound :=
          Nat.mul_lt_mul_of_pos_right (Nat.lt_size_self bound) (Nat.two_pow_pos _)
      _ = 2 ^ width := by
          rw [← pow_add, leadingZeros, Nat.add_sub_cancel' (size_le_width hbound)]
  have hshift : 0 < bound * 2 ^ leadingZeros width bound := Nat.mul_pos hpos (Nat.two_pow_pos _)
  have hwrap : bound * 2 ^ leadingZeros width bound + (2 ^ width - 1) =
      bound * 2 ^ leadingZeros width bound - 1 + 2 ^ width := by omega
  rw [zone, Nat.shiftLeft_eq, Nat.mod_eq_of_lt hlt, hwrap, Nat.add_mod_right,
    Nat.mod_eq_of_lt (by omega), Nat.sub_add_cancel hshift, mul_comm]

/-- **The accepted draws of a value** are those whose multiple of the bound lies in the window of
the value. -/
theorem acceptDraw_eq_some_iff (hpos : 0 < bound) (hbound : bound < 2 ^ width)
    (draw : Fin (2 ^ width)) (v : ℕ) :
    acceptDraw width bound draw = some v ↔ v * 2 ^ width ≤ (draw : ℕ) * bound ∧
      (draw : ℕ) * bound < v * 2 ^ width + 2 ^ leadingZeros width bound * bound := by
  have hword := Nat.two_pow_pos width
  have hproduct : (draw : ℕ) * bound < 2 ^ width * bound := Nat.mul_lt_mul_of_pos_right draw.2 hpos
  have hhigh : (draw : ℕ) * bound / 2 ^ width < bound := Nat.div_lt_of_lt_mul hproduct
  have hzone := zone_eq hpos hbound
  have hshifted := shifted_le hbound
  have hdiv := Nat.div_add_mod ((draw : ℕ) * bound) (2 ^ width)
  have hmod := Nat.mod_lt ((draw : ℕ) * bound) hword
  rw [mul_comm (2 ^ width)] at hdiv
  have hvalue : ((draw : ℕ) * bound) >>> width % 2 ^ width = (draw : ℕ) * bound / 2 ^ width := by
    rw [Nat.shiftRight_eq_div_pow, Nat.mod_eq_of_lt (hhigh.trans hbound)]
  unfold acceptDraw
  dsimp only
  rw [hvalue]
  constructor
  · intro h
    split at h
    · obtain rfl := Option.some.inj h
      exact ⟨Nat.div_mul_le_self _ _, by omega⟩
    · cases h
  · rintro ⟨hlow, hup⟩
    have hquotient : (draw : ℕ) * bound / 2 ^ width = v := by
      refine Nat.div_eq_of_lt_le hlow ?_
      rw [Nat.succ_mul]
      omega
    rw [hquotient] at hdiv ⊢
    rw [if_pos (by omega)]

/-- **Every value has the same number of accepted draws**, a power of two. -/
theorem equalFibres_acceptDraw (hpos : 0 < bound) (hbound : bound < 2 ^ width) :
    EqualFibres (acceptDraw width bound) (Finset.range bound) (2 ^ leadingZeros width bound) where
  pos := Nat.two_pow_pos _
  mem draw v h := by
    have hlow := ((acceptDraw_eq_some_iff hpos hbound draw v).mp h).1
    have hproduct : (draw : ℕ) * bound < 2 ^ width * bound :=
      Nat.mul_lt_mul_of_pos_right draw.2 hpos
    rw [mul_comm (2 ^ width)] at hproduct
    exact Finset.mem_range.mpr (Nat.lt_of_mul_lt_mul_right (hlow.trans_lt hproduct))
  card v hv := by
    have hnext : (v + 1) * 2 ^ width ≤ bound * 2 ^ width :=
      Nat.mul_le_mul_right _ (Finset.mem_range.mp hv)
    have hshifted := shifted_le hbound
    rw [Nat.succ_mul, mul_comm bound] at hnext
    simp only [fibre, acceptDraw_eq_some_iff hpos hbound]
    exact card_window hpos ((Nat.add_le_add_left hshifted _).trans hnext)

/-- At most half of the draws are rejected. -/
theorem card_rejected_le (hpos : 0 < bound) (hbound : bound < 2 ^ width) :
    2 * (rejected (acceptDraw width bound)).card ≤ 2 ^ width := by
  have hdraws := (equalFibres_acceptDraw hpos hbound).card_draws
  have hhalf := half_le_shifted hpos hbound
  rw [Finset.card_range, Fintype.card_fin, mul_comm bound] at hdraws
  omega

end Accepted

/-! ## Runs -/

/-- A sampler below a bound is exactly uniform: every value has the same positive number of accepted
draws, nothing else is returned, and of the sequences of `n` draws every value is the result of the
same number, all but at most one in `2^n` having a result. -/
structure ExactlyUniform (width bound : ℕ)
    (sampler : List (Fin (2 ^ width)) → Outcome (Option (ℕ × List (Fin (2 ^ width))))) : Prop where
  below : ∀ rng v rest, sampler rng = .ok (some (v, rest)) → v < bound
  draws : ∃ count, 0 < count ∧ ∀ v < bound,
    {draw | sampler [draw] = .ok (some (v, []))}.ncard = count
  runs : ∃ rejected, 2 * rejected ≤ 2 ^ width ∧ ∀ n, ∀ v < bound,
    bound * {rng : Fin n → Fin (2 ^ width) | ∃ rest, sampler (List.ofFn rng) =
      .ok (some (v, rest))}.ncard + rejected ^ n = (2 ^ width) ^ n

theorem outcome_eq_some_iff {α β : Type*} {accept : α → Option β} {rng : List α} {v : β} :
    outcome accept rng = some v ↔ ∃ rest, firstAccepted accept rng = some (v, rest) := by
  rw [outcome, Option.map_eq_some_iff]
  constructor
  · rintro ⟨⟨w, rest⟩, h, rfl⟩
    exact ⟨rest, h⟩
  · rintro ⟨rest, h⟩
    exact ⟨(v, rest), h, rfl⟩

/-- What is returned is the value of an accepted draw. -/
theorem exists_accepted {α β : Type*} {accept : α → Option β} {rng : List α} {v : β}
    (h : outcome accept rng = some v) : ∃ draw, accept draw = some v := by
  induction rng with
  | nil => cases h
  | cons draw rng ih =>
      rcases haccept : accept draw with _ | w
      · rw [outcome_cons_none haccept] at h
        exact ih h
      · rw [outcome_cons_some haccept] at h
        exact ⟨draw, haccept.trans h⟩

/-- **The sampler of either width** is exactly uniform. -/
theorem uniformBelow_exact {width bound : ℕ} (hpos : 0 < bound) (hbound : bound < 2 ^ width) :
    ExactlyUniform width bound fun rng => uniformBelow width rng bound := by
  have hequal := equalFibres_acceptDraw hpos hbound
  have hrun (rng : List (Fin (2 ^ width))) (result : Option (ℕ × List (Fin (2 ^ width)))) :
      uniformBelow width rng bound = .ok result ↔
        firstAccepted (acceptDraw width bound) rng = result := by
    rw [uniformBelow, if_pos hpos, Except.ok.injEq]
  refine ⟨fun rng v rest h => ?_, ⟨_, hequal.pos, fun v hv => ?_⟩,
    ⟨_, card_rejected_le hpos hbound, fun n v hv => ?_⟩⟩
  · obtain ⟨draw, hdraw⟩ := exists_accepted (outcome_eq_some_iff.mpr ⟨rest, (hrun _ _).mp h⟩)
    exact Finset.mem_range.mp (hequal.mem draw v hdraw)
  · have hset : {draw | uniformBelow width [draw] bound = .ok (some (v, []))} =
        fibre (acceptDraw width bound) v := by
      ext draw
      rw [Set.mem_ofPred_eq, hrun, firstAccepted, Finset.mem_coe, fibre, Finset.mem_filter,
        and_iff_right (Finset.mem_univ _)]
      rcases acceptDraw width bound draw with _ | w
      · simp [firstAccepted]
      · simp
    rw [hset, Set.ncard_coe_finset, hequal.card v (Finset.mem_range.mpr hv)]
  · have hset : {rng : Fin n → Fin (2 ^ width) | ∃ rest, uniformBelow width (List.ofFn rng) bound =
        .ok (some (v, rest))} = runs (acceptDraw width bound) n v := by
      ext rng
      rw [Set.mem_ofPred_eq, Finset.mem_coe, Sampling.runs, Finset.mem_filter,
        and_iff_right (Finset.mem_univ _), outcome_eq_some_iff]
      exact exists_congr fun rest => hrun _ _
    have hlaw := hequal.law n (Finset.mem_range.mpr hv)
    rw [Finset.card_range, Fintype.card_fin] at hlaw
    rw [hset, Set.ncard_coe_finset, hlaw]

/-- **Both samplers are exactly uniform below every bound.** -/
theorem samplers_exactlyUniform :
    (∀ bound, 0 < bound → bound < 2 ^ 64 →
      ExactlyUniform 64 bound fun rng => uniformU64Below rng bound) ∧
    (∀ bound, 0 < bound → bound < 2 ^ 32 →
      ExactlyUniform 32 bound fun rng => uniformU32Below rng bound) :=
  ⟨fun _ hpos hbound => uniformBelow_exact hpos hbound,
    fun _ hpos hbound => uniformBelow_exact hpos hbound⟩

/-- A bound that divides the range, and one above half of it. -/
theorem samplers_exactlyUniform_bounds :
    (ExactlyUniform 64 (2 ^ 20) fun rng => uniformU64Below rng (2 ^ 20)) ∧
      ExactlyUniform 32 3000000000 fun rng => uniformU32Below rng 3000000000 :=
  ⟨samplers_exactlyUniform.1 _ (by norm_num) (by norm_num),
    samplers_exactlyUniform.2 _ (by norm_num) (by norm_num)⟩

end SimplePir
