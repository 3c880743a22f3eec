import Mathlib.Tactic

/-!
# Balanced digits

An integer in an even base `z` with digits in `[-z/2, z/2)`, least significant first.  `digit` is
the lowest digit, `rest` what remains above it, and `digits` the loop that takes a fixed number of
them.  Whatever is left after the last digit is `remainder`, so `sum_digits` is an identity and not
an approximation: it needs no bound on the input.  `mixedDigits` takes each digit in a base of its
own, and `roundOff` drops low bits before any digit is taken.
-/

namespace Gadget

/-- The balanced digit of lowest weight. -/
def digit (z a : ℤ) : ℤ := (a + z / 2) % z - z / 2

/-- What remains above the lowest digit. -/
def rest (z a : ℤ) : ℤ := (a - digit z a).tdiv z

/-- The lowest `n` balanced digits. -/
def digits (z : ℤ) : ℕ → ℤ → List ℤ
  | 0, _ => []
  | n + 1, a => digit z a :: digits z n (rest z a)

/-- What remains above the lowest `n` digits. -/
def remainder (z : ℤ) : ℕ → ℤ → ℤ
  | 0, a => a
  | n + 1, a => remainder z n (rest z a)

@[simp] theorem length_digits (z : ℤ) (n : ℕ) (a : ℤ) : (digits z n a).length = n := by
  induction n generalizing a with
  | zero => rfl
  | succ n ih => rw [digits, List.length_cons, ih]

/-- One digit and the rest. -/
theorem digit_add_rest (z a : ℤ) : digit z a + z * rest z a = a := by
  have hdvd : z ∣ a - digit z a := by
    refine ⟨(a + z / 2) / z, ?_⟩
    have hdiv := Int.emod_add_mul_ediv (a + z / 2) z
    rw [digit]
    linarith
  rw [rest, Int.mul_tdiv_cancel' hdvd]
  ring

/-- **The digits recompose**, up to what remains above them. -/
theorem sum_digits (z : ℤ) (n : ℕ) (a : ℤ) :
    ∑ k ∈ Finset.range n, (digits z n a).getD k 0 * z ^ k + z ^ n * remainder z n a = a := by
  induction n generalizing a with
  | zero => simp [remainder]
  | succ n ih =>
      have hshift : ∑ k ∈ Finset.range n, (digits z n (rest z a)).getD k 0 * z ^ (k + 1) =
          z * ∑ k ∈ Finset.range n, (digits z n (rest z a)).getD k 0 * z ^ k := by
        rw [Finset.mul_sum]
        exact Finset.sum_congr rfl fun k _ => by ring
      have hrest := ih (rest z a)
      have hfirst := digit_add_rest z a
      rw [digits, remainder, Finset.sum_range_succ']
      simp only [List.getD_cons_succ, List.getD_cons_zero, pow_zero, mul_one]
      rw [hshift]
      linear_combination hfirst + z * hrest

/-- The digits are balanced. -/
theorem digit_bounds {z : ℤ} (hz : 0 < z) (heven : 2 ∣ z) (a : ℤ) :
    -(z / 2) ≤ digit z a ∧ digit z a < z / 2 := by
  have hlo := Int.emod_nonneg (a + z / 2) hz.ne'
  have hhi := Int.emod_lt_of_pos (a + z / 2) hz
  rw [digit]
  omega

theorem digits_bounds {z : ℤ} (hz : 0 < z) (heven : 2 ∣ z) (n : ℕ) (a : ℤ) :
    ∀ v ∈ digits z n a, -(z / 2) ≤ v ∧ v < z / 2 := by
  induction n generalizing a with
  | zero => simp [digits]
  | succ n ih =>
      intro v hv
      rcases List.mem_cons.mp hv with rfl | hv
      · exact digit_bounds hz heven a
      · exact ih _ v hv

/-! ## The remainder -/

/-- The carry out of a digit keeps what is above it in range. -/
theorem rest_bounds {z : ℤ} (hz : 0 < z) (heven : 2 ∣ z) {a b : ℤ} (hnonneg : 0 ≤ a)
    (hle : a ≤ z * b) : 0 ≤ rest z a ∧ rest z a ≤ b := by
  obtain ⟨hlo, hhi⟩ := digit_bounds hz heven a
  have hsplit := digit_add_rest z a
  have hhalf : z / 2 < z := Int.ediv_lt_self_of_pos_of_ne_one hz (by omega)
  constructor
  · by_contra hneg
    have hrest : rest z a ≤ -1 := by omega
    have hmul := mul_le_mul_of_nonneg_left hrest hz.le
    linarith
  · by_contra hgt
    have hrest : b + 1 ≤ rest z a := by omega
    have hmul := mul_le_mul_of_nonneg_left hrest hz.le
    have hhalf' : 2 * (z / 2) = z := Int.mul_ediv_cancel' heven
    linarith

/-- **The remainder absorbs the last carry**: an input up to `z ^ n * b` leaves at most `b`. -/
theorem remainder_bounds {z : ℤ} (hz : 0 < z) (heven : 2 ∣ z) (n : ℕ) {a b : ℤ} (hnonneg : 0 ≤ a)
    (hle : a ≤ z ^ n * b) : 0 ≤ remainder z n a ∧ remainder z n a ≤ b := by
  induction n generalizing a with
  | zero => exact ⟨hnonneg, by simpa [remainder] using hle⟩
  | succ n ih =>
      rw [pow_succ', mul_assoc] at hle
      obtain ⟨hrest, hrest'⟩ := rest_bounds hz heven hnonneg hle
      exact ih hrest hrest'

/-- Centring a balanced value modulo an odd number leaves it balanced. -/
theorem bmod_bounds {z : ℤ} (heven : 2 ∣ z) {q : ℕ} (hodd : q % 2 = 1) {v : ℤ}
    (hlo : -(z / 2) ≤ v) (hhi : v < z / 2) : -(z / 2) ≤ v.bmod q ∧ v.bmod q < z / 2 := by
  have hq : 0 < q := by omega
  have hmin := Int.le_bmod (x := v) hq
  have hmax := Int.bmod_lt (x := v) hq
  by_cases hsmall : 2 * |v| < q
  · have habs := abs_lt.mp (show |2 * v| < (q : ℤ) by rwa [abs_mul, abs_two])
    rw [Int.bmod_eq_of_le_mul_two (by omega) (by omega)]
    exact ⟨hlo, hhi⟩
  · -- the modulus is then shorter than the base
    have hle : |v| ≤ z / 2 := abs_le.mpr ⟨hlo, hhi.le⟩
    have hlt : (q : ℤ) < z := by
      have hle' : (q : ℤ) ≤ z := by omega
      refine lt_of_le_of_ne hle' fun heq => ?_
      rw [← heq] at heven
      omega
    constructor <;> omega

/-! ## Mixed bases -/

/-- Balanced digits in a list of bases, lowest first. -/
def mixedDigits : List ℤ → ℤ → List ℤ
  | [], _ => []
  | z :: zs, a => digit z a :: mixedDigits zs (rest z a)

/-- What remains above the last base. -/
def mixedRemainder : List ℤ → ℤ → ℤ
  | [], a => a
  | z :: zs, a => mixedRemainder zs (rest z a)

/-- The number that digits in a list of bases stand for. -/
def mixedValue : List ℤ → List ℤ → ℤ
  | z :: zs, v :: vs => v + z * mixedValue zs vs
  | _, _ => 0

/-- **Mixed digits recompose**, up to what remains above them. -/
theorem mixedValue_mixedDigits (zs : List ℤ) (a : ℤ) :
    mixedValue zs (mixedDigits zs a) + zs.prod * mixedRemainder zs a = a := by
  induction zs generalizing a with
  | nil => simp [mixedValue, mixedRemainder]
  | cons z zs ih =>
      have hrest := ih (rest z a)
      have hfirst := digit_add_rest z a
      rw [mixedDigits, mixedValue, mixedRemainder, List.prod_cons]
      linear_combination hfirst + z * hrest

/-- Every digit is balanced in its own base. -/
theorem forall₂_mixedDigits {zs : List ℤ} (hpos : ∀ z ∈ zs, 0 < z)
    (heven : ∀ z ∈ zs, 2 ∣ z) (a : ℤ) :
    List.Forall₂ (fun z v => -(z / 2) ≤ v ∧ v < z / 2) zs (mixedDigits zs a) := by
  induction zs generalizing a with
  | nil => exact List.Forall₂.nil
  | cons z zs ih =>
      rw [List.forall_mem_cons] at hpos heven
      exact List.Forall₂.cons (digit_bounds hpos.1 heven.1 a) (ih hpos.2 heven.2 _)

/-- Equal bases are the uniform digits. -/
theorem mixedDigits_replicate (n : ℕ) (z a : ℤ) :
    mixedDigits (List.replicate n z) a = digits z n a := by
  induction n generalizing a with
  | zero => rfl
  | succ n ih => rw [List.replicate_succ, mixedDigits, ih, digits]

/-! ## Dropped bits -/

/-- A word without its low `n` bits, rounded, upwards on ties. -/
def roundOff (n v : ℕ) : ℤ := if n = 0 then v else ((v : ℤ) + 2 ^ (n - 1)) / 2 ^ n

/-- Rounding costs at most half of the last dropped place. -/
theorem two_mul_abs_roundOff_le (n v : ℕ) :
    2 * |2 ^ n * roundOff n v - v| ≤ if n = 0 then 0 else 2 ^ n := by
  unfold roundOff
  cases n with
  | zero => simp
  | succ n =>
      rw [if_neg n.succ_ne_zero, if_neg n.succ_ne_zero, Nat.add_sub_cancel, pow_succ]
      have hpos : (0 : ℤ) < 2 ^ n * 2 := by positivity
      have hdiv := Int.emod_add_mul_ediv ((v : ℤ) + 2 ^ n) (2 ^ n * 2)
      have hlo := Int.emod_nonneg ((v : ℤ) + 2 ^ n) hpos.ne'
      have hhi := Int.emod_lt_of_pos ((v : ℤ) + 2 ^ n) hpos
      have habs : |2 ^ n * 2 * (((v : ℤ) + 2 ^ n) / (2 ^ n * 2)) - v| ≤ 2 ^ n := by
        rw [abs_le]
        constructor <;> linarith
      linarith

end Gadget
