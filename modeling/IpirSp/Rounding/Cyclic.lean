import Mathlib.Tactic

/-!
# Rounding on a cycle

Words modulo `q` are rounded to multiples of a `step` that divides `q`.  The error is taken around
the cycle, so a word next to `q` may round up to zero.  `nearest_isNearest` is the plain rounding.
The dithered rounding goes up when a coin lies below the remainder: `card_up` counts the coins that
round up and `sum_dithered_error` says that the error averages to zero.
-/

namespace Rounding

/-- The way from `x` to `y` around the cycle of length `q`. -/
def cyclicError (q x y : ℕ) : ℤ := ((y : ℤ) - x).bmod q

/-- No multiple of `step` is closer to `x` than `y` is. -/
structure IsNearest (step q x y : ℕ) : Prop where
  dvd : step ∣ y
  lt : y < q
  le : ∀ m, step ∣ m → |cyclicError q x y| ≤ |cyclicError q x m|

/-- Round to the nearest of `levels` multiples of `step`, upwards on ties. -/
def nearest (step levels x : ℕ) : ℕ := (x + step / 2) / step % levels * step

/-- Round up if `coin` lies below the remainder, and down otherwise. -/
def dithered (step levels coin x : ℕ) : ℕ :=
  (x / step + if coin < x % step then 1 else 0) % levels * step

variable {step levels : ℕ}

/-- A short way around the cycle is the error. -/
theorem cyclicError_eq {q x y : ℕ} {e : ℤ} (hmod : (y : ℤ) - x ≡ e [ZMOD q]) (he : 2 * |e| < q) :
    cyclicError q x y = e := by
  have habs := abs_lt.mp (show |2 * e| < (q : ℤ) by rwa [abs_mul, abs_two])
  have hself : e.bmod q = e := Int.bmod_eq_of_le_mul_two (by omega) (by omega)
  rw [cyclicError, ← Int.emod_bmod, show ((y : ℤ) - x) % q = e % q from hmod, Int.emod_bmod, hself]

/-- Among numbers that differ by multiples of `s`, one of at most `s / 2` is a smallest. -/
theorem abs_le_of_dvd_sub {s : ℕ} {e e' : ℤ} (hdvd : (s : ℤ) ∣ e' - e) (he : 2 * |e| ≤ s) :
    |e| ≤ |e'| := by
  by_contra hcloser
  have hsmall : |e' - e| < s := by
    refine (abs_sub _ _).trans_lt ?_
    omega
  have hzero := Int.eq_zero_of_abs_lt_dvd hdvd hsmall
  exact hcloser (le_of_eq (by rw [sub_eq_zero.mp hzero]))

/-- A word past the last level starts over. -/
theorem wrap_modEq (step levels u : ℕ) :
    ((u % levels * step : ℕ) : ℤ) ≡ u * step [ZMOD (levels * step : ℕ)] := by
  have hwrap : u % levels * step ≡ u * step [MOD levels * step] :=
    (Nat.mod_modEq u levels).mul_right' step
  exact_mod_cast Int.natCast_modEq_iff.mpr hwrap

theorem wrap_lt (hlevels : 0 < levels) (hstep : 0 < step) (u : ℕ) :
    u % levels * step < levels * step :=
  Nat.mul_lt_mul_of_pos_right (Nat.mod_lt u hlevels) hstep

/-! ## Plain rounding -/

/-- What the plain rounding adds. -/
def nearestError (step x : ℕ) : ℤ := (step / 2 : ℕ) - ((x + step / 2) % step : ℕ)

theorem two_mul_nearestError_le (hstep : 0 < step) (x : ℕ) : 2 * |nearestError step x| ≤ step := by
  have hmod := Nat.mod_lt (x + step / 2) hstep
  have hbound : |nearestError step x| ≤ ((step / 2 : ℕ) : ℤ) := by
    rw [nearestError, abs_le]
    constructor <;> omega
  omega

theorem nearest_modEq (step levels x : ℕ) :
    (nearest step levels x : ℤ) - x ≡ nearestError step x [ZMOD (levels * step : ℕ)] := by
  have hsplit : ((x + step / 2) / step * step : ℕ) - (x : ℤ) = nearestError step x := by
    have hdiv := Nat.div_add_mod' (x + step / 2) step
    rw [nearestError]
    omega
  have hwrap := (wrap_modEq step levels ((x + step / 2) / step)).sub_right x
  rw [← Nat.cast_mul, hsplit] at hwrap
  exact hwrap

/-- **The plain rounding is nearest.** -/
theorem nearest_isNearest (hlevels : 2 ≤ levels) (hstep : 0 < step) (x : ℕ) :
    IsNearest step (levels * step) x (nearest step levels x) := by
  have hbound := two_mul_nearestError_le hstep x
  have herror : cyclicError (levels * step) x (nearest step levels x) = nearestError step x := by
    refine cyclicError_eq (nearest_modEq step levels x) (lt_of_le_of_lt hbound ?_)
    have hlevels' : 2 * step ≤ levels * step := Nat.mul_le_mul_right step hlevels
    exact_mod_cast (by omega : step < levels * step)
  refine ⟨dvd_mul_left _ _, wrap_lt (by omega) hstep _, fun m hm => ?_⟩
  rw [herror]
  -- two errors of one word differ by a multiple of the step
  refine abs_le_of_dvd_sub ?_ hbound
  have hq : (step : ℤ) ∣ (levels * step : ℕ) := by exact_mod_cast dvd_mul_left step levels
  have hleft : (step : ℤ) ∣ cyclicError (levels * step) x m - ((m : ℤ) - x) :=
    hq.trans Int.dvd_bmod_sub_self
  have hright := hq.trans (nearest_modEq step levels x).dvd
  have hm' : (step : ℤ) ∣ m := by exact_mod_cast hm
  have hy : (step : ℤ) ∣ nearest step levels x := by
    exact_mod_cast (dvd_mul_left step _ : step ∣ nearest step levels x)
  have hsum := (hleft.sub hright).add (hm'.sub hy)
  have heq : cyclicError (levels * step) x m - ((m : ℤ) - x) -
      (nearestError step x - ((nearest step levels x : ℤ) - x)) +
      ((m : ℤ) - nearest step levels x) =
      cyclicError (levels * step) x m - nearestError step x := by ring
  rwa [heq] at hsum

/-! ## Dithered rounding -/

/-- What the dithered rounding adds. -/
def ditheredError (step coin x : ℕ) : ℤ :=
  if coin < x % step then (step : ℤ) - (x % step : ℕ) else -(x % step : ℕ)

theorem cyclicError_dithered (hlevels : 2 ≤ levels) (hstep : 0 < step) (coin x : ℕ) :
    cyclicError (levels * step) x (dithered step levels coin x) = ditheredError step coin x := by
  have hmod := Nat.mod_lt x hstep
  have hdiv : ((x / step : ℕ) : ℤ) * step + (x % step : ℕ) = x := by
    exact_mod_cast Nat.div_add_mod' x step
  refine cyclicError_eq ?_ ?_
  · have hwrap := (wrap_modEq step levels
      (x / step + if coin < x % step then 1 else 0)).sub_right x
    have herror : ((x / step + if coin < x % step then 1 else 0 : ℕ) : ℤ) * step - x =
        ditheredError step coin x := by
      rw [ditheredError]
      split
      · rw [Nat.cast_add, Nat.cast_one]
        linarith
      · rw [add_zero]
        linarith
    rw [herror] at hwrap
    exact hwrap
  · have hlevels' : 2 * step ≤ levels * step := Nat.mul_le_mul_right step hlevels
    have habs : |ditheredError step coin x| < step := by
      rw [ditheredError, abs_lt]
      split <;> constructor <;> omega
    have hcast : (2 * step : ℤ) ≤ (levels * step : ℕ) := by exact_mod_cast hlevels'
    linarith

/-- **The coins that round up**: as many as the remainder says. -/
theorem card_up (hstep : 0 < step) (x : ℕ) :
    ((Finset.range step).filter (· < x % step)).card = x % step := by
  have hmod := Nat.mod_lt x hstep
  have hset : (Finset.range step).filter (· < x % step) = Finset.range (x % step) := by
    ext coin
    rw [Finset.mem_filter, Finset.mem_range, Finset.mem_range]
    exact ⟨And.right, fun hcoin => ⟨hcoin.trans hmod, hcoin⟩⟩
  rw [hset, Finset.card_range]

/-- **The dithered rounding has no bias.** -/
theorem sum_dithered_error (hlevels : 2 ≤ levels) (hstep : 0 < step) (x : ℕ) :
    ∑ coin ∈ Finset.range step,
      cyclicError (levels * step) x (dithered step levels coin x) = 0 := by
  have hmod := Nat.mod_lt x hstep
  have hup := card_up hstep x
  have hdown : ((Finset.range step).filter (¬· < x % step)).card = step - x % step := by
    have hsplit := Finset.card_filter_add_card_filter_not (s := Finset.range step) (· < x % step)
    rw [Finset.card_range, hup] at hsplit
    omega
  have hterm (coin : ℕ) : cyclicError (levels * step) x (dithered step levels coin x) =
      if coin < x % step then (step : ℤ) - (x % step : ℕ) else -(x % step : ℕ) :=
    cyclicError_dithered hlevels hstep coin x
  rw [Finset.sum_congr rfl fun coin _ => hterm coin, Finset.sum_ite, Finset.sum_const,
    Finset.sum_const, hup, hdown, nsmul_eq_mul, nsmul_eq_mul, Nat.cast_sub hmod.le]
  ring

/-- A dithered rounding on the cycle of length `q`: it goes to one of the two neighbours, up for as
many coins as the remainder says, and its errors cancel over the coins. -/
structure IsFair (step levels q x : ℕ) : Prop where
  up_or_down : ∀ coin, dithered step levels coin x = x / step % levels * step ∨
    dithered step levels coin x = (x / step + 1) % levels * step
  card_up : ((Finset.range step).filter fun coin =>
    dithered step levels coin x = (x / step + 1) % levels * step).card = x % step
  sum_error : ∑ coin ∈ Finset.range step, cyclicError q x (dithered step levels coin x) = 0

/-- The neighbours of a word are different. -/
theorem dithered_eq_up_iff (hlevels : 2 ≤ levels) (hstep : 0 < step) (coin x : ℕ) :
    dithered step levels coin x = (x / step + 1) % levels * step ↔ coin < x % step := by
  rw [dithered]
  constructor
  · intro h
    by_contra hcoin
    rw [if_neg hcoin, add_zero] at h
    have hmod : x / step ≡ x / step + 1 [MOD levels] := Nat.eq_of_mul_eq_mul_right hstep h
    have hone := (Nat.modEq_iff_dvd' (Nat.le_succ _)).mp hmod
    rw [Nat.succ_eq_add_one, Nat.add_sub_cancel_left] at hone
    exact absurd (Nat.le_of_dvd one_pos hone) (by omega)
  · intro h
    rw [if_pos h]

theorem isFair (hlevels : 2 ≤ levels) (hstep : 0 < step) (x : ℕ) :
    IsFair step levels (levels * step) x where
  up_or_down coin := by
    rw [dithered]
    split
    · exact Or.inr rfl
    · exact Or.inl rfl
  card_up := by
    simp only [dithered_eq_up_iff hlevels hstep]
    exact card_up hstep x
  sum_error := sum_dithered_error hlevels hstep x

end Rounding
