import IpirSp.Rounding.Cyclic

/-!
# Rounding between moduli

A residue modulo `a` is carried to a residue modulo `b` when `a * y` is close to `b * x` around the
cycle of length `a * b`.  Both moduli are arbitrary, so the values modulo `a` may lie closer to each
other than those modulo `b`, or further apart.  A carried residue misses by at most `a / 2`, which
makes it a nearest one, and two such steps there and back miss by at most `(a + b) / 2`.
-/

namespace Rounding

/-- The residue of least absolute value. -/
theorem abs_bmod_le {m : ℕ} {x e : ℤ} (h : x ≡ e [ZMOD m]) : |x.bmod m| ≤ |e| := by
  have hbmod : x.bmod m = e.bmod m := by
    rw [← Int.emod_bmod, show x % m = e % m from h, Int.emod_bmod]
  rcases Nat.eq_zero_or_pos m with rfl | hm
  · rw [hbmod, Int.bmod_zero]
  by_contra hlt
  have hupper := Int.bmod_lt (x := x) hm
  have hlower := Int.le_bmod (x := x) hm
  have hself : e.bmod m = e := by
    have hsmall : |x.bmod m| ≤ (m : ℤ) / 2 := abs_le.mpr ⟨hlower, by omega⟩
    have habs := abs_lt.mp (lt_of_lt_of_le (not_le.mp hlt) hsmall)
    exact Int.bmod_eq_of_le_mul_two (by omega) (by omega)
  rw [hbmod, hself] at hlt
  exact hlt le_rfl

/-- How far `y` modulo `b` is from `x` modulo `a`, on the cycle of length `a * b`. -/
def scaledError (a b x y : ℕ) : ℤ := ((a * y : ℕ) - (b * x : ℕ) : ℤ).bmod (a * b)

/-- No residue modulo `b` is closer to `x` modulo `a` than `y` is. -/
structure IsNearestResidue (a b x y : ℕ) : Prop where
  lt : y < b
  le : ∀ m, |scaledError a b x y| ≤ |scaledError a b x m|

variable {a b x y : ℕ}

/-- A representative of the error bounds it. -/
theorem abs_scaledError_le {e : ℤ}
    (h : ((a * y : ℕ) : ℤ) - (b * x : ℕ) ≡ e [ZMOD (a * b : ℕ)]) : |scaledError a b x y| ≤ |e| :=
  abs_bmod_le h

theorem scaledError_modEq (a b x y : ℕ) :
    scaledError a b x y ≡ ((a * y : ℕ) : ℤ) - (b * x : ℕ) [ZMOD (a * b : ℕ)] :=
  Int.bmod_emod

/-- **An error of at most half a step is the least one.** -/
theorem isNearestResidue (hlt : y < b) (h : 2 * |scaledError a b x y| ≤ a) :
    IsNearestResidue a b x y := by
  refine ⟨hlt, fun m => abs_le_of_dvd_sub ?_ h⟩
  -- the errors of two residues differ by a multiple of `a`
  have hmod : ((a * b : ℕ) : ℤ) ∣ ((a * m : ℕ) - (b * x : ℕ) - ((a * y : ℕ) - (b * x : ℕ)) : ℤ) -
      (scaledError a b x m - scaledError a b x y) :=
    ((scaledError_modEq a b x m).sub (scaledError_modEq a b x y)).dvd
  have ha : (a : ℤ) ∣ (a * b : ℕ) := by exact_mod_cast dvd_mul_right a b
  have hdiff : (a : ℤ) ∣ ((a * m : ℕ) - (b * x : ℕ) - ((a * y : ℕ) - (b * x : ℕ)) : ℤ) := by
    refine ⟨(m : ℤ) - y, ?_⟩
    push_cast
    ring
  have hsub := hdiff.sub (ha.trans hmod)
  rwa [sub_sub_cancel] at hsub

/-- **There and back**: the errors of both steps add up. -/
theorem two_mul_abs_cyclicError_le {z : ℕ} (hb : 0 < b) (hdown : 2 * |scaledError a b x y| ≤ a)
    (hup : 2 * |scaledError b a y z| ≤ b) : 2 * b * |cyclicError a x z| ≤ a + b := by
  have hsum := (scaledError_modEq a b x y).add
    (by simpa only [mul_comm b a] using scaledError_modEq b a y z)
  have hcancel : ((a * y : ℕ) - (b * x : ℕ) + ((b * z : ℕ) - (a * y : ℕ)) : ℤ) =
      b * ((z : ℤ) - x) := by
    push_cast
    ring
  rw [hcancel] at hsum
  -- the sum of the errors is a multiple of `b`
  obtain ⟨e, he⟩ : (b : ℤ) ∣ scaledError a b x y + scaledError b a y z := by
    have hmod := hsum.symm.dvd
    have hab : (b : ℤ) ∣ (a * b : ℕ) := by exact_mod_cast dvd_mul_left b a
    have hadd := (hab.trans hmod).add (dvd_mul_right (b : ℤ) ((z : ℤ) - x))
    rwa [sub_add_cancel] at hadd
  have hclose : (z : ℤ) - x ≡ e [ZMOD a] := by
    rw [he, Nat.cast_mul, mul_comm (a : ℤ)] at hsum
    exact (Int.ModEq.mul_left_cancel' (by exact_mod_cast hb.ne') hsum).symm
  have hbound : 2 * |(b : ℤ) * e| ≤ a + b := by
    rw [← he]
    have htri := abs_add_le (scaledError a b x y) (scaledError b a y z)
    linarith
  calc 2 * b * |cyclicError a x z| ≤ 2 * b * |e| :=
        mul_le_mul_of_nonneg_left (abs_bmod_le hclose) (by positivity)
    _ = 2 * |(b : ℤ) * e| := by
        rw [abs_mul, Nat.abs_cast]
        ring
    _ ≤ a + b := hbound

/-! ## Rounding up on ties -/

/-- Round to the nearest residue modulo `b`, upwards on ties. -/
def carry (a b x : ℕ) : ℕ := (x * b + a / 2) / a % b

theorem carry_lt (hb : 0 < b) (a x : ℕ) : carry a b x < b := Nat.mod_lt _ hb

/-- A quotient may be reduced modulo `b`: the top goes around to zero. -/
theorem mul_emod_modEq (a b : ℕ) (w : ℤ) : (a : ℤ) * (w % b) ≡ a * w [ZMOD (a * b : ℕ)] := by
  rw [Nat.cast_mul]
  exact (Int.mod_modEq w b).mul_left'

/-- The remainder of a rounding division, around zero. -/
theorem two_mul_abs_half_sub_le (ha : 0 < a) (n : ℕ) :
    2 * |((a / 2 : ℕ) : ℤ) - (n % a : ℕ)| ≤ a := by
  have hmod := Nat.mod_lt n ha
  have hbound : |((a / 2 : ℕ) : ℤ) - (n % a : ℕ)| ≤ ((a / 2 : ℕ) : ℤ) := by
    rw [abs_le]
    constructor <;> omega
  omega

/-- What a rounding division adds. -/
theorem mul_roundDiv_sub (a n : ℕ) :
    (a : ℤ) * ((n + a / 2) / a : ℕ) - n = ((a / 2 : ℕ) : ℤ) - ((n + a / 2) % a : ℕ) := by
  have hdiv : ((a * ((n + a / 2) / a) + (n + a / 2) % a : ℕ) : ℤ) = (n + a / 2 : ℕ) := by
    rw [Nat.div_add_mod]
  push_cast at hdiv ⊢
  linarith

/-- **Rounding to the nearest residue** misses by at most half a step. -/
theorem two_mul_abs_scaledError_carry (ha : 0 < a) (b x : ℕ) :
    2 * |scaledError a b x (carry a b x)| ≤ a := by
  refine le_trans (mul_le_mul_of_nonneg_left (abs_scaledError_le ?_) two_pos.le)
    (two_mul_abs_half_sub_le ha (x * b + a / 2))
  have hwrap := (mul_emod_modEq a b ((x * b + a / 2) / a : ℕ)).sub_right ((b * x : ℕ) : ℤ)
  have hsplit := mul_roundDiv_sub a (x * b)
  rw [mul_comm b x] at hwrap ⊢
  rw [hsplit] at hwrap
  rw [carry, Nat.cast_mul a, Int.natCast_mod]
  exact hwrap

end Rounding
