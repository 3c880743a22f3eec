import IpirSp.Loops.Scatter
import IpirSp.Negacyclic.Integer
import IpirSp.SpiralRs.Poly

/-!
# Coefficient loops

The compiler of the packing matrix works on coefficient vectors and needs no transform at the
modulus `q`.  Its loops over coefficients all accumulate into signed cells: `tauCoeffs` applies an
automorphism, `shiftNegacyclic` and `rotateByXPower` multiply by a power of `X`, and
`schoolbookNegacyclic` is the product.

Each has one lemma that says which element of `Z_q[X]/(X^d + 1)` it computes.
-/

namespace Reinspiring

open Negacyclic SpiralRs Loops

variable {d q : ℕ}

/-- A coefficient read by a machine index. -/
def coeffAt (p : Poly d) (i : ℕ) : ℕ := if h : i < d then p ⟨i, h⟩ else 0

theorem coeffAt_of_lt (p : Poly d) {i : ℕ} (hi : i < d) : coeffAt p i = p ⟨i, hi⟩ := dif_pos hi

/-- The loop `out[dst] = (out[dst] + c) % q` over a list of cells and increments. -/
def accumulateMod (q : ℕ) (ws : List (Fin d × ℕ)) : Poly d :=
  scatter (fun a c => (a + c) % q) (fun _ => 0) ws

/-- `tau_coeffs`. -/
def tauCoeffs (p : Poly d) (g q : ℕ) : Poly d :=
  accumulateMod q ((List.finRange d).map fun i : Fin d =>
    let e := i * g % (2 * d)
    if he : e < d then (⟨e, he⟩, p i)
    else (⟨e - d, by
      have := Nat.mod_lt (i * g) (show 0 < 2 * d by have := i.2; omega)
      omega⟩, q - p i % q))

/-- `(q - c) % q` on a reduced coefficient, where `flip` holds. -/
def negateIf (flip : Prop) [Decidable flip] (c q : ℕ) : ℕ := if flip then (q - c) % q else c

/-- `shift_negacyclic`: multiply by `X^shift`. -/
def shiftNegacyclic (p : Poly d) (shift q : ℕ) : Poly d :=
  accumulateMod q ((List.finRange d).map fun i : Fin d =>
    (⟨(i + shift) % d, Nat.mod_lt _ (by have := i.2; omega)⟩,
      negateIf (i + shift ≥ d) (p i % q) q))

/-- `rotate_by_x_power`: multiply by a power of `X` with its exponent modulo `2 * d`. -/
def rotateByXPower (p : Poly d) (exp q : ℕ) : Poly d :=
  let e := exp % (2 * d)
  let idx := if e < d then e else e - d
  accumulateMod q ((List.finRange d).map fun i : Fin d =>
    (⟨(i + idx) % d, Nat.mod_lt _ (by have := i.2; omega)⟩,
      negateIf (¬e < d) (negateIf (i + idx ≥ d) (p i % q) q) q))

theorem add_lt_two_mul (i j : Fin d) : (i : ℕ) + j < 2 * d := by
  have := i.2
  have := j.2
  omega

/-- The unreduced coefficients of a product, by position below `2 * d`. -/
def rawProduct (a b : Poly d) (q : ℕ) : Fin (2 * d) → ℤ :=
  scatter (· + ·) (fun _ => 0) ((List.finRange d).flatMap fun i : Fin d =>
    let ai := a i % q
    if ai = 0 then []
    else (List.finRange d).map fun j : Fin d =>
      (⟨i + j, add_lt_two_mul i j⟩, (ai : ℤ) * (b j % q : ℕ)))

/-- `schoolbook_negacyclic`. -/
def schoolbookNegacyclic (a b : Poly d) (q : ℕ) : Poly d := fun k =>
  ((rawProduct a b q ⟨k, by omega⟩ - rawProduct a b q ⟨k + d, by omega⟩) % (q : ℤ)).toNat

theorem accumulateMod_lt (hq : 0 < q) (ws : List (Fin d × ℕ)) (i : Fin d) :
    accumulateMod q ws i < q :=
  scatter_induction (p := fun n => n < q) (fun _ => hq) (fun _ _ _ _ => Nat.mod_lt _ hq) i

/-- What the accumulating loop computes. -/
theorem ring_accumulateMod (ws : List (Fin d × ℕ)) : Poly.ring q (accumulateMod q ws) =
    (ws.map fun w => ((w.2 : ℕ) : ZMod q) • (x : NegRing d (ZMod q)) ^ (w.1 : ℕ)).sum := by
  have hsum := sum_scatter Finset.univ (fun a c => (a + c) % q) (fun n : ℕ => (n : ZMod q))
    (fun n : ℕ => (n : ZMod q)) (fun _ => True)
    (fun i : Fin d => (x : NegRing d (ZMod q)) ^ (i : ℕ)) (fun _ => 0) ws
    (fun _ _ => Finset.mem_univ _) (fun _ => trivial) (fun _ _ _ _ => trivial)
    (fun w _ a _ => by simp)
  rw [Poly.ring, ofCoeffs_apply]
  refine hsum.trans ?_
  simp

/-- A loop over the coefficients that sends coefficient `i` to its signed cell. -/
theorem ring_accumulateMod_map (p : Poly d) (cell : Fin d → Fin d × ℕ)
    (image : NegRing d (ZMod q) →ₗ[ZMod q] NegRing d (ZMod q))
    (hcell : ∀ i, (((cell i).2 : ℕ) : ZMod q) • (x : NegRing d (ZMod q)) ^ ((cell i).1 : ℕ) =
      (p i : ZMod q) • image (x ^ (i : ℕ))) :
    Poly.ring q (accumulateMod q ((List.finRange d).map cell)) = image (Poly.ring q p) := by
  rw [ring_accumulateMod, List.map_map, Poly.ring, ofCoeffs_apply, map_sum, ← List.ofFn_eq_map,
    List.sum_ofFn]
  refine Finset.sum_congr rfl fun i _ => ?_
  rw [map_smul, ← hcell i]
  rfl

theorem cast_sub_mod (hq : 0 < q) (c : ℕ) : ((q - c % q : ℕ) : ZMod q) = -(c : ZMod q) := by
  rw [Nat.cast_sub (Nat.mod_lt c hq).le, ZMod.natCast_self, zero_sub, ZMod.natCast_mod]

theorem cast_negateIf (flip : Prop) [Decidable flip] {c : ℕ} (hc : c ≤ q) :
    ((negateIf flip c q : ℕ) : ZMod q) = if flip then -(c : ZMod q) else c := by
  unfold negateIf
  split
  · rw [ZMod.natCast_mod, Nat.cast_sub hc, ZMod.natCast_self, zero_sub]
  · rfl

theorem negateIf_le (flip : Prop) [Decidable flip] {c : ℕ} (hq : 0 < q) (hc : c ≤ q) :
    negateIf flip c q ≤ q := by
  unfold negateIf
  split
  · exact (Nat.mod_lt _ hq).le
  · exact hc

/-- **`tau_coeffs` is the automorphism.** -/
theorem ring_tauCoeffs (hq : 0 < q) {g : ℕ} (hg : Odd g) (p : Poly d) :
    Poly.ring q (tauCoeffs p g q) = tau g (Poly.ring q p) := by
  refine ring_accumulateMod_map p _ (tau g).toLinearMap fun i => ?_
  show _ = (p i : ZMod q) • tau g (x ^ (i : ℕ))
  rw [map_pow, tau_x hg, ← pow_mul, mul_comm g, ← x_pow_mod ((i : ℕ) * g)]
  dsimp only
  split
  · rfl
  · rename_i he
    have hpow : (x : NegRing d (ZMod q)) ^ (i * g % (2 * d)) = -x ^ (i * g % (2 * d) - d) := by
      conv_lhs => rw [show i * g % (2 * d) = i * g % (2 * d) - d + d by omega, pow_add, x_pow_d,
        mul_neg_one]
    rw [hpow, smul_neg, ← neg_smul, ← cast_sub_mod hq]

/-- The monomial of a cell that may have come around once. -/
theorem smul_x_pow_wrap (c : ZMod q) {m : ℕ} (hm : m < 2 * d) :
    (if m ≥ d then -c else c) • (x : NegRing d (ZMod q)) ^ (m % d) = c • x ^ m := by
  rcases Nat.lt_or_ge m d with hlt | hge
  · rw [if_neg (by omega), Nat.mod_eq_of_lt hlt]
  · rw [if_pos hge, Nat.mod_eq_sub_mod hge, Nat.mod_eq_of_lt (by omega)]
    conv_rhs => rw [show m = m - d + d by omega, pow_add, x_pow_d, mul_neg_one,
      smul_neg, ← neg_smul]

/-- **`shift_negacyclic` multiplies by a power of `X`.** -/
theorem ring_shiftNegacyclic (hq : 0 < q) {shift : ℕ} (hshift : shift < d) (p : Poly d) :
    Poly.ring q (shiftNegacyclic p shift q) = x ^ shift * Poly.ring q p := by
  refine ring_accumulateMod_map p _ (LinearMap.mulLeft (ZMod q) (x ^ shift)) fun i => ?_
  have hi := i.2
  rw [LinearMap.mulLeft_apply, ← pow_add, add_comm shift]
  dsimp only
  rw [cast_negateIf _ (Nat.mod_lt _ hq).le, ZMod.natCast_mod, smul_x_pow_wrap _ (by omega)]

/-- **`rotate_by_x_power` multiplies by a power of `X`.** -/
theorem ring_rotateByXPower (hq : 0 < q) (hd : 0 < d) (p : Poly d) (exp : ℕ) :
    Poly.ring q (rotateByXPower p exp q) = x ^ exp * Poly.ring q p := by
  refine ring_accumulateMod_map p _ (LinearMap.mulLeft (ZMod q) (x ^ exp)) fun i => ?_
  have hi := i.2
  have he := Nat.mod_lt exp (show 0 < 2 * d by omega)
  have hle : negateIf (i + (if exp % (2 * d) < d then exp % (2 * d) else exp % (2 * d) - d) ≥ d)
      (p i % q) q ≤ q := negateIf_le _ hq (Nat.mod_lt _ hq).le
  rw [LinearMap.mulLeft_apply, ← x_pow_mod exp, ← pow_add, add_comm (exp % (2 * d))]
  dsimp only
  rw [cast_negateIf _ hle, cast_negateIf _ (Nat.mod_lt _ hq).le, ZMod.natCast_mod]
  by_cases hlt : exp % (2 * d) < d
  · rw [if_neg (not_not.mpr hlt), if_pos hlt, smul_x_pow_wrap _ (by omega)]
  · rw [if_pos hlt, if_neg hlt, neg_smul, smul_x_pow_wrap _ (by omega)]
    conv_rhs => rw [show (i : ℕ) + exp % (2 * d) = i + (exp % (2 * d) - d) + d by omega, pow_add,
      x_pow_d, mul_neg_one, smul_neg]

/-- The unreduced product, as a polynomial of degree below `2 * d`. -/
theorem sum_rawProduct (a b : Poly d) : ∑ n : Fin (2 * d),
    ((rawProduct a b q n : ℤ) : ZMod q) • (x : NegRing d (ZMod q)) ^ (n : ℕ) =
      Poly.ring q a * Poly.ring q b := by
  have hsum := sum_scatter Finset.univ (fun u v : ℤ => u + v) (fun z : ℤ => (z : ZMod q))
    (fun z : ℤ => (z : ZMod q)) (fun _ => True)
    (fun n : Fin (2 * d) => (x : NegRing d (ZMod q)) ^ (n : ℕ)) (fun _ => 0)
    ((List.finRange d).flatMap fun i : Fin d =>
      if a i % q = 0 then []
      else (List.finRange d).map fun j : Fin d =>
        ((⟨i + j, by omega⟩ : Fin (2 * d)), ((a i % q : ℕ) : ℤ) * (b j % q : ℕ)))
    (fun _ _ => Finset.mem_univ _) (fun _ => trivial) (fun _ _ _ _ => trivial)
    (fun w _ a _ => by push_cast; rfl)
  refine hsum.trans ?_
  -- A row that the loop skips adds nothing.
  have hrow (i : Fin d) : ((if a i % q = 0 then []
      else (List.finRange d).map fun j : Fin d =>
        ((⟨i + j, by omega⟩ : Fin (2 * d)), ((a i % q : ℕ) : ℤ) * (b j % q : ℕ))).map
          fun w => ((w.2 : ℤ) : ZMod q) • (x : NegRing d (ZMod q)) ^ (w.1 : ℕ)).sum =
      ((a i : ZMod q) • x ^ (i : ℕ)) * Poly.ring q b := by
    have hcast : ((a i % q : ℕ) : ZMod q) = a i := ZMod.natCast_mod _ _
    split
    · rename_i hzero
      rw [hzero, Nat.cast_zero] at hcast
      rw [← hcast, zero_smul, zero_mul]
      rfl
    · rw [List.map_map, ← List.ofFn_eq_map, List.sum_ofFn, Poly.ring, ofCoeffs_apply,
        Finset.mul_sum]
      refine Finset.sum_congr rfl fun j _ => ?_
      rw [smul_mul_smul_comm, ← pow_add]
      simp
  rw [List.map_flatMap, List.flatMap_def, List.sum_flatten, List.map_map]
  simp only [Function.comp_def, hrow]
  rw [← List.ofFn_eq_map, List.sum_ofFn]
  conv_rhs => rw [Poly.ring, ofCoeffs_apply, Finset.sum_mul]
  simp

/-- **`schoolbook_negacyclic` is the ring product.** -/
theorem ring_schoolbookNegacyclic (hq : 0 < q) (a b : Poly d) :
    Poly.ring q (schoolbookNegacyclic a b q) = Poly.ring q a * Poly.ring q b := by
  have hq' : (0 : ℤ) < q := by exact_mod_cast hq
  have hcoeff (k : Fin d) : ((schoolbookNegacyclic a b q k : ℕ) : ZMod q) =
      ((rawProduct a b q ⟨k, by omega⟩ : ℤ) : ZMod q) -
        ((rawProduct a b q ⟨k + d, by omega⟩ : ℤ) : ZMod q) := by
    rw [schoolbookNegacyclic, ← Int.cast_natCast,
      Int.toNat_of_nonneg (Int.emod_nonneg _ hq'.ne'), ZMod.intCast_mod, Int.cast_sub]
  have hsplit (f : ℕ → NegRing d (ZMod q)) :
      ∑ n : Fin (2 * d), f n = ∑ k : Fin d, f k + ∑ k : Fin d, f (k + d) := by
    rw [← Finset.sum_range, two_mul, Finset.sum_range_add, Finset.sum_range, Finset.sum_range]
    simp only [add_comm d]
  let entry (n : ℕ) : ZMod q := if hn :
    n < 2 * d then ((rawProduct a b q ⟨n, hn⟩ : ℤ) : ZMod q) else 0
  have hentry (n : Fin (2 * d)) : ((rawProduct a b q n : ℤ) : ZMod q) = entry n := by
    simp only [entry, dif_pos n.2, Fin.eta]
  have hraw := sum_rawProduct (q := q) a b
  simp only [hentry] at hraw
  rw [← hraw, hsplit fun n => entry n • x ^ n, Poly.ring, ofCoeffs_apply, ← Finset.sum_add_distrib]
  refine Finset.sum_congr rfl fun k _ => ?_
  rw [hcoeff, hentry, hentry, sub_smul, pow_add, x_pow_d, mul_neg_one, smul_neg, sub_eq_add_neg]

end Reinspiring
