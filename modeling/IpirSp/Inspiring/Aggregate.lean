import IpirSp.Inspiring.Lwe
import IpirSp.Loops.Writes

/-!
# The aggregated CRS slots

Slot `e` of the public preprocessing is `d⁻¹ · ∑ j, X^j · τ_e(ã_j)`, where `e` runs over the powers
of five and then over their negatives.  `buildAAggDirect` is that formula as the code writes it for
its reference path, one scatter-add a coefficient.  `buildAAgg` computes all slots at once in the
NTT domain: it transforms the rows, transposes, transforms again, transposes back and reads every
slot through an automorphism table, with all loops blocked.

Why that is the same: with `Â_j` the transform of `ã_j` and `ω_s` the root of slot `s`, slot `s` of
`X^j · τ_e(ã_j)` is `ω_s^j · Â_j[π_e(s)]`, so slot `s` of the sum is the polynomial
`∑ j, Â_j[v] · Y^j` at `Y = ω_s`, for `v = π_e(s)`.  Its values at all `ω_s` are one forward
transform of column `v`.

`transposeSquare_apply` and `aggWord_eq` are the two loop nests, by the coverage rule of
`IpirSp.Loops.Writes`.  `ring_buildAAgg` and `ring_aggregateSlot` bring both computations to the
same ring element.
-/

namespace Inspiring

open Negacyclic SpiralRs Loops

/-! ## The direct computation -/

/-- The body of the loop of `add_shifted_tau`, for one source coefficient. -/
def addShiftedCoeff {d : ℕ} [NeZero d] (poly : Poly d) (exponent shift q : ℕ) (out : Poly d)
    (sourceIdx : Fin d) : Poly d :=
  let reduced := poly sourceIdx
  if reduced = 0 then out
  else
    let exp := (sourceIdx : ℕ) * exponent % (2 * d)
    let idx := if exp < d then exp else exp - d
    let negate := decide (exp ≥ d)
    let idx := idx + shift
    let (idx, negate) := if idx ≥ d then (idx - d, !negate) else (idx, negate)
    let term := if negate then q - reduced else reduced
    let sum := (out (Fin.ofNat d idx) + term) % 2 ^ 64
    Function.update out (Fin.ofNat d idx) (if sum ≥ q then sum - q else sum)

/-- `add_shifted_tau`: add `X^shift · τ_exponent(poly)` into `out`. -/
def addShiftedTau {d : ℕ} [NeZero d] (out poly : Poly d) (exponent shift q : ℕ) : Poly d :=
  (List.finRange d).foldl (addShiftedCoeff poly exponent shift q) out

section Direct

variable (P : RlweParams)

/-- The automorphism exponent of an output slot. -/
def slotExponent (slot : ℕ) : ℕ :=
  if slot < P.d / 2 then tauGPow slot P.d
  else tauGPow (slot - P.d / 2) P.d * h P.d % (2 * P.d)

/-- `aggregate_slot`. -/
def aggregateSlot (aTildes : Fin P.d → Poly P.d) (slot : ℕ) : Ntt P.d P.q :=
  let out := (List.finRange P.d).foldl
    (fun out shift => addShiftedTau out (aTildes shift) (slotExponent P slot) shift P.q) fun _ => 0
  P.spiral.toNttAlloc fun i => out i * P.dInv % P.q

/-- `build_a_agg_direct`. -/
def buildAAggDirect (aTildes : Fin P.d → Poly P.d) : List (Ntt P.d P.q) :=
  (List.range P.d).map (aggregateSlot P aTildes)

end Direct

/-! ## The NTT-domain computation -/

/-- The tile of `transpose_square`. -/
def TILE : ℕ := 32

/-- `A_AGG_SLOT_BLOCK`. -/
def A_AGG_SLOT_BLOCK : ℕ := 64

/-- `A_AGG_COEFF_BLOCK`. -/
def A_AGG_COEFF_BLOCK : ℕ := 32

/-- The writes of `transpose_square`: row tiles, column tiles, rows, columns. -/
def transposeWrites (src : ℕ → ℕ) (d : ℕ) : List (ℕ × ℕ) :=
  (blockStarts d TILE).flatMap fun rowStart =>
    (blockStarts d TILE).flatMap fun colStart =>
      (blockRange d TILE rowStart).flatMap fun row =>
        (blockRange d TILE colStart).map fun col => (row * d + col, src (col * d + row))

/-- `transpose_square` on a flat array. -/
def transposeSquare (src dst : ℕ → ℕ) (d : ℕ) : ℕ → ℕ := applyWrites dst (transposeWrites src d)

section Ntt

variable (P : RlweParams)

/-- A position within a row. -/
def lane (i : ℕ) : Fin P.d := ⟨i % P.d, Nat.mod_lt _ P.d_pos⟩

/-- `ntt_forward` on every row of a flat array. -/
def forwardRows (m : ℕ → ℕ) : ℕ → ℕ := fun idx =>
  (P.spiral.nttForward fun j => m (idx / P.d * P.d + j)).word (lane P idx)

/-- The table lookup of the last loop.  Both lists have `d/2` entries, so it never misses. -/
def slotIndex (leftTables rightTables : List (NttAutomorphTable P.d)) (slot s : ℕ) : ℕ :=
  let table := if slot < P.d / 2 then leftTables[slot]? else rightTables[slot - P.d / 2]?
  table.elim s fun t => t.indices (lane P s)

/-- The writes of the last loop of `build_a_agg`: slot blocks, coefficient blocks, slots,
coefficients. -/
def aggWrites (eBySlot : ℕ → ℕ) (leftTables rightTables : List (NttAutomorphTable P.d)) :
    List ((ℕ × ℕ) × ℕ) :=
  (blockStarts P.d A_AGG_SLOT_BLOCK).flatMap fun base =>
    (blockStarts P.d A_AGG_COEFF_BLOCK).flatMap fun sStart =>
      (blockRange P.d A_AGG_SLOT_BLOCK base).flatMap fun slot =>
        (blockRange P.d A_AGG_COEFF_BLOCK sStart).map fun s =>
          let value := eBySlot (s * P.d + slotIndex P leftTables rightTables slot s)
          ((slot, s), value * P.dInv % P.q)

theorem aggWrites_lt (eBySlot : ℕ → ℕ) (leftTables rightTables : List (NttAutomorphTable P.d)) :
    ∀ w ∈ aggWrites P eBySlot leftTables rightTables, w.2 < P.q := by
  intro w hw
  simp only [aggWrites, List.mem_flatMap, List.mem_map] at hw
  obtain ⟨-, -, -, -, -, -, -, -, rfl⟩ := hw
  exact Nat.mod_lt _ P.q_pos

/-- Output slot `slot` after the last loop. -/
def aggSlot (eBySlot : ℕ → ℕ) (leftTables rightTables : List (NttAutomorphTable P.d)) (slot : ℕ) :
    Ntt P.d P.q where
  word s := applyWrites (fun _ => 0) (aggWrites P eBySlot leftTables rightTables) (slot, (s : ℕ))
  lt _ := applyWrites_induction (p := fun w => w < P.q) (fun _ => P.q_pos)
    (aggWrites_lt P eBySlot leftTables rightTables) _

/-- `build_a_agg`. -/
def buildAAgg (aTildes : Fin P.d → Poly P.d) : Outcome (List (Ntt P.d P.q)) := do
  let aHat := forwardRows P fun idx => aTildes (lane P (idx / P.d)) (lane P idx)
  let eTable := forwardRows P (transposeSquare aHat (fun _ => 0) P.d)
  let eBySlot := transposeSquare eTable (fun _ => 0) P.d
  let (leftTables, rightTables) ← tauGPowerTables P (P.d / 2)
  .ok ((List.range P.d).map (aggSlot P eBySlot leftTables rightTables))

end Ntt

/-! ## The loop nests -/

theorem transposeSquare_apply (src dst : ℕ → ℕ) {d row col : ℕ} (hrow : row < d) (hcol : col < d) :
    transposeSquare src dst d (row * d + col) = src (col * d + row) := by
  have hres := applyWrites_eq dst (transposeWrites src d)
    (fun k => src (k % d * d + k / d)) ?_ (row * d + col) ?_
  · rw [transposeSquare, hres]
    simp only [flat_div hcol, flat_mod hcol]
  · intro w hw
    simp only [transposeWrites, List.mem_flatMap, List.mem_map] at hw
    obtain ⟨_, -, _, -, r, -, c, hc, rfl⟩ := hw
    have hcd := (mem_blockRange.mp hc).2.2
    simp only [flat_div hcd, flat_mod hcd]
  · obtain ⟨rs, hrs, hr⟩ := exists_block TILE (by decide) hrow
    obtain ⟨cs, hcs, hc⟩ := exists_block TILE (by decide) hcol
    refine ⟨(row * d + col, src (col * d + row)), ?_, rfl⟩
    simp only [transposeWrites, List.mem_flatMap, List.mem_map]
    exact ⟨rs, hrs, cs, hcs, row, hr, col, hc, rfl⟩

section Spec

variable {P : RlweParams}

theorem lane_val {i : ℕ} (hi : i < P.d) : (lane P i : ℕ) = i := Nat.mod_eq_of_lt hi

theorem lane_fin (i : Fin P.d) : lane P i = i := Fin.ext (lane_val i.2)

theorem lane_flat (row : ℕ) (i : Fin P.d) : lane P (row * P.d + i) = i :=
  Fin.ext (flat_mod i.2)

theorem forwardRows_apply (m : ℕ → ℕ) (row : ℕ) (s : Fin P.d) :
    forwardRows P m (row * P.d + s) =
      (P.spiral.nttForward fun j => m (row * P.d + j)).word s := by
  rw [forwardRows, flat_div s.2, lane_flat]

/-- **The last loop stores every output word.** -/
theorem aggWord_eq (eBySlot : ℕ → ℕ) (leftTables rightTables : List (NttAutomorphTable P.d))
    {slot : ℕ} (hslot : slot < P.d) (s : Fin P.d) :
    (aggSlot P eBySlot leftTables rightTables slot).word s =
      eBySlot (s * P.d + slotIndex P leftTables rightTables slot s) * P.dInv % P.q := by
  refine applyWrites_eq _ (aggWrites P eBySlot leftTables rightTables) (fun k => eBySlot
    (k.2 * P.d + slotIndex P leftTables rightTables k.1 k.2) * P.dInv % P.q) ?_ (slot, (s : ℕ)) ?_
  · intro w hw
    simp only [aggWrites, List.mem_flatMap, List.mem_map] at hw
    obtain ⟨_, -, _, -, r, -, c, -, rfl⟩ := hw
    rfl
  · obtain ⟨bs, hbs, hb⟩ := exists_block A_AGG_SLOT_BLOCK (by decide) hslot
    obtain ⟨cs, hcs, hc⟩ := exists_block A_AGG_COEFF_BLOCK (by decide) s.2
    refine ⟨((slot, s), eBySlot (s * P.d + slotIndex P leftTables rightTables slot s) *
      P.dInv % P.q), ?_, rfl⟩
    simp only [aggWrites, List.mem_flatMap, List.mem_map]
    exact ⟨bs, hbs, cs, hcs, slot, hb, s, hc, rfl⟩

variable (P) in
/-- The exponent of output slot `slot`. -/
def aggExp (slot : ℕ) : ℕ :=
  if slot < P.d / 2 then leftExp P.d slot else rightExp P.d (slot - P.d / 2)

theorem odd_aggExp (slot : ℕ) : Odd (aggExp P slot) := by
  unfold aggExp
  split
  · exact odd_leftExp _ _
  · exact odd_rightExp P.d_pos _

theorem slotIndex_eq {slot : ℕ} (hslot : slot < P.d) (s : Fin P.d) :
    slotIndex P (leftTables P 0 (P.d / 2)) (rightTables P 0 (P.d / 2)) slot s =
      (P.spiral.slots.perm (aggExp P slot) s : ℕ) := by
  have hhalf : P.d - P.d / 2 = P.d / 2 := by have := P.two_dvd_d; omega
  simp only [slotIndex, aggExp]
  split
  · rename_i hlt
    simp [leftTables, hlt, tauTable_indices (odd_leftExp _ _), lane_fin]
  · rename_i hge
    have hlt : slot - P.d / 2 < P.d / 2 := by omega
    simp [rightTables, hlt, tauTable_indices (odd_rightExp P.d_pos _), lane_fin]

variable (P) in
/-- The aggregate of one automorphism, `d⁻¹ · ∑ j, X^j · τ_e(ã_j)`. -/
noncomputable def aggregateOf (aTildes : Fin P.d → Poly P.d) (e : ℕ) : NegRing P.d (ZMod P.q) :=
  (P.dInv : ZMod P.q) • ∑ j : Fin P.d, x ^ (j : ℕ) * tau e (Poly.ring P.q (aTildes j))

/-- The ring element that output slot `slot` stands for. -/
noncomputable def aggRing (aTildes : Fin P.d → Poly P.d) (slot : ℕ) : NegRing P.d (ZMod P.q) :=
  aggregateOf P aTildes (aggExp P slot)

theorem eval_aggRing (aTildes : Fin P.d → Poly P.d) (slot : ℕ) (s : Fin P.d) :
    P.spiral.slots.eval s (aggRing aTildes slot) =
      P.dInv * ∑ j : Fin P.d, (P.spiral.slots.root ^ P.spiral.slots.exp s) ^ (j : ℕ) *
        P.spiral.slots.eval (P.spiral.slots.perm (aggExp P slot) s)
          (Poly.ring P.q (aTildes j)) := by
  rw [aggRing, aggregateOf, map_smul, smul_eq_mul, map_sum]
  refine congrArg _ (Finset.sum_congr rfl fun j _ => ?_)
  rw [map_mul, map_pow, Slots.eval_x, P.spiral.slots.eval_tau (odd_aggExp slot)]

theorem nttForward_word {p : Poly P.d} (hp : ∀ i, p i < P.q) (s : Fin P.d) :
    ((P.spiral.nttForward p).word s : ZMod P.q) = P.spiral.slots.eval s (Poly.ring P.q p) := by
  rw [P.spiral.nttForward_eq p hp]
  exact P.spiral.toNttAlloc_word_eq_eval (fun i => P.spiral.lt_word_of_le (hp i).le) s

/-- **The blocked NTT-domain code computes the aggregates**, for masks of reduced words. -/
theorem ring_buildAAgg (hsep : ProbesSeparate P) (aTildes : Fin P.d → Poly P.d)
    (hlt : ∀ j i, aTildes j i < P.q) :
    ∃ out : ℕ → Ntt P.d P.q, buildAAgg P aTildes = .ok ((List.range P.d).map out) ∧
      ∀ slot < P.d, P.spiral.ring (out slot) = aggRing aTildes slot := by
  refine ⟨_, by rw [buildAAgg, tauGPowerTables_eq hsep]; rfl, fun slot hslot => ?_⟩
  refine P.spiral.ring_eq_of_word fun s => ?_
  set v := P.spiral.slots.perm (aggExp P slot) s with hv
  -- Row `j` of the first transform, and column `v` of it after the transposition.
  have hrow (j : ℕ) (hj : j < P.d) (w : Fin P.d) :
      forwardRows P (fun idx => aTildes (lane P (idx / P.d)) (lane P idx)) (j * P.d + w) =
        (P.spiral.nttForward (aTildes (lane P j))).word w := by
    rw [forwardRows_apply]
    congr 2
    ext i
    rw [flat_div i.2, lane_flat]
  rw [aggWord_eq _ _ _ hslot, slotIndex_eq hslot, transposeSquare_apply _ _ s.2 v.2,
    forwardRows_apply]
  have hcol : (fun j : Fin P.d => transposeSquare (forwardRows P fun idx =>
      aTildes (lane P (idx / P.d)) (lane P idx)) (fun _ => 0) P.d (v * P.d + j)) =
      fun j : Fin P.d => (P.spiral.nttForward (aTildes j)).word v := by
    funext j
    rw [transposeSquare_apply _ _ v.2 j.2, hrow j j.2, lane_fin]
  rw [hcol, eval_aggRing, ZMod.natCast_mod, Nat.cast_mul,
    nttForward_word fun j => (P.spiral.nttForward (aTildes j)).lt v,
      P.spiral.eval_polyRing, mul_comm]
  refine congrArg _ (Finset.sum_congr rfl fun j _ => ?_)
  rw [nttForward_word (hlt j), mul_comm]

/-! ## The direct computation in the ring -/

/-- A word sum reduced by one conditional subtraction. -/
theorem cast_condSub {q a b : ℕ} (ha : a < q) (hb : b ≤ q) (hq : q < 2 ^ 62) :
    (((if (a + b) % 2 ^ 64 ≥ q then (a + b) % 2 ^ 64 - q else (a + b) % 2 ^ 64 : ℕ)) : ZMod q) =
        (a : ZMod q) + b ∧
      (if (a + b) % 2 ^ 64 ≥ q then (a + b) % 2 ^ 64 - q else (a + b) % 2 ^ 64) < q := by
  have hmod : (a + b) % 2 ^ 64 = a + b := Nat.mod_eq_of_lt (by omega)
  rw [hmod]
  split
  · rename_i hge
    refine ⟨?_, by omega⟩
    rw [Nat.cast_sub hge, ZMod.natCast_self, sub_zero, Nat.cast_add]
  · exact ⟨by rw [Nat.cast_add], by omega⟩

/-- The position and the sign that `add_shifted_tau` computes for a monomial. -/
theorem shifted_monomial {d q : ℕ} [NeZero d] (exp shift : ℕ) (hexp : exp < 2 * d)
    (hshift : shift < d) :
    ∃ idx < d, ∃ negate : Bool,
      (let idx := if exp < d then exp else exp - d
       let negate := decide (exp ≥ d)
       let idx := idx + shift
       (if idx ≥ d then (idx - d, !negate) else (idx, negate))) = (idx, negate) ∧
      (x : NegRing d (ZMod q)) ^ (exp + shift) = (if negate then -1 else 1) * x ^ idx := by
  have hneg (n : ℕ) (hn : d ≤ n) : (x : NegRing d (ZMod q)) ^ n = -x ^ (n - d) := by
    conv_lhs => rw [← Nat.add_sub_cancel' hn, pow_add, x_pow_d, neg_one_mul]
  by_cases h1 : exp < d
  · by_cases h2 : exp + shift ≥ d
    · refine ⟨exp + shift - d, by omega, true, ?_, ?_⟩
      · simp [h1, h2]
      · rw [hneg _ h2]
        simp
    · refine ⟨exp + shift, by omega, false, ?_, by simp⟩
      simp [h1, h2]
  · have h1' : d ≤ exp := not_lt.mp h1
    have hfirst : (x : NegRing d (ZMod q)) ^ (exp + shift) = -x ^ (exp - d + shift) := by
      rw [hneg _ (by omega), show exp + shift - d = exp - d + shift by omega]
    by_cases h2 : exp - d + shift ≥ d
    · refine ⟨exp - d + shift - d, by omega, false, ?_, ?_⟩
      · simp [h1, h1', h2]
      · rw [hfirst, hneg _ h2]
        simp
    · refine ⟨exp - d + shift, by omega, true, ?_, ?_⟩
      · simp [h1, h1', h2]
      · rw [hfirst]
        simp

/-- **One source coefficient** adds its shifted monomial and keeps the words reduced. -/
theorem ring_addShiftedCoeff {d q : ℕ} [NeZero d] (hq : q < 2 ^ 62) {poly out : Poly d}
    (hpoly : ∀ i, poly i < q) (hout : ∀ i, out i < q) (exponent : ℕ) {shift : ℕ}
    (hshift : shift < d) (i : Fin d) :
    Poly.ring q (addShiftedCoeff poly exponent shift q out i) =
        Poly.ring q out + (poly i : ZMod q) • x ^ ((i : ℕ) * exponent + shift) ∧
      ∀ k, addShiftedCoeff poly exponent shift q out i k < q := by
  have hd := NeZero.pos d
  by_cases h0 : poly i = 0
  · have hskip : addShiftedCoeff poly exponent shift q out i = out := by
      simp [addShiftedCoeff, h0]
    rw [hskip, h0]
    exact ⟨by simp, hout⟩
  · obtain ⟨idx, hidx, negate, hpair, hmono⟩ :=
      shifted_monomial (q := q) ((i : ℕ) * exponent % (2 * d)) shift
        (Nat.mod_lt _ (by omega)) hshift
    have hterm : (if negate then q - poly i else poly i) ≤ q := by
      have := hpoly i
      split <;> omega
    have hcond := cast_condSub (hout (Fin.ofNat d idx)) hterm hq
    have hrun : addShiftedCoeff poly exponent shift q out i =
        Function.update out (Fin.ofNat d idx)
          (if (out (Fin.ofNat d idx) + if negate then q - poly i else poly i) % 2 ^ 64 ≥ q then
            (out (Fin.ofNat d idx) + if negate then q - poly i else poly i) % 2 ^ 64 - q
          else (out (Fin.ofNat d idx) + if negate then q - poly i else poly i) % 2 ^ 64) := by
      simp only [addShiftedCoeff, if_neg h0, hpair]
    have hsign : ((if negate then q - poly i else poly i : ℕ) : ZMod q) =
        (if negate then -1 else 1) * (poly i : ZMod q) := by
      cases negate
      · simp
      · simp [Nat.cast_sub (hpoly i).le]
    have hexp : (x : NegRing d (ZMod q)) ^ ((i : ℕ) * exponent + shift) =
        (if negate then -1 else 1) * x ^ idx := by
      rw [← hmono, pow_add, pow_add, x_pow_mod]
    refine ⟨?_, fun k => ?_⟩
    · rw [hrun, Poly.ring_update, hcond.1, add_sub_cancel_left, hsign, hexp]
      have hval : ((Fin.ofNat d idx : Fin d) : ℕ) = idx := Nat.mod_eq_of_lt hidx
      rw [hval]
      cases negate <;> simp
    · rw [hrun]
      by_cases hk : k = Fin.ofNat d idx
      · subst hk
        rw [Function.update_self]
        exact hcond.2
      · rw [Function.update_of_ne hk]
        exact hout k

/-- **`add_shifted_tau`** adds a shifted automorphic image. -/
theorem ring_addShiftedTau {d q : ℕ} [NeZero d] (hq : q < 2 ^ 62) {poly out : Poly d}
    (hpoly : ∀ i, poly i < q) (hout : ∀ i, out i < q) {exponent : ℕ} (hodd : Odd exponent)
    {shift : ℕ} (hshift : shift < d) :
    Poly.ring q (addShiftedTau out poly exponent shift q) =
        Poly.ring q out + x ^ shift * tau exponent (Poly.ring q poly) ∧
      ∀ k, addShiftedTau out poly exponent shift q k < q := by
  have hrun (l : List (Fin d)) (out : Poly d) (hout : ∀ i, out i < q) :
      Poly.ring q (l.foldl (addShiftedCoeff poly exponent shift q) out) = Poly.ring q out +
          (l.map fun i => (poly i : ZMod q) • (x : NegRing d (ZMod q)) ^
            ((i : ℕ) * exponent + shift)).sum ∧
        ∀ k, l.foldl (addShiftedCoeff poly exponent shift q) out k < q := by
    induction l generalizing out with
    | nil => exact ⟨by simp, hout⟩
    | cons i l ih =>
        obtain ⟨hring, hlt⟩ := ring_addShiftedCoeff hq hpoly hout exponent hshift i
        obtain ⟨hring', hlt'⟩ := ih _ hlt
        refine ⟨?_, hlt'⟩
        rw [List.foldl_cons, hring', hring, List.map_cons, List.sum_cons, add_assoc]
  obtain ⟨hring, hlt⟩ := hrun (List.finRange d) out hout
  refine ⟨?_, hlt⟩
  rw [addShiftedTau, hring, Poly.ring, Poly.ring, tau_ofCoeffs hodd, Finset.mul_sum,
    ← List.ofFn_eq_map, List.sum_ofFn]
  refine congrArg _ (Finset.sum_congr rfl fun i _ => ?_)
  rw [mul_smul_comm, ← pow_add, add_comm shift]

theorem slotExponent_eq (slot : ℕ) : slotExponent P slot = aggExp P slot := by
  simp only [slotExponent, aggExp, tauGPow_eq P.d_pos]
  split
  · rfl
  · have hmod := leftExp_mul_neg P.d (slot - P.d / 2)
    rwa [Nat.ModEq, Nat.mod_eq_of_lt (rightExp_lt P.d_pos _)] at hmod

/-- **The direct code computes the aggregates.** -/
theorem ring_aggregateSlot (hq : P.q < 2 ^ 62) {aTildes : Fin P.d → Poly P.d}
    (hlt : ∀ j i, aTildes j i < P.q) (slot : ℕ) :
    P.spiral.ring (aggregateSlot P aTildes slot) = aggRing aTildes slot := by
  have hodd : Odd (slotExponent P slot) := by
    rw [slotExponent_eq]
    exact odd_aggExp slot
  have hrun (l : List (Fin P.d)) (out : Poly P.d) (hout : ∀ i, out i < P.q) :
      Poly.ring P.q (l.foldl (fun out shift =>
          addShiftedTau out (aTildes shift) (slotExponent P slot) shift P.q) out) =
            Poly.ring P.q out +
        (l.map fun j : Fin P.d => x ^ (j : ℕ) *
          tau (slotExponent P slot) (Poly.ring P.q (aTildes j))).sum := by
    induction l generalizing out with
    | nil => simp
    | cons j l ih =>
        obtain ⟨hring, hlt'⟩ := ring_addShiftedTau hq (hlt j) hout hodd j.2
        rw [List.foldl_cons, ih _ hlt', hring, List.map_cons, List.sum_cons, add_assoc]
  have hsum := hrun (List.finRange P.d) (fun _ => 0) fun _ => P.q_pos
  rw [Poly.ring_zero, zero_add, ← List.ofFn_eq_map, List.sum_ofFn] at hsum
  rw [aggregateSlot, P.spiral.ring_toNttAlloc fun i =>
    P.spiral.lt_word_of_le (Nat.mod_lt _ P.q_pos).le, Poly.ring_mod, aggRing, aggregateOf,
      ← slotExponent_eq, ← hsum]
  rw [Poly.ring, Poly.ring, ← map_smul]
  refine congrArg _ (funext fun i => ?_)
  simp [mul_comm]

/-! ## Agreement -/

/-- **The NTT-domain aggregates are the direct ones.**  The `i`-th slot of either half of the direct
code is `d⁻¹ · ∑ j, X^j · τ(ã_j)` for the automorphism `5^i` in the left half and `-5^i` in the
right, and the blocked code returns word for word what the direct code returns.  Its only other
outcome is the panic of a table search whose sixteen pairs of random probes all collide. -/
theorem buildAAgg_eq_direct (P : RlweParams) (hq : P.q < 2 ^ 62) (aTildes : Fin P.d → Poly P.d)
    (hlt : ∀ j i, aTildes j i < P.q) :
    (buildAAgg P aTildes =
        if ProbesSeparate P then .ok (buildAAggDirect P aTildes) else .error tableSearchPanic) ∧
      (∀ i < P.d / 2, ((buildAAggDirect P aTildes)[i]?).map P.spiral.ring =
        some (aggregateOf P aTildes (5 ^ i))) ∧
      ∀ i < P.d / 2, ((buildAAggDirect P aTildes)[P.d / 2 + i]?).map P.spiral.ring =
        some (aggregateOf P aTildes (5 ^ i * (2 * P.d - 1))) := by
  have hget (slot e : ℕ) (hslot : slot < P.d) (he : Odd e)
      (hmod : aggExp P slot ≡ e [MOD 2 * P.d]) :
      ((buildAAggDirect P aTildes)[slot]?).map P.spiral.ring = some (aggregateOf P aTildes e) := by
    rw [buildAAggDirect, List.getElem?_map, List.getElem?_range hslot, Option.map_some,
      Option.map_some, ring_aggregateSlot hq hlt, aggRing, aggregateOf,
      tau_congr (odd_aggExp slot) he hmod, aggregateOf]
  refine ⟨?_, fun i hi => ?_, fun i hi => ?_⟩
  · split
    · rename_i hsep
      obtain ⟨out, hrun, hout⟩ := ring_buildAAgg hsep aTildes hlt
      rw [hrun, buildAAggDirect]
      refine congrArg Except.ok (List.map_congr_left fun slot hslot => P.spiral.ring_injective ?_)
      rw [hout slot (List.mem_range.mp hslot), ring_aggregateSlot hq hlt]
    · rename_i hsep
      rw [buildAAgg, tauGPowerTables_panic hsep]
      rfl
  · refine hget i _ (by omega) (odd_five_pow i) ?_
    rw [aggExp, if_pos hi]
    exact Nat.mod_modEq _ _
  · refine hget _ _ (by omega) ((odd_five_pow i).mul (odd_two_mul_sub_one P.d_pos)) ?_
    rw [aggExp, if_neg (by omega), Nat.add_sub_cancel_left]
    exact Nat.mod_modEq _ _

/-- The small parameter set admits the statement, and its table search succeeds. -/
theorem buildAAgg_eq_direct_small :
    buildAAgg smallParams (fun j i => (3 * j + i) % 17) =
      .ok (buildAAggDirect smallParams fun j i => (3 * j + i) % 17) := by
  rw [(buildAAgg_eq_direct smallParams (by decide) (fun j i => (3 * j + i) % 17)
    fun _ _ => Nat.mod_lt _ (by decide)).1, if_pos probesSeparate_smallParams]

end Spec

end Inspiring
