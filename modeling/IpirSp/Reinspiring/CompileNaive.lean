import IpirSp.Reinspiring.Compile

/-!
# The compilers agree

`compileNaive` is the reference compiler: it builds the negacyclic matrix of every polynomial and
the signed permutation matrix of its automorphism, multiplies the two and adds the products.
`compilers_agree` says that it, the column compiler and the transform compiler accept the same
terms and return the same matrix, whose product with the coefficients of `y` is the coefficient
vector of `∑ t · τ_g(y)`.

The sums of the schoolbook product live in a signed 128-bit word; `schoolbook_fits` bounds them at
every step of the loops where the compilers call it, on the image of a basis vector.
-/

namespace Reinspiring

open Negacyclic SpiralRs Inspiring Loops MachineWord

variable {d q : ℕ}

/-! ## The reference compiler -/

/-- `negacyclic_matrix`. -/
def negacyclicMatrix (t : Poly d) (q : ℕ) : PackingMatrix :=
  ⟨d, d, q, fun r c =>
    if c ≤ r then coeffAt t (r - c) % q else (q - coeffAt t (r + d - c) % q) % q⟩

/-- The basis vector `X^c`. -/
def basis (d c : ℕ) : Poly d := fun i => if (i : ℕ) = c then 1 else 0

/-- `signed_perm_matrix`. -/
def signedPermMatrix (d g q : ℕ) : PackingMatrix :=
  .ofColumns d q fun c r => tauCoeffs (basis d c) g q r % q

/-- `matmul_square`. -/
def matmulSquare (a b : PackingMatrix) : PackingMatrix :=
  let d := a.rows
  ⟨d, d, a.q, fun i j => scatter (fun out prod => (out + prod) % a.q) (fun _ => 0)
    ((List.range d).flatMap fun i => (List.range d).flatMap fun k =>
      if a.entry i k = 0 then []
      else (List.range d).map fun j => ((i, j), a.entry i k * b.entry k j)) (i, j)⟩

/-- `mat_add_into`, as the value left in its first argument. -/
def matAddInto (dst src : PackingMatrix) : PackingMatrix :=
  ⟨dst.rows, dst.cols, dst.q, fun r c => (dst.entry r c + src.entry r c) % dst.q⟩

/-- The body of the loop of `compile_naive`. -/
def addTerm (q : ℕ) (m : PackingMatrix) (t : Term d) : PackingMatrix :=
  matAddInto m (matmulSquare (negacyclicMatrix t.1 q) (signedPermMatrix d t.2 q))

/-- `compile_naive`; that every polynomial has degree `d` is its type. -/
def compileNaive (ts : List (Poly d)) (exponents : List ℕ) (q : ℕ) : Result PackingMatrix :=
  if ts.length ≠ exponents.length then
    preprocessMismatch "compile_naive: ts/exponents length mismatch"
  else if ts.isEmpty then invalidParams "compile_naive: empty input"
  else .ok ((ts.zip exponents).foldl (addTerm q) (PackingMatrix.zero d d q))

/-! ## Its matrices -/

section Matrices

/-- Column `k` of the negacyclic matrix is the product with `X^k`. -/
theorem ring_column_negacyclicMatrix (hq : 0 < q) (t : Poly d) {k : ℕ} (hk : k < d) :
    Poly.ring q ((negacyclicMatrix t q).column d k) = x ^ k * Poly.ring q t := by
  have : NeZero d := ⟨by omega⟩
  refine ext_coeff fun r => ?_
  rw [Poly.coeff_ring, coeff_x_pow_mul hk, PackingMatrix.column, negacyclicMatrix]
  dsimp only
  by_cases hkr : k ≤ r
  · rw [if_pos hkr, dif_pos hkr, ZMod.natCast_mod, Poly.coeff_ring, coeffAt_of_lt t (by omega)]
  · rw [if_neg hkr, dif_neg hkr, ZMod.natCast_mod, cast_sub_mod hq, Poly.coeff_ring,
      coeffAt_of_lt t (by omega)]

/-- An entry of the signed permutation matrix. -/
theorem cast_entry_signedPermMatrix [NeZero d] (hq : 0 < q) {g : ℕ} (hg : Odd g) (k : Fin d)
    {c : ℕ} (hc : c < d) : (((signedPermMatrix d g q).entry k c : ℕ) : ZMod q) =
      coeff (tau g (x ^ c)) k := by
  have hbasis : Poly.ring q (basis d c) = x ^ c := ring_basis hc
  have hcoeff := congrArg (coeff · k) (ring_tauCoeffs hq hg (basis d c))
  simp only [Poly.coeff_ring, hbasis] at hcoeff
  rw [signedPermMatrix, PackingMatrix.ofColumns]
  dsimp only
  rw [dif_pos k.2, ZMod.natCast_mod]
  exact hcoeff

/-- The increments of one row and one inner index that meet a cell: one of them if the row is that
of the cell, and where the loop skips a zero the increment would be zero. -/
theorem sum_products_meet {a b : PackingMatrix} {i j : ℕ} (hj : j < a.rows) (i' k : ℕ) :
    ((if a.entry i' k = 0 then ([] : List ((ℕ × ℕ) × ℕ))
      else (List.range a.rows).map fun j => ((i', j), a.entry i' k * b.entry k j)).map
        fun w => if w.1 = (i, j) then (w.2 : ZMod a.q) else 0).sum =
      if i' = i then (a.entry i k : ZMod a.q) * b.entry k j else 0 := by
  by_cases hne : i' = i
  · subst hne
    by_cases hzero : a.entry i' k = 0
    · simp [hzero]
    · have hcells : ((List.range a.rows).map fun j' =>
          if ((i', j') : ℕ × ℕ) =
            (i', j) then ((a.entry i' k * b.entry k j' : ℕ) : ZMod a.q) else 0).sum =
          ∑ j' ∈ Finset.range a.rows,
            if j' = j then ((a.entry i' k * b.entry k j' : ℕ) : ZMod a.q) else 0 := by
        simp only [Prod.mk.injEq, true_and]
        rfl
      rw [if_neg hzero, if_pos rfl, List.map_map]
      refine hcells.trans ?_
      rw [Finset.sum_ite_eq', if_pos (Finset.mem_range.mpr hj), Nat.cast_mul]
  · rw [if_neg hne]
    refine List.sum_eq_zero fun v hv => ?_
    obtain ⟨w, hw, rfl⟩ := List.mem_map.mp hv
    split at hw
    · cases hw
    · obtain ⟨j', -, rfl⟩ := List.mem_map.mp hw
      simp [hne]

/-- **An entry of the product** is the row times the column. -/
theorem cast_entry_matmulSquare {a b : PackingMatrix} {i j : ℕ} (hi : i < a.rows)
    (hj : j < a.rows) : (((matmulSquare a b).entry i j : ℕ) : ZMod a.q) =
      ∑ k ∈ Finset.range a.rows, (a.entry i k : ZMod a.q) * b.entry k j := by
  rw [matmulSquare]
  dsimp only
  rw [map_scatter _ (fun n : ℕ => (n : ZMod a.q)) (fun n : ℕ => (n : ZMod a.q)) _ _
    (fun w _ n => by rw [ZMod.natCast_mod, Nat.cast_add]), Nat.cast_zero, zero_add]
  have hrow (i' : ℕ) : (((List.range a.rows).flatMap fun k =>
      if a.entry i' k = 0 then ([] : List ((ℕ × ℕ) × ℕ))
      else (List.range a.rows).map fun j => ((i', j), a.entry i' k * b.entry k j)).map
        fun w => if w.1 = (i, j) then (w.2 : ZMod a.q) else 0).sum =
      if i' = i then ∑ k ∈ Finset.range a.rows, (a.entry i k : ZMod a.q) * b.entry k j else 0 := by
    rw [List.map_flatMap, List.flatMap_def, List.sum_flatten, List.map_map]
    simp only [Function.comp_def, sum_products_meet hj]
    by_cases hne : i' = i
    · simp only [if_pos hne]
      rfl
    · simp only [if_neg hne, List.map_const', List.sum_replicate, smul_zero]
  rw [List.map_flatMap, List.flatMap_def, List.sum_flatten, List.map_map]
  simp only [Function.comp_def, hrow]
  refine (Finset.sum_ite_eq' (Finset.range a.rows) i fun _ => _).trans ?_
  rw [if_pos (Finset.mem_range.mpr hi)]

/-- **The product of the two matrices** has the columns of one term. -/
theorem ring_column_product (hq : 0 < q) (t : Poly d) {g : ℕ} (hg : Odd g) {c : ℕ} (hc : c < d) :
    Poly.ring q ((matmulSquare (negacyclicMatrix t q) (signedPermMatrix d g q)).column d c) =
      Poly.ring q t * x ^ (c * g) := by
  have : NeZero d := ⟨by omega⟩
  have hcolumns : Poly.ring q
      ((matmulSquare (negacyclicMatrix t q) (signedPermMatrix d g q)).column d c) =
      ∑ k : Fin d, coeff (tau g (x ^ c : NegRing d (ZMod q))) k •
        Poly.ring q ((negacyclicMatrix t q).column d k) := by
    refine ext_coeff fun r => ?_
    rw [Poly.coeff_ring, PackingMatrix.column, coeff_sum]
    refine (cast_entry_matmulSquare (a := negacyclicMatrix t q) r.2 hc).trans ?_
    show ∑ k ∈ Finset.range d, _ = _
    rw [Finset.sum_range]
    refine Finset.sum_congr rfl fun k _ => ?_
    rw [coeff_smul, Poly.coeff_ring, ← cast_entry_signedPermMatrix hq hg k hc, mul_comm]
    rfl
  have himage : tau g (x ^ c) = (x : NegRing d (ZMod q)) ^ (c * g) := by
    rw [map_pow, tau_x hg, ← pow_mul, mul_comm]
  rw [hcolumns, ← himage]
  conv_rhs => rw [← sum_coeff_smul (tau g (x ^ c)), Finset.mul_sum]
  refine Finset.sum_congr rfl fun k _ => ?_
  rw [ring_column_negacyclicMatrix hq t k.2, mul_smul_comm, mul_comm (x ^ (k : ℕ))]

/-- **One term** is added to every column. -/
theorem addTerm_isCompiled (hq : 0 < q) {m : PackingMatrix} {done : List (Term d)}
    (hm : IsCompiled d q m done) {t : Term d} (hg : Odd t.2) :
    IsCompiled d q (addTerm q m t) (done ++ [t]) where
  rows := hm.rows
  cols := hm.cols
  modulus := hm.modulus
  entry_lt r c := by
    rw [addTerm, matAddInto, hm.modulus]
    exact Nat.mod_lt _ hq
  ring_column c hc := by
    rw [List.map_append, List.sum_append, ← hm.ring_column c hc, List.map_singleton,
      List.sum_singleton, ← ring_column_product hq t.1 hg hc, Poly.ring, Poly.ring, Poly.ring,
      ← map_add]
    congr 1
    funext r
    simp only [PackingMatrix.column, addTerm, matAddInto, hm.modulus, Pi.add_apply]
    rw [ZMod.natCast_mod, Nat.cast_add]

/-- **A matrix of the reference compiler is compiled from its terms.** -/
theorem compileNaive_isCompiled (hq : 0 < q) {ts : List (Poly d)} {exponents : List ℕ}
    (hodd : ∀ g ∈ exponents, Odd g) {M : PackingMatrix}
    (hM : compileNaive ts exponents q = .ok M) : IsCompiled d q M (ts.zip exponents) := by
  unfold compileNaive at hM
  split at hM; · cases hM
  split at hM; · cases hM
  cases hM
  exact foldl_isCompiled hq _ (fun m done t hm ht => addTerm_isCompiled hq hm ht)
    fun t ht => hodd _ (List.of_mem_zip ht).2

end Matrices

/-! ## Widths -/

section Widths

/-- The increments of the loops of `schoolbook_negacyclic`. -/
def rawWrites (a b : Poly d) (q : ℕ) : List (Fin (2 * d) × ℤ) :=
  (List.finRange d).flatMap fun i : Fin d =>
    let ai := a i % q
    if ai = 0 then []
    else (List.finRange d).map fun j : Fin d =>
      (⟨i + j, add_lt_two_mul i j⟩, (ai : ℤ) * (b j % q : ℕ))

/-- The image of a basis vector has one coefficient. -/
theorem tauCoeffs_basis_eq_zero (hq : 0 < q) {g c : ℕ} (hg : Odd g) {j : Fin d}
    (hj : (j : ℕ) ≠ c * g % d) (hc : c < d) : tauCoeffs (basis d c) g q j = 0 := by
  have : NeZero d := ⟨by omega⟩
  have hbasis : Poly.ring q (basis d c) = x ^ c := ring_basis hc
  have hcoeff := congrArg (coeff · j) (ring_tauCoeffs hq hg (basis d c))
  simp only [Poly.coeff_ring, hbasis, map_pow, tau_x hg] at hcoeff
  rw [← pow_mul, mul_comm, coeff_x_pow, if_neg (Ne.symm hj)] at hcoeff
  have hdvd := (ZMod.natCast_eq_zero_iff _ _).mp hcoeff
  exact Nat.eq_zero_of_dvd_of_lt hdvd (accumulateMod_lt hq _ j)

theorem rawWrites_nonneg (a b : Poly d) (q : ℕ) : ∀ w ∈ rawWrites a b q, 0 ≤ w.2 := by
  intro w hw
  obtain ⟨i, -, hw⟩ := List.mem_flatMap.mp hw
  dsimp only at hw
  split at hw
  · cases hw
  · obtain ⟨j, -, rfl⟩ := List.mem_map.mp hw
    positivity

/-- What one row of the loops adds to a cell if the second factor has one coefficient. -/
theorem sum_rawRow_le (hq : 0 < q) (a : Poly d) {b : Poly d} {j0 : ℕ}
    (hb : ∀ j : Fin d, (j : ℕ) ≠ j0 → b j = 0) (n : Fin (2 * d)) (i : Fin d) :
    ((if a i % q = 0 then []
      else (List.finRange d).map fun j : Fin d =>
        ((⟨i + j, by omega⟩ : Fin (2 * d)), ((a i % q : ℕ) : ℤ) * (b j % q : ℕ))).map
          fun w => if w.1 = n then w.2 else 0).sum ≤
      if (i : ℕ) + j0 = n then (q : ℤ) ^ 2 else 0 := by
  have hterm (j : Fin d) : (if (⟨i + j, by omega⟩ : Fin (2 * d)) = n then
      ((a i % q : ℕ) : ℤ) * (b j % q : ℕ) else 0) ≤
        if (j : ℕ) = j0 then (if (i : ℕ) + j0 = n then (q : ℤ) ^ 2 else 0) else 0 := by
    by_cases hj : (j : ℕ) = j0
    · have hcell : ((⟨i + j, by omega⟩ : Fin (2 * d)) = n) ↔ (i : ℕ) + j0 = n := by
        subst hj
        exact Fin.ext_iff
      rw [if_pos hj]
      by_cases hn : (i : ℕ) + j0 = n
      · rw [if_pos (hcell.mpr hn), if_pos hn, pow_two]
        have ha : ((a i % q : ℕ) : ℤ) ≤ q := by exact_mod_cast (Nat.mod_lt _ hq).le
        have hbj : ((b j % q : ℕ) : ℤ) ≤ q := by exact_mod_cast (Nat.mod_lt _ hq).le
        exact mul_le_mul ha hbj (by positivity) (by positivity)
      · rw [if_neg fun h => hn (hcell.mp h), if_neg hn]
    · rw [if_neg hj, hb j hj, Nat.zero_mod, Nat.cast_zero, mul_zero, ite_self]
  have hbound : 0 ≤ if (i : ℕ) + j0 = n then (q : ℤ) ^ 2 else 0 := by
    split
    · positivity
    · exact le_rfl
  split
  · exact hbound
  · rw [List.map_map, ← List.ofFn_eq_map, List.sum_ofFn]
    refine (Finset.sum_le_sum fun j _ => hterm j).trans ?_
    by_cases hj0 : j0 < d
    · rw [Finset.sum_eq_single (⟨j0, hj0⟩ : Fin d)
        (fun j _ hj => if_neg fun h => hj (Fin.ext h)) (by simp), if_pos rfl]
    · rw [Finset.sum_eq_zero fun j _ => if_neg (by omega)]
      exact hbound

/-- **The sums of the schoolbook product fit.**  Where the compilers call it, on the image of a
basis vector, every cell is between zero and `q ^ 2` after every step of the loops, and so within a
signed word of 128 bits for `q ≤ 2 ^ 62`. -/
theorem schoolbook_fits (hq : 0 < q) (t : Poly d) {g c : ℕ} (hg : Odd g) (hc : c < d)
    {done : List (Fin (2 * d) × ℤ)} (hdone : done <+: rawWrites t (tauCoeffs (basis d c) g q) q)
    (n : Fin (2 * d)) :
    0 ≤ scatter (· + ·) (fun _ => 0) done n ∧
      scatter (· + ·) (fun _ => 0) done n ≤ (q : ℤ) ^ 2 := by
  have hcell (ws : List (Fin (2 * d) × ℤ)) : scatter (· + ·) (fun _ => 0) ws n =
      (ws.map fun w => if w.1 = n then w.2 else 0).sum := by
    have hmap := map_scatter (· + ·) (fun z : ℤ => z) (fun z : ℤ => z) (fun _ => 0) ws
      (fun _ _ _ => rfl) n
    simpa using hmap
  have hnonneg : ∀ z ∈ (rawWrites t (tauCoeffs (basis d c) g q) q).map
      fun w => if w.1 = n then w.2 else 0, 0 ≤ z := by
    intro z hz
    obtain ⟨w, hw, rfl⟩ := List.mem_map.mp hz
    split
    · exact rawWrites_nonneg _ _ _ w hw
    · exact le_rfl
  have hsub := hdone.sublist.map fun w : Fin (2 * d) × ℤ => if w.1 = n then w.2 else 0
  rw [hcell]
  refine ⟨List.sum_nonneg fun z hz => hnonneg z (hsub.subset hz), ?_⟩
  refine (hsub.sum_le_sum hnonneg).trans ?_
  rw [rawWrites, List.map_flatMap, List.flatMap_def, List.sum_flatten, List.map_map,
    ← List.ofFn_eq_map, List.sum_ofFn]
  refine (Finset.sum_le_sum fun i _ => sum_rawRow_le hq t
    (fun j hj => tauCoeffs_basis_eq_zero hq hg hj hc) n i).trans ?_
  by_cases hrow : ∃ i : Fin d, (i : ℕ) + c * g % d = n
  · obtain ⟨i, hi⟩ := hrow
    rw [Finset.sum_eq_single i (fun i' _ hi' => if_neg fun h => hi' (Fin.ext (by omega)))
      (by simp), if_pos hi]
  · rw [Finset.sum_eq_zero fun i _ => if_neg fun h => hrow ⟨i, h⟩]
    positivity

end Widths

/-! ## Agreement -/

/-- **All compilers agree.**  On every nonempty list of terms with odd exponents and reduced
coefficients the three compilers return one matrix, its product with the coefficients of a
polynomial `y` is `∑ t · τ_g(y)`, and the sums of the schoolbook product never leave a signed word
of 128 bits. -/
theorem compilers_agree (hpow : IsPowerOfTwo d) (htwo : 2 ≤ d) (hdeg : d ≤ 4096) (hq : 2 ≤ q)
    (hle : q ≤ 2 ^ 62) {ts : List (Poly d)} {exponents : List ℕ} (hne : ts ≠ [])
    (hlen : ts.length = exponents.length) (hts : ∀ t ∈ ts, ∀ i, t i < q)
    (hexps : ∀ g ∈ exponents, Odd g ∧ g < 2 * d) :
    ∃ fast fused naive, compileFast ts exponents q = .ok fast ∧
      compileNaiveFused ts exponents q = .ok fused ∧ compileNaive ts exponents q = .ok naive ∧
      (∀ M ∈ [fast, fused, naive], M.rows = d ∧ M.cols = d ∧ M.q = q ∧ ∀ r < d, ∀ c < d,
        M.entry r c < q ∧ M.entry r c = fast.entry r c) ∧
      (∀ y : Poly d, (ofCoeffs fun r : Fin d =>
          ∑ c : Fin d, (fast.entry r c : ZMod q) * (y c : ZMod q)) =
        ((ts.zip exponents).map fun t => Poly.ring q t.1 * tau t.2 (Poly.ring q y)).sum) ∧
      ∀ t ∈ ts.zip exponents, ∀ c < d,
        ∀ done, done <+: rawWrites t.1 (tauCoeffs (basis d c) t.2 q) q → ∀ n,
          0 ≤ scatter (· + ·) (fun _ => 0) done n ∧
            scatter (· + ·) (fun _ => 0) done n < 2 ^ 127 := by
  have hpos : 0 < q := by omega
  have hodd : ∀ g ∈ exponents, Odd g := fun g hg => (hexps g hg).1
  have hnonempty : ¬ts.isEmpty := by simp [hne]
  obtain ⟨fast, hfast⟩ := compileFast_ok hne hlen hq hle htwo hdeg hpow hts hexps
  obtain ⟨fused, hfused⟩ := compileNaiveFused_ok (q := q) hne hlen
  have hnaive : ∃ naive, compileNaive ts exponents q = .ok naive :=
    ⟨_, by rw [compileNaive, if_neg (not_not.mpr hlen), if_neg hnonempty]⟩
  obtain ⟨naive, hnaive⟩ := hnaive
  have hcompiled := compileFast_isCompiled hfast
  refine ⟨fast, fused, naive, hfast, hfused, hnaive, ?_, ?_, fun t ht c hc done hdone n => ?_⟩
  · have hall : ∀ M ∈ [fast, fused, naive], IsCompiled d q M (ts.zip exponents) := by
      intro M hM
      simp only [List.mem_cons, List.not_mem_nil, or_false] at hM
      rcases hM with rfl | rfl | rfl
      · exact hcompiled
      · exact compileNaiveFused_isCompiled hpos hodd hfused
      · exact compileNaive_isCompiled hpos hodd hnaive
    intro M hM
    have hM := hall M hM
    exact ⟨hM.rows, hM.cols, hM.modulus, fun r hr c hc =>
      ⟨hM.entry_lt r c, hM.entry_eq hcompiled hr hc⟩⟩
  · intro y
    rw [← hcompiled.action (fun t ht => hodd _ (List.of_mem_zip ht).2) y]
    simp only [Poly.ring, ← map_smul, ← map_sum]
    congr 1
    funext r
    simp [PackingMatrix.column, mul_comm]
  · obtain ⟨hnonneg, hbound⟩ :=
      schoolbook_fits hpos t.1 (hodd _ (List.of_mem_zip ht).2) hc hdone n
    have hwide : (q : ℤ) ≤ 2 ^ 62 := by exact_mod_cast hle
    refine ⟨hnonneg, hbound.trans_lt ?_⟩
    calc (q : ℤ) ^ 2 ≤ (2 ^ 62) ^ 2 := pow_le_pow_left₀ (Int.natCast_nonneg q) hwide 2
      _ < 2 ^ 127 := by norm_num

/-- Repeated and missing exponents at degree four. -/
theorem compilers_agree_four : ∃ fast fused naive,
    compileFast [(fun i => i : Poly 4), fun i => 16 - i, fun _ => 1] [3, 3, 7] 17 = .ok fast ∧
      compileNaiveFused [(fun i => i : Poly 4), fun i => 16 - i, fun _ => 1] [3, 3, 7] 17 =
        .ok fused ∧
      compileNaive [(fun i => i : Poly 4), fun i => 16 - i, fun _ => 1] [3, 3, 7] 17 =
        .ok naive := by
  have hne : [(fun i => i : Poly 4), fun i => 16 - i, fun _ => 1] ≠ [] := by simp
  have hlen : [(fun i => i : Poly 4), fun i => 16 - i, fun _ => 1].length = [3, 3, 7].length := rfl
  obtain ⟨fast, fused, naive, hfast, hfused, hnaive, -⟩ :=
    compilers_agree (d := 4) (q := 17) (by decide) (by decide) (by decide) (by decide) (by decide)
      hne hlen (by decide) (by decide)
  exact ⟨fast, fused, naive, hfast, hfused, hnaive⟩

end Reinspiring
