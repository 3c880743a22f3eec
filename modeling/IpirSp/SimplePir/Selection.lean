import IpirSp.Inspiring.Lwe
import IpirSp.MachineWord.Wrapping
import IpirSp.SimplePir.Ingest

/-!
# The selection query

The first-dimension query has one LWE body a database row: the scaled selector of the target row
plus an error minus an inner product with the secret.  The inner products of the `d` rows of a block
are the coefficients of `a(X⁻¹) · s`, so one transform-domain product gives them all.

`Selectable.exists_query` reads every body of a query from what its additions have stored.  They
store the errors (`adds_of_fit`) unless the scaled selector and the error of the target row leave
the machine word, which takes a modulus above `2^63`: a release build then stores another error
(`adds_of_wrap`), and a checked one panics.
-/

namespace SimplePir

open Negacyclic SpiralRs Inspiring Loops MachineWord

/-- `select_u64`. -/
def selectU64 (condition : Bool) (value other : ℕ) : ℕ :=
  let mask := wrappingSub 0 condition.toNat
  (value &&& mask) ||| (other &&& (W64 - 1 - mask))

/-- `add_mod` of the client. -/
def Client.addMod (o : Overflow) (lhs rhs modulus : ℕ) : Outcome ℕ :=
  match o.add 64 lhs rhs with
  | none => .error (.panic "attempt to add with overflow")
  | some sum =>
      let reduced := wrappingSub sum modulus
      let borrow := decide (sum < modulus)
      .ok (selectU64 borrow sum reduced)

/-- `sub_mod`. -/
def Client.subMod (lhs rhs modulus : ℕ) : ℕ :=
  let diff := wrappingSub lhs rhs
  let borrow := decide (lhs < rhs)
  wrappingAdd diff (modulus &&& wrappingSub 0 borrow.toNat)

section Client

variable (P : RlweParams)

/-- `polynomial_to_ntt` of the client. -/
def Client.polynomialToNtt (coeffs : List ℕ) : Outcome (Ntt P.d P.q) :=
  if coeffs.length ≠ P.d then .error (.panic "assertion `left == right` failed")
  else .ok (P.spiral.toNttAlloc fun i => coeffs.getD i 0 % P.q)

/-- `inverse_polynomial_to_ntt`. -/
def inversePolynomialToNtt (coeffs : List ℕ) : Outcome (Ntt P.d P.q) :=
  if coeffs.length ≠ P.d then .error (.panic "assertion `left == right` failed")
  else .ok (P.spiral.toNttAlloc fun i =>
    if (i : ℕ) = 0 then coeffs.getD 0 0 % P.q
    else
      let coeff := coeffs.getD (P.d - i) 0 % P.q
      if coeff = 0 then 0 else P.q - coeff)

/-- `query_inner_products_from_ntt`. -/
def queryInnerProductsFromNtt (queryPoly : List ℕ) (secretNtt : Ntt P.d P.q) :
    Outcome (List ℕ) := do
  let queryNtt ← inversePolynomialToNtt P queryPoly
  let product := P.spiral.multiply (fun _ : Fin 1 => queryNtt) fun _ => secretNtt
  .ok (List.ofFn fun i => P.spiral.fromNttAlloc product i % P.q)

/-- `encrypted_selection_query`, on the draws of the error sampler: `errors row` is the one for
`row`, in the order of the loop. -/
def encryptedSelectionQuery (o : Overflow) (offlineQuery : List (List ℕ)) (secret : List ℕ)
    (targetRow dbRows : ℕ) (errors : ℕ → ℕ) : Outcome (List ℕ) :=
  if dbRows % P.d ≠ 0 then .error (.panic "assertion `left == right` failed")
  else if offlineQuery.length ≠ dbRows / P.d then
    .error (.panic "assertion `left == right` failed")
  else if ¬targetRow < dbRows then
    .error (.panic s!"target_row {targetRow} is out of range for {dbRows} db rows")
  else do
    let secretNtt ← Client.polynomialToNtt P secret
    offlineQuery.zipIdx.foldlM (fun query (queryPoly, blockIdx) => do
      let innerProducts ← queryInnerProductsFromNtt P queryPoly secretNtt
      innerProducts.zipIdx.foldlM (fun query (inner, coeffIdx) => do
        let row := blockIdx * P.d + coeffIdx
        let encodedSelection := selectU64 (row == targetRow) P.delta 0
        let noised ← Client.addMod o encodedSelection (errors row) P.q
        writeSlice query row [Client.subMod noised inner P.q]) query) (List.replicate dbRows 0)

end Client

/-! ## Words -/

section Words

variable {q : ℕ}

theorem and_allOnes {v : ℕ} (hv : v < W64) : v &&& (W64 - 1) = v := by
  show v &&& (2 ^ 64 - 1) = v
  rw [Nat.and_two_pow_sub_one_eq_mod]
  exact Nat.mod_eq_of_lt hv

theorem selectU64_eq {value other : ℕ} (hvalue : value < W64) (hother : other < W64)
    (condition : Bool) : selectU64 condition value other = if condition then value else other := by
  cases condition with
  | false =>
      show (value &&& 0) ||| (other &&& (W64 - 1)) = other
      rw [Nat.and_zero, Nat.zero_or, and_allOnes hother]
  | true =>
      show (value &&& (W64 - 1)) ||| (other &&& 0) = value
      rw [Nat.and_zero, Nat.or_zero, and_allOnes hvalue]

/-- The conditional subtraction behind a sum of two residues. -/
theorem selectU64_reduced (hq : q < W64) {sum : ℕ} (hsum : sum < W64) (hlt : sum < 2 * q) :
    selectU64 (decide (sum < q)) sum (wrappingSub sum q) = sum % q := by
  have hreduced : wrappingSub sum q < W64 := Nat.mod_lt _ W64_pos
  rw [selectU64_eq hsum hreduced]
  by_cases h : sum < q
  · rw [if_pos (decide_eq_true h), Nat.mod_eq_of_lt h]
  · rw [if_neg (by simpa using h), wrappingSub, Nat.mod_eq_sub_mod (not_lt.mp h),
      Nat.mod_eq_of_lt (show sum - q < q by omega)]
    have hfit : sum + (W64 - q) = sum - q + W64 := by omega
    rw [hfit, Nat.add_mod_right, Nat.mod_eq_of_lt (by omega)]

/-- **A sum that fits a word** is the sum of the residues. -/
theorem addMod_eq (o : Overflow) (hq : q < W64) {lhs rhs : ℕ} (hlhs : lhs < q) (hrhs : rhs < q)
    (hfit : lhs + rhs < 2 ^ 64) : Client.addMod o lhs rhs q = .ok ((lhs + rhs) % q) := by
  rw [Client.addMod, o.add_ok hfit]
  exact congrArg Except.ok (selectU64_reduced hq hfit (by omega))

/-- A sum that does not fit is a word short in a release build. -/
theorem addMod_wraps (hq : q < W64) {lhs rhs : ℕ} (hlhs : lhs < q) (hrhs : rhs < q)
    (hlarge : 2 ^ 64 ≤ lhs + rhs) :
    Client.addMod .wraps lhs rhs q = .ok (lhs + rhs - 2 ^ 64) := by
  have hword : q < 2 ^ 64 := hq
  have hsum : (lhs + rhs) % 2 ^ 64 = lhs + rhs - 2 ^ 64 := by
    rw [Nat.mod_eq_sub_mod hlarge]
    exact Nat.mod_eq_of_lt (by omega)
  have hlt : lhs + rhs - 2 ^ 64 < q := by omega
  rw [Client.addMod, Overflow.add, Overflow.fit, hsum]
  have hsum' : lhs + rhs - 2 ^ 64 < W64 := hlt.trans hq
  refine congrArg Except.ok ((selectU64_reduced hq hsum' (by omega)).trans ?_)
  exact Nat.mod_eq_of_lt hlt

/-- In a checked build it is a panic. -/
theorem addMod_traps {lhs rhs : ℕ} (hlarge : 2 ^ 64 ≤ lhs + rhs) :
    Client.addMod .traps lhs rhs q = .error (.panic "attempt to add with overflow") := by
  rw [Client.addMod, Overflow.add, Overflow.fit, if_neg (not_lt.mpr hlarge)]

/-- **The difference of two residues.** -/
theorem subMod_spec (hq : q < W64) {lhs rhs : ℕ} (hlhs : lhs < q) (hrhs : rhs < q) :
    Client.subMod lhs rhs q < q ∧ (Client.subMod lhs rhs q : ZMod q) = (lhs : ZMod q) - rhs := by
  by_cases h : lhs < rhs
  · have hvalue : Client.subMod lhs rhs q = lhs + q - rhs := by
      have hmask : wrappingSub 0 (decide (lhs < rhs)).toNat = W64 - 1 := by
        rw [decide_eq_true h]
        rfl
      unfold Client.subMod
      dsimp only
      rw [hmask, and_allOnes hq, wrappingAdd, wrappingSub, Nat.mod_add_mod]
      have hfit : lhs + (W64 - rhs) + q = lhs + q - rhs + W64 := by omega
      rw [hfit, Nat.add_mod_right, Nat.mod_eq_of_lt (by omega)]
    rw [hvalue]
    refine ⟨by omega, ?_⟩
    rw [Nat.cast_sub (by omega), Nat.cast_add, ZMod.natCast_self, add_zero]
  · have hvalue : Client.subMod lhs rhs q = lhs - rhs := by
      have hmask : wrappingSub 0 (decide (lhs < rhs)).toNat = 0 := by
        rw [decide_eq_false h]
        rfl
      unfold Client.subMod
      dsimp only
      rw [hmask, Nat.and_zero, wrappingAdd, wrappingSub, add_zero, Nat.mod_mod]
      have hfit : lhs + (W64 - rhs) = lhs - rhs + W64 := by omega
      rw [hfit, Nat.add_mod_right, Nat.mod_eq_of_lt (by omega)]
    rw [hvalue]
    exact ⟨by omega, Nat.cast_sub (not_lt.mp h)⟩

end Words

/-! ## The inner products of a block -/

section InnerProducts

variable {P : RlweParams}

/-- The words of the inverse polynomial are those of an embedded mask. -/
theorem inversePolynomialToNtt_ok {coeffs : List ℕ} (hlen : coeffs.length = P.d) :
    inversePolynomialToNtt P coeffs =
      .ok (P.spiral.toNttAlloc (aTildeCoeffs P (vecGet coeffs))) := by
  rw [inversePolynomialToNtt, if_neg (not_not.mpr hlen)]
  refine congrArg (fun p => Except.ok (P.spiral.toNttAlloc p)) (funext fun i => ?_)
  have hzero : (i : ℕ) = 0 ↔ i = 0 := ⟨fun h => Fin.ext h, fun h => by rw [h]; rfl⟩
  rw [aTildeCoeffs, if_congr hzero rfl rfl]
  by_cases hi : i = 0
  · rw [if_pos hi, if_pos hi]
    rfl
  · have hneg : ((-i : Fin P.d) : ℕ) = P.d - i := by
      rw [Fin.val_neg, if_neg hi]
    rw [if_neg hi, if_neg hi]
    dsimp only
    rw [vecGet, hneg]

/-- **The inner products of a block** are the coefficients of `a(X⁻¹) · s`. -/
theorem queryInnerProductsFromNtt_ok {queryPoly : List ℕ} (hlen : queryPoly.length = P.d)
    (secretNtt : Ntt P.d P.q) :
    ∃ innerProducts, queryInnerProductsFromNtt P queryPoly secretNtt = .ok innerProducts ∧
      innerProducts.length = P.d ∧
      ∀ i : Fin P.d, innerProducts.getD i 0 < P.q ∧ (innerProducts.getD i 0 : ZMod P.q) =
        coeff (maskPoly (fun j => (vecGet queryPoly j : ZMod P.q)) * P.spiral.ring secretNtt)
          i := by
  rw [queryInnerProductsFromNtt, inversePolynomialToNtt_ok hlen, ok_bind]
  refine ⟨_, rfl, List.length_ofFn, fun i => ?_⟩
  have hi : (i : ℕ) < (List.ofFn fun j => P.spiral.fromNttAlloc (P.spiral.multiply
      (fun _ : Fin 1 => P.spiral.toNttAlloc (aTildeCoeffs P (vecGet queryPoly)))
      fun _ => secretNtt) j % P.q).length := by
    rw [List.length_ofFn]
    exact i.2
  rw [List.getD_eq_getElem _ _ hi, List.getElem_ofFn]
  refine ⟨Nat.mod_lt _ P.q_pos, ?_⟩
  have hring := P.spiral.ring_multiply
    (fun _ : Fin 1 => P.spiral.toNttAlloc (aTildeCoeffs P (vecGet queryPoly))) fun _ => secretNtt
  have hword (k : Fin P.d) : aTildeCoeffs P (vecGet queryPoly) k < 2 ^ 64 :=
    P.spiral.lt_word_of_le (aTildeCoeffs_lt _ k).le
  rw [Fin.sum_univ_one, P.spiral.ring_toNttAlloc hword, ring_aTildeCoeffs] at hring
  rw [ZMod.natCast_mod, ← hring, Params.ring, Poly.coeff_ring]

end InnerProducts

/-! ## The query -/

section Query

variable {P : RlweParams} {offlineQuery : List (List ℕ)} {secret : List ℕ} {targetRow dbRows : ℕ}
  {errors : ℕ → ℕ} {o : Overflow}

/-- The secret as a ring element. -/
noncomputable def secretRing (P : RlweParams) (secret : List ℕ) : NegRing P.d (ZMod P.q) :=
  Poly.ring P.q (vecGet secret)

theorem row_mod_lt (P : RlweParams) (row : ℕ) : row % P.d < P.d := Nat.mod_lt _ P.d_pos

/-- The residue of the body of a row: the scaled selector plus the error minus the inner product. -/
noncomputable def selectionBody (P : RlweParams) (offlineQuery : List (List ℕ)) (secret : List ℕ)
    (targetRow : ℕ) (errors : ℕ → ℕ) (row : ℕ) : ZMod P.q :=
  (if row = targetRow then (P.delta : ZMod P.q) else 0) + errors row -
    coeff (maskPoly (fun j => (vecGet (offlineQuery.getD (row / P.d) []) j : ZMod P.q)) *
      secretRing P secret) ⟨row % P.d, row_mod_lt P row⟩

/-- The first rows of a query are built. -/
structure Selects (P : RlweParams) (offlineQuery : List (List ℕ)) (secret : List ℕ)
    (targetRow : ℕ) (errors : ℕ → ℕ) (dbRows count : ℕ) (query : List ℕ) : Prop where
  length : query.length = dbRows
  lt : ∀ row < count, query.getD row 0 < P.q
  cast : ∀ row < count,
    (query.getD row 0 : ZMod P.q) = selectionBody P offlineQuery secret targetRow errors row

theorem polynomialToNtt_ok (hlen : secret.length = P.d) :
    ∃ secretNtt, Client.polynomialToNtt P secret = .ok secretNtt ∧
      P.spiral.ring secretNtt = secretRing P secret := by
  refine ⟨_, if_neg (not_not.mpr hlen), ?_⟩
  have hword (i : Fin P.d) : secret.getD i 0 % P.q < 2 ^ 64 :=
    P.spiral.lt_word_of_le (Nat.mod_lt _ P.q_pos).le
  rw [P.spiral.ring_toNttAlloc hword, Poly.ring_mod]
  rfl

/-- One row more. -/
theorem Selects.row {count : ℕ} {query : List ℕ}
    (h : Selects P offlineQuery secret targetRow errors dbRows count query)
    (hcount : count < dbRows) {word : ℕ} (hlt : word < P.q)
    (hcast : (word : ZMod P.q) = selectionBody P offlineQuery secret targetRow errors count) :
    ∃ out, (writeSlice query count [word] : Outcome (List ℕ)) = .ok out ∧
      Selects P offlineQuery secret targetRow errors dbRows (count + 1) out := by
  have hfit : count + [word].length ≤ query.length := by
    rw [List.length_singleton, h.length]
    exact hcount
  have hget (row : ℕ) (hrow : row < count + 1) : (splice query count [word]).getD row 0 =
      if row = count then word else query.getD row 0 := by
    rw [getD_splice hfit, List.length_singleton]
    by_cases hthis : row = count
    · rw [if_pos hthis, if_pos (by omega), hthis, Nat.sub_self]
      rfl
    · rw [if_neg hthis, if_neg (by omega)]
  refine ⟨_, writeSlice_ok hfit, (length_splice hfit).trans h.length, fun row hrow => ?_,
    fun row hrow => ?_⟩
  · rw [hget row hrow]
    split
    · exact hlt
    · exact h.lt row (by omega)
  · rw [hget row hrow]
    split
    · rename_i hthis
      rw [hthis, hcast]
    · exact h.cast row (by omega)

/-- The body of one row. -/
theorem subMod_selection {row noised inner : ℕ}
    (hnoised : noised = (selectU64 (row == targetRow) P.delta 0 + errors row) % P.q)
    (hinner : inner < P.q)
    (hcast : (inner : ZMod P.q) =
      coeff (maskPoly (fun j => (vecGet (offlineQuery.getD (row / P.d) []) j : ZMod P.q)) *
        secretRing P secret) ⟨row % P.d, Nat.mod_lt _ P.d_pos⟩) :
    Client.subMod noised inner P.q < P.q ∧
      (Client.subMod noised inner P.q : ZMod P.q) =
        selectionBody P offlineQuery secret targetRow errors row := by
  have hlt : noised < P.q := by
    rw [hnoised]
    exact Nat.mod_lt _ P.q_pos
  have hdelta : P.delta < W64 := by
    have hle : P.delta ≤ P.q := by
      rw [P.delta_eq]
      exact Nat.div_le_self _ _
    exact P.spiral.lt_word_of_le hle
  obtain ⟨hsub, hvalue⟩ := subMod_spec P.spiral.modulus_lt hlt hinner
  refine ⟨hsub, ?_⟩
  rw [hvalue, hcast, hnoised, ZMod.natCast_mod, selectU64_eq hdelta W64_pos, selectionBody]
  congr 1
  by_cases hrow : row = targetRow <;> simp [hrow]

/-- The checks and the shapes of a query. -/
structure Selectable (P : RlweParams) (offlineQuery : List (List ℕ)) (secret : List ℕ)
    (targetRow dbRows : ℕ) : Prop where
  rows_mod : dbRows % P.d = 0
  polys_length : offlineQuery.length = dbRows / P.d
  poly_length : ∀ query ∈ offlineQuery, query.length = P.d
  secret_length : secret.length = P.d
  target_lt : targetRow < dbRows

theorem Selectable.length_mul (h : Selectable P offlineQuery secret targetRow dbRows) :
    offlineQuery.length * P.d = dbRows := by
  rw [h.polys_length]
  exact Nat.div_mul_cancel (Nat.dvd_of_mod_eq_zero h.rows_mod)

/-- A row of a block. -/
theorem Selectable.row_lt (h : Selectable P offlineQuery secret targetRow dbRows) {blockIdx : ℕ}
    (hblock : blockIdx < offlineQuery.length) (i : Fin P.d) : blockIdx * P.d + i < dbRows := by
  have hmul : (blockIdx + 1) * P.d ≤ offlineQuery.length * P.d := Nat.mul_le_mul_right _ hblock
  rw [h.length_mul, Nat.add_mul, one_mul] at hmul
  have hi := i.2
  omega

/-- The query as the run of its loops. -/
theorem encryptedSelectionQuery_eq (h : Selectable P offlineQuery secret targetRow dbRows)
    {secretNtt : Ntt P.d P.q} (hsecret : Client.polynomialToNtt P secret = .ok secretNtt) :
    encryptedSelectionQuery P o offlineQuery secret targetRow dbRows errors =
      offlineQuery.zipIdx.foldlM (fun query (queryPoly, blockIdx) => do
        let innerProducts ← queryInnerProductsFromNtt P queryPoly secretNtt
        innerProducts.zipIdx.foldlM (fun query (inner, coeffIdx) => do
          let noised ← Client.addMod o
            (selectU64 (blockIdx * P.d + coeffIdx == targetRow) P.delta 0)
            (errors (blockIdx * P.d + coeffIdx)) P.q
          writeSlice query (blockIdx * P.d + coeffIdx) [Client.subMod noised inner P.q]) query)
        (List.replicate dbRows 0) := by
  rw [encryptedSelectionQuery, if_neg (not_not.mpr h.rows_mod),
    if_neg (not_not.mpr h.polys_length), if_neg (not_not.mpr h.target_lt), hsecret]
  rfl

/-- The inner products of a block, by the rows of the block. -/
theorem Selectable.innerProducts (h : Selectable P offlineQuery secret targetRow dbRows)
    {secretNtt : Ntt P.d P.q} (hring : P.spiral.ring secretNtt = secretRing P secret)
    {queryPoly : List ℕ} {blockIdx : ℕ} (hget : offlineQuery[blockIdx]? = some queryPoly) :
    ∃ innerProducts, queryInnerProductsFromNtt P queryPoly secretNtt = .ok innerProducts ∧
      innerProducts.length = P.d ∧ ∀ i inner, innerProducts[i]? = some inner → inner < P.q ∧
        (inner : ZMod P.q) =
          coeff (maskPoly (fun j => (vecGet (offlineQuery.getD ((blockIdx * P.d + i) / P.d) []) j :
            ZMod P.q)) * secretRing P secret)
            ⟨(blockIdx * P.d + i) % P.d, Nat.mod_lt _ P.d_pos⟩ := by
  obtain ⟨innerProducts, hrun, hlen, hvalue⟩ :=
    queryInnerProductsFromNtt_ok (h.poly_length _ (List.mem_of_getElem? hget)) secretNtt
  refine ⟨innerProducts, hrun, hlen, fun i inner hinner => ?_⟩
  have hi : i < P.d := by
    rw [← hlen]
    exact (List.getElem?_eq_some_iff.mp hinner).1
  have hword : innerProducts.getD i 0 = inner := by
    rw [List.getD_eq_getElem?_getD, hinner]
    rfl
  have hquot : (blockIdx * P.d + i) / P.d = blockIdx := by
    rw [Nat.add_comm, Nat.add_mul_div_right _ _ P.d_pos, Nat.div_eq_of_lt hi, zero_add]
  have hrem : (⟨(blockIdx * P.d + i) % P.d, Nat.mod_lt _ P.d_pos⟩ : Fin P.d) = ⟨i, hi⟩ :=
    Fin.ext (Nat.mul_add_mod_of_lt hi)
  have hpoly : offlineQuery.getD blockIdx [] = queryPoly := by
    rw [List.getD_eq_getElem?_getD, hget]
    rfl
  have hentry := hvalue ⟨i, hi⟩
  rw [hword, hring] at hentry
  rw [hquot, hpoly, hrem]
  exact hentry

/-- **One turn of the inner loop**, with the error that its addition has stored. -/
theorem Selectable.turn (h : Selectable P offlineQuery secret targetRow dbRows)
    {blockIdx i inner noised : ℕ} (hblock : blockIdx < offlineQuery.length) (hi : i < P.d)
    (hinner : inner < P.q ∧ (inner : ZMod P.q) =
      coeff (maskPoly (fun j => (vecGet (offlineQuery.getD ((blockIdx * P.d + i) / P.d) []) j :
        ZMod P.q)) * secretRing P secret) ⟨(blockIdx * P.d + i) % P.d, Nat.mod_lt _ P.d_pos⟩)
    {acc : List ℕ} (hacc : Selects P offlineQuery secret targetRow errors dbRows
      (blockIdx * P.d + i) acc)
    (hnoised : noised = (selectU64 (blockIdx * P.d + i == targetRow) P.delta 0 +
      errors (blockIdx * P.d + i)) % P.q) :
    ∃ next, (writeSlice acc (blockIdx * P.d + i) [Client.subMod noised inner P.q] :
        Outcome (List ℕ)) = .ok next ∧
      Selects P offlineQuery secret targetRow errors dbRows (blockIdx * P.d + (i + 1)) next := by
  obtain ⟨hbody, hcast⟩ := subMod_selection hnoised hinner.1 hinner.2
  exact hacc.row (h.row_lt hblock ⟨i, hi⟩) hbody hcast

theorem selects_zero :
    Selects P offlineQuery secret targetRow errors dbRows (0 * P.d) (List.replicate dbRows 0) := by
  rw [zero_mul]
  exact ⟨List.length_replicate, fun row hrow => absurd hrow (Nat.not_lt_zero _),
    fun row hrow => absurd hrow (Nat.not_lt_zero _)⟩

/-- The additions of a query return, and what a row holds is its selector plus the error in
`stored`. -/
def Adds (P : RlweParams) (o : Overflow) (targetRow dbRows : ℕ) (errors stored : ℕ → ℕ) : Prop :=
  ∀ row < dbRows, Client.addMod o (selectU64 (row == targetRow) P.delta 0) (errors row) P.q =
    .ok ((selectU64 (row == targetRow) P.delta 0 + stored row) % P.q)

/-- **A query is built** when its additions return, and holds the errors that they store. -/
theorem Selectable.exists_query (h : Selectable P offlineQuery secret targetRow dbRows)
    {stored : ℕ → ℕ} (hadds : Adds P o targetRow dbRows errors stored) :
    ∃ query, encryptedSelectionQuery P o offlineQuery secret targetRow dbRows errors = .ok query ∧
      Selects P offlineQuery secret targetRow stored dbRows dbRows query := by
  obtain ⟨secretNtt, hsecret, hring⟩ := polynomialToNtt_ok (P := P) h.secret_length
  rw [encryptedSelectionQuery_eq h hsecret]
  have hall (query : List ℕ) (hselects : Selects P offlineQuery secret targetRow stored dbRows
      (offlineQuery.length * P.d) query) :
      Selects P offlineQuery secret targetRow stored dbRows dbRows query := by
    rwa [h.length_mul] at hselects
  refine (foldlM_zipIdx (fun blockIdx query => Selects P offlineQuery secret targetRow stored
    dbRows (blockIdx * P.d) query) selects_zero fun blockIdx queryPoly hget acc hacc => ?_).imp
      fun query hquery => ⟨hquery.1, hall query hquery.2⟩
  have hblockLt := (List.getElem?_eq_some_iff.mp hget).1
  obtain ⟨innerProducts, hproducts, hlen, hvalue⟩ := h.innerProducts hring hget
  dsimp only
  rw [hproducts, ok_bind]
  have hnext : (blockIdx + 1) * P.d = blockIdx * P.d + innerProducts.length := by
    rw [hlen, Nat.succ_mul]
  rw [hnext]
  refine foldlM_zipIdx (fun i query => Selects P offlineQuery secret targetRow stored dbRows
    (blockIdx * P.d + i) query) hacc fun i inner hinner acc hacc => ?_
  have hi : i < P.d := by
    rw [← hlen]
    exact (List.getElem?_eq_some_iff.mp hinner).1
  dsimp only
  rw [hadds _ (h.row_lt hblockLt ⟨i, hi⟩), ok_bind]
  exact h.turn hblockLt hi (hvalue i inner hinner) hacc rfl

/-- **A query that has been built** has had every addition return. -/
theorem Selectable.addMod_ok (h : Selectable P offlineQuery secret targetRow dbRows)
    {query : List ℕ}
    (hrun : encryptedSelectionQuery P o offlineQuery secret targetRow dbRows errors = .ok query)
    {row : ℕ} (hrow : row < dbRows) :
    ∃ noised, Client.addMod o (selectU64 (row == targetRow) P.delta 0) (errors row) P.q =
      .ok noised := by
  obtain ⟨secretNtt, hsecret, hring⟩ := polynomialToNtt_ok (P := P) h.secret_length
  rw [encryptedSelectionQuery_eq h hsecret] at hrun
  let Returned (count : ℕ) (_ : List ℕ) : Prop := ∀ row < count, ∃ noised,
    Client.addMod o (selectU64 (row == targetRow) P.delta 0) (errors row) P.q = .ok noised
  have hall := foldlM_zipIdx_of_ok (fun blockIdx => Returned (blockIdx * P.d)) ?_ ?_ hrun
  · exact hall row (by rwa [h.length_mul])
  · exact fun row hrow => absurd hrow (by omega)
  intro blockIdx queryPoly hget acc next hacc hblock
  obtain ⟨innerProducts, hproducts, hlen, -⟩ := h.innerProducts hring hget
  dsimp only at hblock
  rw [hproducts, ok_bind] at hblock
  have hdone := foldlM_zipIdx_of_ok (fun i => Returned (blockIdx * P.d + i)) hacc ?_ hblock
  · rwa [hlen, ← Nat.succ_mul] at hdone
  intro i inner _ acc next hacc hturn row hrow
  obtain ⟨noised, hnoised, -⟩ := bind_eq_ok hturn
  rcases Nat.lt_succ_iff_lt_or_eq.mp hrow with hlt | rfl
  · exact hacc row hlt
  · exact ⟨noised, hnoised⟩

/-! ## Sums that fit and sums that do not -/

theorem delta_lt (P : RlweParams) : P.delta < P.q := by
  rw [P.delta_eq]
  exact Nat.div_lt_self P.q_pos P.two_le_p

theorem selectU64_target (P : RlweParams) (targetRow : ℕ) :
    selectU64 (targetRow == targetRow) P.delta 0 = P.delta := by
  rw [selectU64_eq (P.spiral.lt_word_of_le (delta_lt P).le) W64_pos, beq_self_eq_true,
    if_pos rfl]

theorem selectU64_other (P : RlweParams) {row : ℕ} (hrow : row ≠ targetRow) :
    selectU64 (row == targetRow) P.delta 0 = 0 := by
  rw [selectU64_eq (P.spiral.lt_word_of_le (delta_lt P).le) W64_pos, beq_eq_false_iff_ne.mpr hrow,
    if_neg Bool.false_ne_true]

/-- Away from the target row nothing is added to the error. -/
theorem addMod_other (o : Overflow) {row : ℕ} (hrow : row ≠ targetRow) (herror : errors row < P.q) :
    Client.addMod o (selectU64 (row == targetRow) P.delta 0) (errors row) P.q =
      .ok ((selectU64 (row == targetRow) P.delta 0 + errors row) % P.q) := by
  have hword := P.spiral.modulus_lt
  rw [selectU64_other P hrow]
  exact addMod_eq o hword P.q_pos herror (by omega)

/-- The additions store the errors when the scaled selector plus its error fits a word. -/
theorem adds_of_fit (o : Overflow) (herrors : ∀ row < dbRows, errors row < P.q)
    (hfit : P.delta + errors targetRow < 2 ^ 64) : Adds P o targetRow dbRows errors errors := by
  intro row hrow
  rcases eq_or_ne row targetRow with rfl | hne
  · rw [selectU64_target]
    exact addMod_eq o P.spiral.modulus_lt (delta_lt P) (herrors _ hrow) hfit
  · exact addMod_other o hne (herrors row hrow)

/-- The errors that a release build stores when it does not: the one of the target row is a word
less, modulo `q`. -/
def wrappedErrors (P : RlweParams) (targetRow : ℕ) (errors : ℕ → ℕ) : ℕ → ℕ :=
  Function.update errors targetRow (errors targetRow + 2 ^ 64 * (P.q - 1))

theorem adds_of_wrap (herrors : ∀ row < dbRows, errors row < P.q)
    (hlarge : 2 ^ 64 ≤ P.delta + errors targetRow) :
    Adds P .wraps targetRow dbRows errors (wrappedErrors P targetRow errors) := by
  intro row hrow
  rcases eq_or_ne row targetRow with rfl | hne
  · have hlt := herrors _ hrow
    have hdelta := delta_lt P
    have hword := P.spiral.modulus_lt
    rw [selectU64_target, addMod_wraps hword hdelta hlt hlarge, wrappedErrors,
      Function.update_self]
    have hsum : P.delta + (errors row + 2 ^ 64 * (P.q - 1)) =
        P.delta + errors row - 2 ^ 64 + 2 ^ 64 * P.q := by
      rw [Nat.mul_sub_one]
      have hq := P.q_pos
      have hle : 2 ^ 64 ≤ 2 ^ 64 * P.q := Nat.le_mul_of_pos_right _ hq
      omega
    rw [hsum, Nat.add_mul_mod_self_right, Nat.mod_eq_of_lt (by omega)]
  · rw [wrappedErrors, Function.update_of_ne hne]
    exact addMod_other .wraps hne (herrors row hrow)

/-- **A query is built** where two residues always fit a word, with its errors as they are. -/
theorem exists_encryptedSelectionQuery (h : Selectable P offlineQuery secret targetRow dbRows)
    (o : Overflow) (hq : P.q ≤ 2 ^ 63) (herrors : ∀ row < dbRows, errors row < P.q) :
    ∃ query, encryptedSelectionQuery P o offlineQuery secret targetRow dbRows errors = .ok query ∧
      Selects P offlineQuery secret targetRow errors dbRows dbRows query := by
  have hdelta := delta_lt P
  have herror := herrors targetRow h.target_lt
  exact h.exists_query (adds_of_fit o herrors (by omega))

end Query

end SimplePir
