import IpirSp.MachineWord.Vector
import IpirSp.SimplePir.Hint
import IpirSp.SimplePir.Selection
import IpirSp.SimplePirKernel.Chunked
import Mathlib.Data.Bool.AllAny

/-!
# The first dimension

The server multiplies its database by the selection query and returns one LWE body a column.  The
mask of a column is a row of a CRS block, which the server has computed offline from the query masks
in the transform domain, while the client has used the inner products of the rotated masks.
`selection_identity_iff` is when the two belong together: body and mask of every column decrypt to
the scaled entry of the target row plus the errors of the query times the column, unless the
client's addition of the error to the scaled selector has left the machine word.
-/

namespace Inspiring

/-- The display of an error. -/
def InspiringError.display : InspiringError → String
  | .invalidParams msg => s!"invalid parameter set: {msg}"
  | .lweShape msg => s!"LWE shape mismatch: {msg}"
  | .preprocessMismatch msg => s!"preprocessing/parameter mismatch: {msg}"

end Inspiring

namespace SimplePir

open Negacyclic SpiralRs Inspiring Loops MachineWord SimplePirKernel

/-- `FirstDimKernel::try_multiply_query`: a kernel on a database of some shape, a query and an
element maximum, with what the output buffer holds. -/
abbrev TryMultiplyQuery (T K : Type) :=
  K → RlweParams → List T → ℕ → ℕ → List UInt64 → ℕ → List ℕ → SimplePirKernel.Result (List ℕ)

/-- `try_multiply_query` of the server. -/
def YServer.tryMultiplyQuery {T K : Type} (kernel : TryMultiplyQuery T K)
    (validateProfileParts : RlweParams → DatabaseShape → SimplePirProfile → Outcome Unit)
    (server : YServer T K) (P : RlweParams) (query : List UInt64) :
    SimplePirKernel.Result (List ℕ) :=
  match server.validateBoundRlwe validateProfileParts P with
  | .error (.err e) => .error (.err e.display)
  | .error (.panic msg) => .error (.panic msg)
  | .ok () =>
      let rows := server.dbRowsPadded
      let cols := server.params.dbCols
      if query.length ≠ rows then .error (.err "query length must match padded rows")
      else kernel server.kernel P server.db rows cols query server.elementMax
        (List.replicate cols 0)

/-- The kernel of a server that is built without another one. -/
def defaultKernel (T : Type) [ToU64 T] (o : Overflow) (threads : ℕ) :
    TryMultiplyQuery T ChunkedSplitKernel :=
  fun kernel P db rows cols query elementMax out =>
    kernel.multiplyQuery o threads P db rows cols query elementMax out

theorem dbRowsPadded_eq {T K : Type} (server : YServer T K) :
    server.dbRowsPadded = server.params.dbRows := ite_self server.params.dbRows

section Server

variable {T K : Type} [ToU64 T]

/-- The element maximum of a server covers its database. -/
structure YServer.Loaded (server : YServer T K) : Prop where
  le_elementMax : ∀ value ∈ server.db, ToU64.toU64 value ≤ server.elementMax
  elementMax_le : server.elementMax ≤ ToU64.maxValue T

/-- A stored database is covered by the largest element of its input. -/
theorem loaded_of_isColumnMajor [Zero T] {stored values : List T} {rows cols elementMax : ℕ}
    (hstored : IsColumnMajor stored (fun row col => values.getD (row * cols + col) 0)
      rows cols rows)
    (hlen : values.length = rows * cols) (hmax : IsLargest values elementMax)
    {profile : Option SimplePirProfile} {padRows : Bool} {kernel : K} :
    (⟨⟨rows, cols⟩, profile, stored, padRows, elementMax, kernel⟩ : YServer T K).Loaded := by
  refine ⟨fun value hvalue => ?_, ?_⟩
  · obtain ⟨k, hk, rfl⟩ := List.getElem_of_mem hvalue
    have hindex : k < cols * rows := by
      rw [mul_comm, ← hstored.length]
      exact hk
    have hrows : 0 < rows := Nat.pos_of_ne_zero fun hzero => by
      rw [hzero, mul_zero] at hindex
      exact absurd hindex (Nat.not_lt_zero k)
    have hcol : k / rows < cols := (Nat.div_lt_iff_lt_mul hrows).mpr hindex
    have hrow := Nat.mod_lt k hrows
    have hcell := hstored.getD _ hcol _ hrow
    have hlast : (k % rows + 1) * cols ≤ rows * cols := Nat.mul_le_mul_right cols hrow
    have hfit : k % rows * cols + k / rows < values.length := by
      rw [Nat.add_mul, one_mul] at hlast
      omega
    rw [Nat.div_add_mod', if_pos hrow, List.getD_eq_getElem _ _ hk,
      List.getD_eq_getElem _ _ hfit] at hcell
    rw [hcell]
    exact hmax.le _ (List.getElem_mem hfit)
  · show elementMax ≤ _
    rcases eq_or_ne values [] with hnil | hne
    · rw [hmax.empty hnil]
      exact Nat.zero_le _
    · obtain ⟨value, -, hvalue⟩ := hmax.attained hne
      rw [← hvalue]
      exact ToU64.toU64_le value

/-- **A server that has been loaded from an iterator** has a true element maximum. -/
theorem loaded_of_tryWithKernel [Zero T] {σ : Type}
    {next : σ → SimplePirKernel.Result (Option T × σ)} {rows cols : ℕ} {s t : σ} {values : List T}
    (hrun : Emits next s values t) (hlen : values.length = rows * cols)
    {tryReserveExact : ℕ → Except String Unit}
    {tryPrepare : K → List T → ℕ → ℕ → SimplePirKernel.Result K} {padRows : Bool} {kernel : K}
    {server : YServer T K} {rest : σ}
    (hbuild : tryWithKernel next tryReserveExact tryPrepare ⟨rows, cols⟩ s false padRows kernel =
      .ok (server, rest)) : server.Loaded := by
  obtain ⟨stored, hingest, hstored⟩ := ingestRowMajor_ok le_rfl hrun hlen
  have hpadded : (if padRows then DatabaseShape.dbRowsPaddedSimplepir ⟨rows, cols⟩ else rows) =
      rows := ite_self rows
  rw [tryWithKernel] at hbuild
  dsimp only at hbuild
  rw [hpadded] at hbuild
  split at hbuild
  · cases hbuild
  split at hbuild
  · cases hbuild
  rw [if_neg Bool.false_ne_true, hingest, ok_bind] at hbuild
  obtain ⟨prepared, -, hserver⟩ := bind_eq_ok hbuild
  obtain ⟨rfl, -⟩ := Prod.mk.inj (Except.ok.inj hserver)
  exact loaded_of_isColumnMajor hstored hlen (isLargest_maxFrom values)

variable {server : YServer T K} {P : RlweParams} {queryPolys : List (List ℕ)}
  {validateProfileParts : RlweParams → DatabaseShape → SimplePirProfile → Outcome Unit}

/-- The words of a query as they are uploaded. -/
def queryWords (query : List ℕ) : List UInt64 := query.map UInt64.ofNat

theorem queryAt_queryWords {query : List ℕ} {row : ℕ} (hlt : query.getD row 0 < 2 ^ 64) :
    queryAt (queryWords query) row = query.getD row 0 := by
  rw [queryAt, queryWords]
  rcases lt_or_ge row query.length with h | h
  · rw [List.getD_eq_getElem _ _ (by rwa [List.length_map]), List.getElem_map,
      List.getD_eq_getElem _ _ h, UInt64.toNat_ofNat']
    rw [List.getD_eq_getElem _ _ h] at hlt
    exact Nat.mod_eq_of_lt hlt
  · rw [List.getD_eq_default _ _ (by rwa [List.length_map]), List.getD_eq_default _ _ h]
    rfl

/-- **The default kernel returns the product.** -/
theorem tryMultiplyQuery_ok {server : YServer T ChunkedSplitKernel}
    (h : Admitted validateProfileParts server P queryPolys) (hloaded : server.Loaded)
    {query : List UInt64} (hlen : query.length = server.params.dbRows) (o : Overflow)
    (threads : ℕ) :
    server.tryMultiplyQuery (defaultKernel T o threads) validateProfileParts P query =
      .ok (product P.q server.db server.params.dbRows server.params.dbCols query) := by
  rw [YServer.tryMultiplyQuery, h.bound]
  dsimp only
  rw [dbRowsPadded_eq, if_neg (not_not.mpr hlen)]
  exact chunked_spec server.kernel o threads P ⟨server.db, server.params.dbRows,
    server.params.dbCols, query, server.elementMax, List.replicate server.params.dbCols 0, hlen,
    h.db_length, List.length_replicate, hloaded.le_elementMax, hloaded.elementMax_le⟩

end Server

/-! ## Bodies and masks -/

section Identity

variable {T K : Type} [ToU64 T] {server : YServer T K} {P : RlweParams}
  {queryPolys : List (List ℕ)} {secret : List ℕ} {targetRow : ℕ} {errors : ℕ → ℕ}
  {validateProfileParts : RlweParams → DatabaseShape → SimplePirProfile → Outcome Unit}

/-- The inner products of a block against a column. -/
theorem sum_block (server : YServer T K) (P : RlweParams) (poly : List ℕ)
    (s : NegRing P.d (ZMod P.q)) (col blockIdx : ℕ) :
    ∑ i : Fin P.d, coeff (maskPoly (fun j => (vecGet poly j : ZMod P.q)) * s) i *
        (dbAt server.db (col * server.dbRowsPadded + (blockIdx * P.d + i)) : ZMod P.q) =
      ∑ j : Fin P.d, coeff (Poly.ring P.q (vecGet poly) * columnBlock server P col blockIdx) j *
        coeff s j := by
  rw [Poly.ring, columnBlock, ← sum_mul_coeff_maskPoly_mul]
  exact Finset.sum_congr rfl fun i _ => mul_comm _ _

/-- **The inner products of all rows against a column** are the product of the column with the
secret. -/
theorem sum_rows (server : YServer T K) (P : RlweParams) (queryPolys : List (List ℕ))
    (s : NegRing P.d (ZMod P.q)) (col : ℕ) :
    ∑ row ∈ Finset.range (queryPolys.length * P.d),
        coeff (maskPoly (fun j => (vecGet (queryPolys.getD (row / P.d) []) j : ZMod P.q)) * s)
          ⟨row % P.d, Nat.mod_lt _ P.d_pos⟩ *
        (dbAt server.db (col * server.dbRowsPadded + row) : ZMod P.q) =
      ∑ j : Fin P.d, coeff (columnProduct server P queryPolys col) j * coeff s j := by
  rw [← sum_range_blocks]
  have hblock (b : ℕ) : ∑ i ∈ Finset.range P.d,
      coeff (maskPoly (fun j => (vecGet (queryPolys.getD ((b * P.d + i) / P.d) []) j :
        ZMod P.q)) * s) ⟨(b * P.d + i) % P.d, Nat.mod_lt _ P.d_pos⟩ *
        (dbAt server.db (col * server.dbRowsPadded + (b * P.d + i)) : ZMod P.q) =
      ∑ j : Fin P.d, coeff (Poly.ring P.q (vecGet (queryPolys.getD b [])) *
        columnBlock server P col b) j * coeff s j := by
    rw [← sum_block, Finset.sum_range]
    refine Finset.sum_congr rfl fun i _ => ?_
    have hquot : (b * P.d + i) / P.d = b := by
      rw [Nat.add_comm, Nat.add_mul_div_right _ _ P.d_pos, Nat.div_eq_of_lt i.2, zero_add]
    have hrem : (⟨(b * P.d + i) % P.d, Nat.mod_lt _ P.d_pos⟩ : Fin P.d) = i :=
      Fin.ext (Nat.mul_add_mod_of_lt i.2)
    rw [hquot, hrem]
  rw [Finset.sum_congr rfl fun b _ => hblock b, Finset.sum_comm]
  refine Finset.sum_congr rfl fun j _ => ?_
  rw [columnProduct, coeff_sum, Finset.sum_mul]

/-- **The body of a column**: the scaled entry of the target row and the errors, less the product of
the column with the secret. -/
theorem cast_columnSum (hselect : Selectable P queryPolys secret targetRow server.params.dbRows)
    {query : List ℕ}
    (hquery : Selects P queryPolys secret targetRow errors server.params.dbRows
      server.params.dbRows query) (col : ℕ) :
    (columnSum server.db server.params.dbRows (queryWords query) col server.params.dbRows :
        ZMod P.q) =
      (P.delta : ZMod P.q) * dbAt server.db (col * server.params.dbRows + targetRow) +
        ∑ row ∈ Finset.range server.params.dbRows,
          (dbAt server.db (col * server.params.dbRows + row) : ZMod P.q) * errors row -
        ∑ j : Fin P.d, coeff (columnProduct server P queryPolys col) j *
          coeff (secretRing P secret) j := by
  have hterm (row : ℕ) (hrow : row ∈ Finset.range server.params.dbRows) :
      ((queryAt (queryWords query) row * dbAt server.db (col * server.params.dbRows + row) : ℕ) :
          ZMod P.q) =
        (if row = targetRow then (P.delta : ZMod P.q) *
          dbAt server.db (col * server.params.dbRows + row) else 0) +
        (dbAt server.db (col * server.params.dbRows + row) : ZMod P.q) * errors row -
        coeff (maskPoly (fun j => (vecGet (queryPolys.getD (row / P.d) []) j : ZMod P.q)) *
          secretRing P secret) ⟨row % P.d, Nat.mod_lt _ P.d_pos⟩ *
          dbAt server.db (col * server.params.dbRows + row) := by
    have hlt := Finset.mem_range.mp hrow
    rw [Nat.cast_mul, queryAt_queryWords (P.spiral.lt_word_of_le (hquery.lt row hlt).le),
      hquery.cast row hlt, selectionBody]
    split <;> ring
  rw [columnSum, Nat.cast_sum, Finset.sum_congr rfl hterm, Finset.sum_sub_distrib,
    Finset.sum_add_distrib, Finset.sum_ite_eq', if_pos (Finset.mem_range.mpr hselect.target_lt)]
  have hrows := sum_rows server P queryPolys (secretRing P secret) col
  rw [hselect.length_mul, dbRowsPadded_eq] at hrows
  rw [hrows]

/-- **The mask of a column** is a row of a block. -/
theorem exists_maskRow (h : Admitted validateProfileParts server P queryPolys)
    {columns : List (List ℕ)}
    (hcolumns : server.generateHintColumns validateProfileParts P queryPolys = .ok columns)
    (hdvd : server.params.dbCols % P.d = 0) {col : ℕ} (hcol : col < server.params.dbCols) :
    ∃ block mask, ((List.range (server.params.dbCols / P.d)).map fun block =>
        (⟨(columns.drop (block * P.d)).take P.d⟩ : CrsBlock))[col / P.d]? = some block ∧
      block.rows[col % P.d]? = some mask ∧ mask.length = P.d ∧
      ∀ j : Fin P.d, vecGet mask j < P.q ∧
        (vecGet mask j : ZMod P.q) = coeff (columnProduct server P queryPolys col) j := by
  rw [YServer.generateHintColumns, h.validateQueryPolys_ok, ok_bind] at hcolumns
  have hall := forall₂_of_mapM_eq_ok hcolumns
  have hlen : columns.length = server.params.dbCols := by
    rw [← hall.length_eq, List.length_range]
  have hcol' : col < columns.length := by rwa [hlen]
  have hcolumn := hall.get (by rwa [List.length_range]) hcol'
  obtain ⟨acc, hacc, hring⟩ := h.column_ring hcol
  rw [List.get_eq_getElem, List.get_eq_getElem, List.getElem_range] at hcolumn
  obtain hmask := Except.ok.inj (hacc.symm.trans hcolumn)
  have hblock : col / P.d < server.params.dbCols / P.d :=
    Nat.div_lt_div_of_lt_of_dvd (Nat.dvd_of_mod_eq_zero hdvd) hcol
  have hrow := Nat.mod_lt col P.d_pos
  refine ⟨⟨(columns.drop (col / P.d * P.d)).take P.d⟩, columns[col], ?_, ?_, ?_, fun j => ?_⟩
  · rw [List.getElem?_map, List.getElem?_range hblock]
    rfl
  · show ((columns.drop (col / P.d * P.d)).take P.d)[col % P.d]? = _
    rw [List.getElem?_take_of_lt hrow, List.getElem?_drop, Nat.div_add_mod',
      List.getElem?_eq_getElem hcol']
  · rw [← hmask, List.length_ofFn]
  · have hword : vecGet columns[col] j = P.spiral.fromNttAlloc acc j := by
      have hj : (j : ℕ) < (List.ofFn (P.spiral.fromNttAlloc acc)).length := by
        rw [List.length_ofFn]
        exact j.2
      rw [vecGet, ← hmask, List.getD_eq_getElem _ _ hj, List.getElem_ofFn]
    rw [hword, ← hring, Params.ring, Poly.coeff_ring]
    exact ⟨P.spiral.fromNttAlloc_lt acc j, rfl⟩

/-- The body and the mask of a column belong together: the body plus the inner product of the mask
with the secret is the scaled entry of the target row plus the errors times the column. -/
def Decrypts (server : YServer T K) (P : RlweParams) (secret : List ℕ) (targetRow : ℕ)
    (errors : ℕ → ℕ) (values : OfflinePrecomputedValues) (out : List ℕ) (col : ℕ) : Prop :=
  ∃ block mask, values.crsBlocks[col / P.d]? = some block ∧ block.rows[col % P.d]? = some mask ∧
    mask.length = P.d ∧
    (out.getD col 0 : ZMod P.q) + ∑ j : Fin P.d, (vecGet mask j : ZMod P.q) * vecGet secret j =
      (P.delta : ZMod P.q) * dbAt server.db (col * server.params.dbRows + targetRow) +
        ∑ row ∈ Finset.range server.params.dbRows,
          (dbAt server.db (col * server.params.dbRows + row) : ZMod P.q) * errors row

/-- The query is built, both phases return, and every column decrypts. -/
def BodiesMatchMasks (server : YServer T ChunkedSplitKernel) (P : RlweParams)
    (validateProfileParts : RlweParams → DatabaseShape → SimplePirProfile → Outcome Unit)
    (queryPolys : List (List ℕ)) (secret : List ℕ) (targetRow : ℕ) (errors : ℕ → ℕ)
    (o : Overflow) : Prop :=
  ∃ query, encryptedSelectionQuery P o queryPolys secret targetRow server.params.dbRows errors =
      .ok query ∧
    ∃ values, server.performOfflinePrecomputationSimplepir validateProfileParts P queryPolys =
        .ok values ∧
      ∀ threads, ∃ out, server.tryMultiplyQuery (defaultKernel T o threads) validateProfileParts P
          (queryWords query) = .ok out ∧ out.length = server.params.dbCols ∧
        ∀ col < server.params.dbCols, Decrypts server P secret targetRow errors values out col

/-- **Bodies and masks**, with the errors that the additions of the query have stored. -/
theorem exists_bodies {server : YServer T ChunkedSplitKernel}
    (h : Admitted validateProfileParts server P queryPolys) (hloaded : server.Loaded)
    (hcols : server.params.dbCols % P.d = 0)
    (hmasks : verifyQueryMasksDistinctFromKeyMasks P queryPolys = .ok ())
    (hselect : Selectable P queryPolys secret targetRow server.params.dbRows) {query : List ℕ}
    (hbodies : Selects P queryPolys secret targetRow errors server.params.dbRows
      server.params.dbRows query) (o : Overflow) :
    ∃ values, server.performOfflinePrecomputationSimplepir validateProfileParts P queryPolys =
        .ok values ∧
      ∀ threads, ∃ out, server.tryMultiplyQuery (defaultKernel T o threads) validateProfileParts P
          (queryWords query) = .ok out ∧ out.length = server.params.dbCols ∧
        ∀ col < server.params.dbCols, Decrypts server P secret targetRow errors values out col := by
  obtain ⟨columns, hcolumns, -, hoffline⟩ := h.performOffline_ok hcols hmasks
  refine ⟨_, hoffline, fun threads => ?_⟩
  have hlen : (queryWords query).length = server.params.dbRows := by
    rw [queryWords, List.length_map, hbodies.length]
  refine ⟨_, tryMultiplyQuery_ok h hloaded hlen o threads, ?_, fun col hcol => ?_⟩
  · rw [product, List.length_map, List.length_range]
  obtain ⟨block, mask, hblock, hrow, hmask, hword⟩ := exists_maskRow h hcolumns hcols hcol
  refine ⟨block, mask, hblock, hrow, hmask, ?_⟩
  have hbody : (product P.q server.db server.params.dbRows server.params.dbCols
      (queryWords query)).getD col 0 = columnSum server.db server.params.dbRows (queryWords query)
        col server.params.dbRows % P.q := by
    rw [product, List.getD_eq_getElem _ _ (by rwa [List.length_map, List.length_range]),
      List.getElem_map, List.getElem_range]
  have hinner : ∑ j : Fin P.d, (vecGet mask j : ZMod P.q) * vecGet secret j =
      ∑ j : Fin P.d, coeff (columnProduct server P queryPolys col) j *
        coeff (secretRing P secret) j := by
    refine Finset.sum_congr rfl fun j _ => ?_
    rw [(hword j).2, secretRing, Poly.coeff_ring]
  rw [hbody, ZMod.natCast_mod, cast_columnSum hselect hbodies col, hinner, sub_add_cancel]

/-- **A column that decrypts to two stretches of errors** has the same sum of errors in both. -/
theorem Decrypts.errors_eq {errors' : ℕ → ℕ} {values : OfflinePrecomputedValues}
    {out : List ℕ} {col : ℕ} (h : Decrypts server P secret targetRow errors values out col)
    (h' : Decrypts server P secret targetRow errors' values out col) :
    ∑ row ∈ Finset.range server.params.dbRows,
        (dbAt server.db (col * server.params.dbRows + row) : ZMod P.q) * errors row =
      ∑ row ∈ Finset.range server.params.dbRows,
        (dbAt server.db (col * server.params.dbRows + row) : ZMod P.q) * errors' row := by
  obtain ⟨block, mask, hblock, hrow, -, hvalue⟩ := h
  obtain ⟨block', mask', hblock', hrow', -, hvalue'⟩ := h'
  obtain rfl := Option.some.inj (hblock.symm.trans hblock')
  obtain rfl := Option.some.inj (hrow.symm.trans hrow')
  exact add_left_cancel (hvalue.symm.trans hvalue')

/-- The wrapped errors against a column are a multiple of the entry of the target row short. -/
theorem sum_wrappedErrors (server : YServer T K) (P : RlweParams) (errors : ℕ → ℕ) (col : ℕ)
    (htarget : targetRow < server.params.dbRows) :
    ∑ row ∈ Finset.range server.params.dbRows,
        (dbAt server.db (col * server.params.dbRows + row) : ZMod P.q) *
          wrappedErrors P targetRow errors row =
      ∑ row ∈ Finset.range server.params.dbRows,
        (dbAt server.db (col * server.params.dbRows + row) : ZMod P.q) * errors row -
          2 ^ 64 * dbAt server.db (col * server.params.dbRows + targetRow) := by
  have hterm (row : ℕ) : (dbAt server.db (col * server.params.dbRows + row) : ZMod P.q) *
      wrappedErrors P targetRow errors row =
        (dbAt server.db (col * server.params.dbRows + row) : ZMod P.q) * errors row -
          if row = targetRow then
            2 ^ 64 * (dbAt server.db (col * server.params.dbRows + row) : ZMod P.q) else 0 := by
    have hq : ((P.q - 1 : ℕ) : ZMod P.q) = -1 := by
      rw [Nat.cast_sub P.q_pos, ZMod.natCast_self, Nat.cast_one, zero_sub]
    by_cases hrow : row = targetRow
    · rw [if_pos hrow, hrow, wrappedErrors, Function.update_self]
      push_cast
      rw [hq]
      ring
    · rw [if_neg hrow, wrappedErrors, Function.update_of_ne hrow, sub_zero]
  rw [Finset.sum_congr rfl fun row _ => hterm row, Finset.sum_sub_distrib, Finset.sum_ite_eq',
    if_pos (Finset.mem_range.mpr htarget)]

/-- A wrapped column decrypts exactly if its entry is a multiple of the modulus. -/
theorem errors_eq_iff (server : YServer T K) (P : RlweParams) (errors : ℕ → ℕ) (col : ℕ)
    (htarget : targetRow < server.params.dbRows) :
    ∑ row ∈ Finset.range server.params.dbRows,
        (dbAt server.db (col * server.params.dbRows + row) : ZMod P.q) *
          wrappedErrors P targetRow errors row =
      ∑ row ∈ Finset.range server.params.dbRows,
        (dbAt server.db (col * server.params.dbRows + row) : ZMod P.q) * errors row ↔
      P.q ∣ dbAt server.db (col * server.params.dbRows + targetRow) := by
  have hunit : IsUnit ((2 : ZMod P.q) ^ 64) := by
    have htwo : IsUnit ((2 : ℕ) : ZMod P.q) :=
      (ZMod.isUnit_iff_coprime _ _).mpr (Nat.coprime_two_left.mpr (Nat.odd_iff.mpr P.q_odd))
    exact (by simpa using htwo : IsUnit (2 : ZMod P.q)).pow 64
  rw [sum_wrappedErrors server P errors col htarget, sub_eq_self, hunit.mul_right_eq_zero,
    ZMod.natCast_eq_zero_iff]

section Overflow

variable {server : YServer T ChunkedSplitKernel}

/-- **Bodies match masks** when the scaled selector plus its error fits a word. -/
theorem bodiesMatchMasks_of_fit (h : Admitted validateProfileParts server P queryPolys)
    (hloaded : server.Loaded) (hcols : server.params.dbCols % P.d = 0)
    (hmasks : verifyQueryMasksDistinctFromKeyMasks P queryPolys = .ok ())
    (hselect : Selectable P queryPolys secret targetRow server.params.dbRows)
    (herrors : ∀ row < server.params.dbRows, errors row < P.q) (o : Overflow)
    (hfit : P.delta + errors targetRow < 2 ^ 64) :
    BodiesMatchMasks server P validateProfileParts queryPolys secret targetRow errors o := by
  obtain ⟨query, hquery, hbodies⟩ := hselect.exists_query (adds_of_fit o herrors hfit)
  exact ⟨query, hquery, exists_bodies h hloaded hcols hmasks hselect hbodies o⟩

/-- In a checked build no query is built when it does not. -/
theorem not_bodiesMatchMasks_traps
    (hselect : Selectable P queryPolys secret targetRow server.params.dbRows)
    (hlarge : 2 ^ 64 ≤ P.delta + errors targetRow) :
    ¬BodiesMatchMasks server P validateProfileParts queryPolys secret targetRow errors .traps := by
  rintro ⟨query, hquery, -⟩
  obtain ⟨noised, hnoised⟩ := hselect.addMod_ok hquery hselect.target_lt
  rw [selectU64_target, addMod_traps hlarge] at hnoised
  cases hnoised

/-- In a release build the columns are then short of a multiple of their entry. -/
theorem bodiesMatchMasks_wraps_iff (h : Admitted validateProfileParts server P queryPolys)
    (hloaded : server.Loaded) (hcols : server.params.dbCols % P.d = 0)
    (hmasks : verifyQueryMasksDistinctFromKeyMasks P queryPolys = .ok ())
    (hselect : Selectable P queryPolys secret targetRow server.params.dbRows)
    (herrors : ∀ row < server.params.dbRows, errors row < P.q)
    (hlarge : 2 ^ 64 ≤ P.delta + errors targetRow) :
    BodiesMatchMasks server P validateProfileParts queryPolys secret targetRow errors .wraps ↔
      ∀ col < server.params.dbCols,
        P.q ∣ dbAt server.db (col * server.params.dbRows + targetRow) := by
  obtain ⟨query, hquery, hbodies⟩ := hselect.exists_query (adds_of_wrap herrors hlarge)
  obtain ⟨values, hvalues, hout⟩ := exists_bodies h hloaded hcols hmasks hselect hbodies .wraps
  constructor
  · rintro ⟨query', hquery', values', hvalues', hout'⟩ col hcol
    obtain rfl := Except.ok.inj (hquery.symm.trans hquery')
    obtain rfl := Except.ok.inj (hvalues.symm.trans hvalues')
    obtain ⟨out, hrun, -, hall⟩ := hout 1
    obtain ⟨out', hrun', -, hall'⟩ := hout' 1
    obtain rfl := Except.ok.inj (hrun.symm.trans hrun')
    exact (errors_eq_iff server P errors col hselect.target_lt).mp
      ((hall col hcol).errors_eq (hall' col hcol))
  · intro hzero
    refine ⟨query, hquery, values, hvalues, fun threads => ?_⟩
    obtain ⟨out, hrun, hlen, hall⟩ := hout threads
    refine ⟨out, hrun, hlen, fun col hcol => ?_⟩
    obtain ⟨block, mask, hblock, hrow, hmask, hvalue⟩ := hall col hcol
    rw [(errors_eq_iff server P errors col hselect.target_lt).mpr (hzero col hcol)] at hvalue
    exact ⟨block, mask, hblock, hrow, hmask, hvalue⟩

end Overflow

end Identity

/-- **Bodies and masks belong together exactly while the scaled selector plus its error fits a
word.**  On every admitted database, with every secret, target row and errors, in either build: the
query is built, the offline phase returns the masks and the online phase the bodies, and for every
column the body plus the inner product of its mask with the secret is the scaled entry of the target
row plus the errors of the query times the column, if and only if `delta` plus the error of the
target row is below `2^64`, or a release build wraps and every entry of the target row is a multiple
of the modulus. -/
theorem selection_identity_iff {T : Type} [ToU64 T]
    (validateProfileParts : RlweParams → DatabaseShape → SimplePirProfile → Outcome Unit)
    (server : YServer T ChunkedSplitKernel) (P : RlweParams) (queryPolys : List (List ℕ))
    (h : Admitted validateProfileParts server P queryPolys) (hloaded : server.Loaded)
    (hcols : server.params.dbCols % P.d = 0)
    (hmasks : verifyQueryMasksDistinctFromKeyMasks P queryPolys = .ok ()) (secret : List ℕ)
    (hsecret : secret.length = P.d) (targetRow : ℕ) (htarget : targetRow < server.params.dbRows)
    (errors : ℕ → ℕ) (herrors : ∀ row < server.params.dbRows, errors row < P.q) (o : Overflow) :
    BodiesMatchMasks server P validateProfileParts queryPolys secret targetRow errors o ↔
      P.delta + errors targetRow < 2 ^ 64 ∨ o = .wraps ∧ ∀ col < server.params.dbCols,
        P.q ∣ dbAt server.db (col * server.params.dbRows + targetRow) := by
  have hselect : Selectable P queryPolys secret targetRow server.params.dbRows :=
    ⟨h.rows_mod, h.polys_length, h.poly_length, hsecret, htarget⟩
  rcases lt_or_ge (P.delta + errors targetRow) (2 ^ 64) with hfit | hlarge
  · exact iff_of_true
      (bodiesMatchMasks_of_fit h hloaded hcols hmasks hselect herrors o hfit) (Or.inl hfit)
  rw [or_iff_right (not_lt.mpr hlarge)]
  cases o with
  | traps =>
      exact iff_of_false (not_bodiesMatchMasks_traps hselect hlarge) fun hwraps => by
        cases hwraps.1
  | wraps =>
      rw [bodiesMatchMasks_wraps_iff h hloaded hcols hmasks hselect herrors hlarge]
      exact (and_iff_right rfl).symm

/-- The small server with the kernel that a server has by default. -/
def smallChunkedServer : YServer UInt8 ChunkedSplitKernel where
  params := smallServer.params
  productionProfile := none
  db := smallServer.db
  padRows := true
  elementMax := 1
  kernel := ⟨1 <<< 16⟩

theorem smallChunkedServer_loaded : smallChunkedServer.Loaded :=
  ⟨List.all_iff_forall_prop.mp (by decide), by decide⟩

/-- A query for the third of four rows has bodies and masks that belong together. -/
theorem selection_identity_iff_small :
    BodiesMatchMasks smallChunkedServer maskParams (fun _ _ _ => .ok ()) [[5, 0, 0, 3]]
      [1, 0, 16, 2] 2 (fun row => row + 13) .wraps :=
  (selection_identity_iff (fun _ _ _ => .ok ()) smallChunkedServer maskParams [[5, 0, 0, 3]]
    ⟨rfl, by decide, rfl, rfl, rfl, by decide⟩ smallChunkedServer_loaded rfl (by decide)
    [1, 0, 16, 2] rfl 2 (by decide) (fun row => row + 13)
    (fun row hrow => Nat.add_lt_add_right (show row < 4 from hrow) 13) .wraps).mpr
    (Or.inl (by decide))

/-! ## A modulus above half the range of a word -/

theorem one_lt_wide : 1 < 2 ^ 64 - 59 := by norm_num

theorem wide_lt_word : 2 ^ 64 - 59 < 2 ^ 64 := by norm_num

theorem wideRoot_pow : ((2296021864060584341 : ℕ) : ZMod (2 ^ 64 - 59)) ^ 2 = -1 := by
  rw [← sub_eq_zero, sub_neg_eq_add, ← Nat.cast_pow, ← Nat.cast_one, ← Nat.cast_add,
    ZMod.natCast_eq_zero_iff]
  exact ⟨285780318693613426, by norm_num⟩

theorem wideExp_odd : ∀ s : Fin 2, Odd (![1, 3] s) := by decide

theorem wideExp_lt : ∀ s : Fin 2, ![1, 3] s < 2 * 2 := by decide

theorem wideExp_injective : Function.Injective (![1, 3] : Fin 2 → ℕ) := by decide

theorem wideInverse_mul : ((9223372036854775779 : ℕ) : ZMod (2 ^ 64 - 59)) * (2 : ℕ) = 1 := by
  rw [← Nat.cast_mul, ← Nat.cast_one, ZMod.natCast_eq_natCast_iff]
  decide

/-- A reference layer at the largest prime of a word. -/
def wideLayer : ReferenceData 2 (2 ^ 64 - 59) where
  logLen := 1
  d_eq := rfl
  one_lt := one_lt_wide
  lt_word := wide_lt_word
  root := 2296021864060584341
  root_pow := wideRoot_pow
  exp := ![1, 3]
  odd_exp := wideExp_odd
  exp_lt := wideExp_lt
  exp_injective := wideExp_injective
  dInv := 9223372036854775779
  dInv_mul := wideInverse_mul
  bitsPer _ := 32
  random seed k i := if seed = REFERENCE_V_SEED then k + 1 else k + 2 * i

theorem two_le_wideDegree : 2 ≤ 2 := le_rfl

theorem three_le_wide : 3 ≤ 2 ^ 64 - 59 := by norm_num

theorem wide_odd : (2 ^ 64 - 59) % 2 = 1 := by norm_num

theorem two_le_widePlaintext : 2 ≤ 2 := le_rfl

theorem widePlaintext_le : 2 ≤ 2 ^ 64 - 59 := by norm_num

theorem wideBits_pos : 0 < 32 := by decide

theorem wideBits_lt : 32 < 64 := by decide

theorem wideCoverage : 2 ^ 64 - 59 ≤ 2 ^ (32 * 2) := by norm_num

theorem wideDelta_eq : 9223372036854775778 = (2 ^ 64 - 59) / 2 := by norm_num

theorem wideInverse_lt : 9223372036854775779 < 2 ^ 64 - 59 := by norm_num

theorem wideInverse_modEq : 2 * 9223372036854775779 ≡ 1 [MOD 2 ^ 64 - 59] := by decide

/-- A parameter set over it. -/
def wideParams : RlweParams where
  d := 2
  q := 2 ^ 64 - 59
  p := 2
  sigmaChi := .finite false 1 0
  gadget := ⟨32, 2⟩
  delta := 9223372036854775778
  dInv := 9223372036854775779
  spiral := wideLayer.params
  two_le_d := two_le_wideDegree
  three_le_q := three_le_wide
  q_odd := wide_odd
  two_le_p := two_le_widePlaintext
  p_le_q := widePlaintext_le
  sigmaChi_pos := smallParams.sigmaChi_pos
  bitsPer_pos := wideBits_pos
  bitsPer_lt := wideBits_lt
  ell_pos := Nat.two_pos
  coverage := wideCoverage
  bitsPer_eq := rfl
  delta_eq := wideDelta_eq
  dInv_lt := wideInverse_lt
  dInv_mul := wideInverse_modEq

/-- Two rows and two columns of ones. -/
def wideServer : YServer UInt8 ChunkedSplitKernel where
  params := ⟨2, 2⟩
  productionProfile := none
  db := [1, 1, 1, 1]
  padRows := true
  elementMax := 1
  kernel := ⟨1 <<< 16⟩

/-- **The largest error of the target row at a modulus above `2^63`**: a release build decrypts to
something else, and a checked one panics, though the server admits the database and the masks. -/
theorem wide_bodies_differ :
    Admitted (fun _ _ _ => .ok ()) wideServer wideParams [[5, 3]] ∧
      verifyQueryMasksDistinctFromKeyMasks wideParams [[5, 3]] = .ok () ∧
      ∀ o, ¬BodiesMatchMasks wideServer wideParams (fun _ _ _ => .ok ()) [[5, 3]] [1, 0] 0
        (fun _ => 2 ^ 64 - 60) o := by
  have hadmitted : Admitted (fun _ _ _ => .ok ()) wideServer wideParams [[5, 3]] :=
    ⟨rfl, by decide, rfl, rfl, rfl, by decide⟩
  have hmasks : verifyQueryMasksDistinctFromKeyMasks wideParams [[5, 3]] = .ok () := by decide
  have hselect : Selectable wideParams [[5, 3]] [1, 0] 0 wideServer.params.dbRows :=
    ⟨rfl, rfl, by decide, rfl, by decide⟩
  have hlarge : 2 ^ 64 ≤ wideParams.delta + (2 ^ 64 - 60) := by decide
  refine ⟨hadmitted, hmasks, fun o => ?_⟩
  cases o with
  | traps => exact not_bodiesMatchMasks_traps hselect hlarge
  | wraps =>
      have hloaded : wideServer.Loaded := ⟨List.all_iff_forall_prop.mp (by decide), by decide⟩
      rw [bodiesMatchMasks_wraps_iff hadmitted hloaded rfl hmasks hselect
        (fun _ _ => by decide) hlarge]
      exact fun hzero => absurd (hzero 0 (by decide)) (by decide)

end SimplePir
