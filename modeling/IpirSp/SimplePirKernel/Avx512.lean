import IpirSp.SimplePirKernel.Chunked

/-!
# The AVX-512 kernel

The kernel for 16-bit elements reads eight rows at a time and adds the products of either limb in
eight lanes, leaving the last rows of a window to scalar code.  Each task walks all windows of its
band.  `columnWindowAvx512_ok` says that a window is summed exactly and that no lane wraps:
`lanes : Overflow` is what lane additions do when they do not fit, and the hardware's choice is
`wraps`.

The kernel cuts the database into pieces of whole columns before it looks at the rows, and a piece
of a database without rows has no elements: `avx512_no_rows` is the panic.
`kernels_agree_iff` says that this is the only difference from the other two kernels.
-/

namespace SimplePirKernel

open Inspiring Loops MachineWord

/-- `U16Avx512Kernel`. -/
structure U16Avx512Kernel where
  chunkRows : ℕ

/-- `_mm512_mul_epu32`: the low halves of the lanes, multiplied. -/
def mulEpu32 (a b : Lanes 8) : Lanes 8 := fun j => low32 (a j) * low32 (b j)

/-- `_mm512_srli_epi64`. -/
def srliEpi64 (a : Lanes 8) (count : ℕ) : Lanes 8 := fun j => a j >>> count

/-- Eight rows: the products of either limb, added lane by lane. -/
def vectorStep (lanes : Overflow) (query db : ℕ → ℕ) (row : ℕ) (totals : Lanes 8 × Lanes 8) :
    Option (Lanes 8 × Lanes 8) := do
  let queryVec : Lanes 8 := fun j => query (row + j)
  let dbVec : Lanes 8 := fun j => db (row + j)
  let totalLo ← lanes.addLanes totals.1 (mulEpu32 queryVec dbVec)
  let totalHi ← lanes.addLanes totals.2 (mulEpu32 (srliEpi64 queryVec 32) dbVec)
  return (totalLo, totalHi)

/-- `while row < vector_end { …; row += 8 }`, over `count` groups of rows. -/
def vectorLoop (lanes : Overflow) (query db : ℕ → ℕ) (rowStart count : ℕ) :
    Option (Lanes 8 × Lanes 8) :=
  (List.range count).foldlM
    (fun totals k => vectorStep lanes query db (rowStart + 8 * k) totals) (fun _ => 0, fun _ => 0)

/-- What the kernel does with the rows `rowStart..rowEnd` of one column. -/
def columnWindowAvx512 (o lanes : Overflow) (P : RlweParams) (db : List UInt16) (colOffset : ℕ)
    (query : List UInt64) (rowStart rowEnd outCol : ℕ) : Result ℕ := do
  let vectorEnd := rowStart + (rowEnd - rowStart) / 8 * 8
  let row := fun r => dbAt db (colOffset + r)
  let totals ← checked (vectorLoop lanes (queryAt query) row rowStart ((rowEnd - rowStart) / 8))
  let resLo ← checked (o.sum 64 (List.ofFn totals.1))
  let resHi ← checked (o.sum 64 (List.ofFn totals.2))
  let res ← checked (o.splitDot (queryAt query) row
    (List.range' vectorEnd (rowEnd - vectorEnd)) (resLo, resHi))
  reduceWindow o P res outCol

/-- The window of `multiply_query_avx512_u16`, a multiple of the rows of a vector. -/
def vectorWindow (chunkRows : ℕ) : ℕ :=
  let chunkRows := max chunkRows 8
  let chunkRows := chunkRows - chunkRows % 8
  max chunkRows 8

theorem vectorWindow_pos (chunkRows : ℕ) : 0 < vectorWindow chunkRows :=
  lt_max_of_lt_right (by decide)

theorem vectorWindow_le {chunkRows n : ℕ} (hle : max chunkRows 8 ≤ n) :
    vectorWindow chunkRows ≤ n := by
  unfold vectorWindow
  dsimp only
  omega

/-- `multiply_query_avx512_u16`, on one band. -/
def multiplyQueryAvx512U16 (o lanes : Overflow) (P : RlweParams) (db : List UInt16)
    (rowsPadded cols : ℕ) (query : List UInt64) (out : List ℕ) (chunkRows : ℕ) :
    Result (List ℕ) :=
  windowLoop (vectorWindow chunkRows) (vectorWindow_pos chunkRows) rowsPadded
    (fun rowStart rowEnd out => (out.take cols).zipIdx.mapM fun (outCol, col) =>
      columnWindowAvx512 o lanes P db (col * rowsPadded) query rowStart rowEnd outCol)
    0 (List.replicate out.length 0)

/-- `U16Avx512Kernel::multiply_query`, on a host with `threads` threads that supports AVX-512. -/
def U16Avx512Kernel.multiplyQuery (K : U16Avx512Kernel) (o lanes : Overflow) (threads : ℕ)
    (P : RlweParams) (db : List UInt16) (rowsPadded cols : ℕ) (query : List UInt64)
    (elementMax : ℕ) (out : List ℕ) : Result (List ℕ) := do
  assertShapes db rowsPadded cols query out
  let safeRows := maxSafeChunkRowsFor elementMax
  if safeRows < 8 then
    .error (.panic "delayed-reduction window is narrower than one vector step")
  else
    let chunkRows := max (min (min K.chunkRows safeRows) rowsPadded) 8
    let bandCols := bandCols UInt16 threads rowsPadded cols
    let outBands ← parChunks bandCols (out.take cols)
    let dbBands ← parChunks (bandCols * rowsPadded) (db.take (cols * rowsPadded))
    let bands ← (outBands.zip dbBands).mapM fun (outBand, dbBand) =>
      multiplyQueryAvx512U16 o lanes P dbBand rowsPadded outBand.length query outBand chunkRows
    return bands.flatten

/-! ## Lanes -/

section VectorLoop

variable (lanes : Overflow) {query db : ℕ → ℕ} (hdb : ∀ r, db r < 2 ^ 32)
  (hquery : ∀ r, query r < 2 ^ 64)

include hdb hquery

/-- A step adds one row to each lane. -/
theorem vectorStep_ok {row : ℕ} (totals : Lanes 8 × Lanes 8)
    (hlo : ∀ j, totals.1 j + low32 (query (row + j)) * db (row + j) < 2 ^ 64)
    (hhi : ∀ j, totals.2 j + (query (row + j) >>> 32) * db (row + j) < 2 ^ 64) :
    vectorStep lanes query db row totals =
      some (fun j => totals.1 j + low32 (query (row + j)) * db (row + j),
        fun j => totals.2 j + (query (row + j) >>> 32) * db (row + j)) := by
  have hlow : mulEpu32 (fun j => query (row + j)) (fun j => db (row + j)) =
      fun j : Fin 8 => low32 (query (row + j)) * db (row + j) := by
    funext j
    rw [mulEpu32, low32, low32, Nat.mod_eq_of_lt (hdb _)]
  have hhigh : mulEpu32 (srliEpi64 (fun j => query (row + j)) 32) (fun j => db (row + j)) =
      fun j : Fin 8 => (query (row + j) >>> 32) * db (row + j) := by
    funext j
    rw [mulEpu32, srliEpi64, low32, low32, Nat.mod_eq_of_lt (hdb _),
      Nat.mod_eq_of_lt (high32_lt (hquery _))]
  unfold vectorStep
  dsimp only
  rw [hlow, hhigh, lanes.addLanes_ok hlo, Option.bind_eq_bind, Option.bind_some,
    lanes.addLanes_ok hhi]
  rfl

/-- **The vector loop is exact** while the sum of its rows fits. -/
theorem vectorLoop_ok {rowStart count : ℕ}
    (hlo : ((List.range' rowStart (8 * count)).map fun r => low32 (query r) * db r).sum < 2 ^ 64)
    (hhi : ((List.range' rowStart (8 * count)).map fun r => (query r >>> 32) * db r).sum < 2 ^ 64) :
    vectorLoop lanes query db rowStart count =
      some (laneSum 8 (fun r => low32 (query r) * db r) rowStart count,
        laneSum 8 (fun r => (query r >>> 32) * db r) rowStart count) := by
  unfold vectorLoop
  induction count with
  | zero => rfl
  | succ count ih =>
      have hpart (f : ℕ → ℕ) : ((List.range' rowStart (8 * count)).map f).sum ≤
          ((List.range' rowStart (8 * (count + 1))).map f).sum := by
        rw [Nat.mul_succ, ← List.range'_append_1, List.map_append, List.sum_append]
        exact Nat.le_add_right _ _
      have hlane (f : ℕ → ℕ) (hf : ((List.range' rowStart (8 * (count + 1))).map f).sum < 2 ^ 64)
          (j : Fin 8) : laneSum 8 f rowStart count j + f (rowStart + 8 * count + j) < 2 ^ 64 := by
        rw [← laneSum_succ]
        exact (laneSum_le 8 f rowStart (count + 1) j).trans_lt hf
      have hstep := vectorStep_ok lanes hdb hquery
        (laneSum 8 (fun r => low32 (query r) * db r) rowStart count,
          laneSum 8 (fun r => (query r >>> 32) * db r) rowStart count)
        (hlane _ hlo) (hlane _ hhi)
      rw [List.range_succ, List.foldlM_append, ih ((hpart _).trans_lt hlo) ((hpart _).trans_lt hhi)]
      show (vectorStep lanes query db (rowStart + 8 * count) _).bind some = _
      rw [hstep, Option.bind_some]
      refine congrArg some (Prod.ext ?_ ?_)
      · exact funext fun j =>
          (laneSum_succ 8 (fun r => low32 (query r) * db r) rowStart count j).symm
      · exact funext fun j =>
          (laneSum_succ 8 (fun r => (query r >>> 32) * db r) rowStart count j).symm

end VectorLoop

/-! ## The kernel -/

/-- The narrowest element type in which every limb product fits. -/
theorem not_needsWideProducts_u16 : ¬needsWideProducts UInt16 := by decide

/-- The rows of the lanes and those after them make the window. -/
theorem sum_vector_tail (f : ℕ → ℕ) {rowStart rowEnd : ℕ} (hle : rowStart ≤ rowEnd) :
    ((List.range' rowStart (8 * ((rowEnd - rowStart) / 8))).map f).sum +
        ((List.range' (rowStart + (rowEnd - rowStart) / 8 * 8)
          (rowEnd - (rowStart + (rowEnd - rowStart) / 8 * 8))).map f).sum =
      ((List.range' rowStart (rowEnd - rowStart)).map f).sum := by
  have hsplit : rowEnd - rowStart =
      8 * ((rowEnd - rowStart) / 8) + (rowEnd - (rowStart + (rowEnd - rowStart) / 8 * 8)) := by
        omega
  conv_rhs => rw [hsplit]
  rw [← List.range'_append_1, List.map_append, List.sum_append, mul_comm 8]

/-- **A window of one column** of the AVX-512 kernel: no lane wraps and no row is missed. -/
theorem columnWindowAvx512_ok (o lanes : Overflow) (P : RlweParams) (A : Operands UInt16)
    {db : List UInt16} {colOffset col rowStart rowEnd : ℕ}
    (hdb : ∀ row < A.rowsPadded,
      dbAt db (colOffset + row) = dbAt A.db (col * A.rowsPadded + row))
    (hle : rowStart ≤ rowEnd) (hend : rowEnd ≤ A.rowsPadded)
    (hlen : rowEnd - rowStart ≤ maxSafeChunkRowsFor A.elementMax) :
    columnWindowAvx512 o lanes P db colOffset A.query rowStart rowEnd
        (columnSum A.db A.rowsPadded A.query col rowStart % P.q) =
      .ok (columnSum A.db A.rowsPadded A.query col rowEnd % P.q) := by
  obtain ⟨hlo, hhi⟩ := column_fits A not_needsWideProducts_u16 hdb hend hlen
  rw [← sum_vector_tail _ hle] at hlo hhi
  have hsmall (r : ℕ) : dbAt db (colOffset + r) < 2 ^ 32 :=
    (dbAt_u16_le db _).trans_lt (by decide)
  have hlanes := vectorLoop_ok lanes hsmall (queryAt_lt A.query)
    ((Nat.le_add_right _ _).trans_lt hlo) ((Nat.le_add_right _ _).trans_lt hhi)
  rw [columnWindowAvx512, hlanes, checked_some, ok_bind,
    o.sum_ok (by rw [sum_laneSum]; exact (Nat.le_add_right _ _).trans_lt hlo), checked_some,
    ok_bind, o.sum_ok (by rw [sum_laneSum]; exact (Nat.le_add_right _ _).trans_lt hhi),
    checked_some, ok_bind, sum_laneSum, sum_laneSum, o.splitDot_ok _ _ _ hlo hhi, checked_some,
    ok_bind, sum_vector_tail _ hle, sum_vector_tail _ hle]
  exact reduceWindow_column A not_needsWideProducts_u16 hdb hle hend hlen o P

/-- **The task of a band** computes its columns. -/
theorem multiplyQueryAvx512U16_ok (o lanes : Overflow) (P : RlweParams) (A : Operands UInt16)
    {chunkRows : ℕ} (hchunk : vectorWindow chunkRows ≤ maxSafeChunkRowsFor A.elementMax)
    (bandCols bandStart : ℕ) {outBand : List ℕ}
    (hout : outBand.length = ((A.out.drop bandStart).take bandCols).length) :
    multiplyQueryAvx512U16 o lanes P ((A.db.drop (bandStart * A.rowsPadded)).take
        (bandCols * A.rowsPadded)) A.rowsPadded outBand.length A.query outBand chunkRows =
      .ok (((product P.q A.db A.rowsPadded A.cols A.query).drop bandStart).take bandCols) := by
  let value (rows : ℕ) : List ℕ :=
    ((partialProduct P.q A.db A.rowsPadded A.cols A.query rows).drop bandStart).take bandCols
  have hlength (rows : ℕ) : (value rows).length = outBand.length := by
    rw [hout, List.length_take, List.length_drop, length_partialProduct, List.length_take,
      List.length_drop, A.out_length]
  have hzero : List.replicate outBand.length 0 = value 0 := by
    rw [← hlength 0]
    show _ = ((partialProduct P.q A.db A.rowsPadded A.cols A.query 0).drop bandStart).take bandCols
    rw [partialProduct_zero, List.drop_replicate, List.take_replicate]
    simp [value, partialProduct_zero]
  rw [multiplyQueryAvx512U16, hzero]
  refine windowLoop_ok value fun rowStart hlt => ?_
  rw [List.take_of_length_le (hlength rowStart).le]
  refine mapM_zipIdx_eq_ok ((hlength _).trans (hlength _).symm) fun bandCol hcol hcol' => ?_
  have hinside : bandCol < bandCols := by
    have hlen : (value rowStart).length ≤ bandCols := List.length_take_le _ _
    omega
  simp only [value, partialProduct, List.getElem_take, List.getElem_drop, List.getElem_map,
    List.getElem_range]
  exact columnWindowAvx512_ok o lanes P A (fun row hrow => dbAt_band hinside hrow)
    (le_min (Nat.le_add_right _ _) hlt.le) (min_le_right _ _) (by omega)

/-- Elements of 16 bits leave room for many vectors. -/
theorem eight_le_maxSafeChunkRowsFor {elementMax : ℕ} (hle : elementMax ≤ 65535) :
    8 ≤ maxSafeChunkRowsFor elementMax := by
  unfold maxSafeChunkRowsFor
  split
  · decide
  · dsimp only
    rw [if_neg (by omega), Nat.le_div_iff_mul_le (by omega)]
    omega

/-- **The AVX-512 kernel returns the product**, if there is a row. -/
theorem avx512_spec (K : U16Avx512Kernel) (o lanes : Overflow) (threads : ℕ) (P : RlweParams)
    (A : Operands UInt16) (hrows : 0 < A.rowsPadded) :
    K.multiplyQuery o lanes threads P A.db A.rowsPadded A.cols A.query A.elementMax A.out =
      .ok (product P.q A.db A.rowsPadded A.cols A.query) := by
  have hsafe := eight_le_maxSafeChunkRowsFor A.elementMax_le
  have hband := bandCols_pos UInt16 threads A.rowsPadded A.cols
  have hdb : A.db.length ≤ A.cols * A.rowsPadded := (A.db_length.trans (mul_comm _ _)).le
  have hchunk : vectorWindow (max (min (min K.chunkRows (maxSafeChunkRowsFor A.elementMax))
      A.rowsPadded) 8) ≤ maxSafeChunkRowsFor A.elementMax := vectorWindow_le (by omega)
  rw [U16Avx512Kernel.multiplyQuery, A.assertShapes_ok, ok_bind]
  dsimp only
  rw [if_neg (not_lt.mpr hsafe), List.take_of_length_le A.out_length.le,
    List.take_of_length_le hdb, parChunks, if_neg hband.ne', ok_bind, parChunks,
    if_neg (Nat.mul_pos hband hrows).ne', ok_bind,
    mapM_zip_chunks hrows (by rw [A.db_length, A.out_length, mul_comm])
      ((length_partialProduct P.q A.db A.rowsPadded A.cols A.query A.rowsPadded).trans
        A.out_length.symm)
      (fun bandStart _ => multiplyQueryAvx512U16_ok o lanes P A hchunk _ bandStart rfl), ok_bind]
  exact congrArg Except.ok (flatten_chunks hband _)

/-- **Without rows the AVX-512 kernel panics**, since a piece of the database has no elements. -/
theorem avx512_no_rows (K : U16Avx512Kernel) (o lanes : Overflow) (threads : ℕ) (P : RlweParams)
    (A : Operands UInt16) (hrows : A.rowsPadded = 0) :
    K.multiplyQuery o lanes threads P A.db A.rowsPadded A.cols A.query A.elementMax A.out =
      .error (.panic "chunk_size must not be zero") := by
  have hsafe := eight_le_maxSafeChunkRowsFor A.elementMax_le
  have hband := bandCols_pos UInt16 threads A.rowsPadded A.cols
  rw [U16Avx512Kernel.multiplyQuery, A.assertShapes_ok, ok_bind]
  dsimp only
  rw [if_neg (not_lt.mpr hsafe), parChunks, if_neg hband.ne', ok_bind, parChunks, hrows,
    if_pos (Nat.mul_zero _)]
  rfl

/-- **The kernels agree exactly if the AVX-512 kernel has a row to multiply.**  The scalar and the
chunked kernel return the product for every element type and every window; the AVX-512 kernel
returns it if and only if there is a row.  All three do so whatever their additions do on
overflow. -/
theorem kernels_agree_iff (P : RlweParams) (o lanes : Overflow) (threads chunkRows : ℕ) :
    (∀ (T : Type) [ToU64 T] (A : Operands T),
      ScalarKernel.multiplyQuery o P A.db A.rowsPadded A.cols A.query A.elementMax A.out =
          .ok (product P.q A.db A.rowsPadded A.cols A.query) ∧
        (ChunkedSplitKernel.mk chunkRows).multiplyQuery o threads P A.db A.rowsPadded A.cols A.query
            A.elementMax A.out =
          .ok (product P.q A.db A.rowsPadded A.cols A.query)) ∧
      ∀ A : Operands UInt16,
        (U16Avx512Kernel.mk chunkRows).multiplyQuery o lanes threads P A.db A.rowsPadded A.cols
            A.query A.elementMax A.out =
          .ok (product P.q A.db A.rowsPadded A.cols A.query) ↔
        0 < A.rowsPadded := by
  refine ⟨fun T _ A => ⟨scalar_spec o P A, chunked_spec _ o threads P A⟩, fun A => ⟨?_, ?_⟩⟩
  · intro hspec
    by_contra hnone
    rw [avx512_no_rows _ o lanes threads P A (Nat.eq_zero_of_not_pos hnone)] at hspec
    cases hspec
  · exact avx512_spec _ o lanes threads P A

/-- A database of one column without rows: the scalar and the chunked kernel return its empty sum,
the AVX-512 kernel panics. -/
theorem kernels_differ_no_rows :
    ScalarKernel.multiplyQuery .wraps smallParams ([] : List UInt16) 0 1 [] 0 [0] = .ok [0] ∧
      (ChunkedSplitKernel.mk (2 ^ 16)).multiplyQuery .wraps 1 smallParams ([] : List UInt16) 0 1 []
        0 [0] = .ok [0] ∧
      (U16Avx512Kernel.mk (2 ^ 16)).multiplyQuery .wraps .wraps 1 smallParams [] 0 1 [] 0 [0] =
        .error (.panic "chunk_size must not be zero") := by
  refine ⟨rfl, ?_, rfl⟩
  have hshapes : assertShapes ([] : List UInt16) 0 1 [] [0] = .ok () := rfl
  rw [ChunkedSplitKernel.multiplyQuery, hshapes, ok_bind, if_neg not_needsWideProducts_u16]
  exact windowLoop_ok (fun _ => [0]) fun _ hlt => absurd hlt (Nat.not_lt_zero _)

end SimplePirKernel
