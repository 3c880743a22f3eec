import IpirSp.SimplePirKernel.Backend

/-!
# The scalar and the chunked kernel

The scalar kernel reduces after every product.  The chunked kernel splits the query into limbs,
walks the rows in windows, gives each task a band of columns, and reduces once a window; for
elements whose products with a limb do not fit a word it is the scalar loop.

`scalar_spec` and `chunked_spec` say that both return the product, for every window length, every
number of threads, and whatever their additions do on overflow.
-/

namespace SimplePirKernel

open Inspiring Loops MachineWord

section Kernels

variable {T : Type} [ToU64 T]

/-- `acc += query_val * db_val; acc %= modulus`, in 128 bits. -/
def scalarStep (o : Overflow) (modulus acc queryVal dbVal : ℕ) : Result ℕ := do
  let sum ← checked (o.add 128 acc (queryVal * dbVal))
  return sum % modulus

/-- The scalar loop over one column. -/
def scalarColumn (o : Overflow) (modulus : ℕ) (db : List T) (rowsPadded : ℕ) (query : List UInt64)
    (col : ℕ) : Result ℕ :=
  let colOffset := col * rowsPadded
  (List.range query.length).foldlM
    (fun acc row => scalarStep o modulus acc (queryAt query row) (dbAt db (colOffset + row))) 0

/-- `ScalarKernel::multiply_query`. -/
def ScalarKernel.multiplyQuery (o : Overflow) (P : RlweParams) (db : List T) (rowsPadded cols : ℕ)
    (query : List UInt64) (_elementMax : ℕ) (out : List ℕ) : Result (List ℕ) := do
  assertShapes db rowsPadded cols query out
  (List.range cols).mapM (scalarColumn o P.q db rowsPadded query)

/-- `ChunkedSplitKernel`. -/
structure ChunkedSplitKernel where
  chunkRows : ℕ

/-- `needs_wide_products`. -/
def needsWideProducts (T : Type) [ToU64 T] : Prop :=
  (2 ^ 32 - 1) * ToU64.maxValue T > 2 ^ 64 - 1

instance : Decidable (needsWideProducts T) := inferInstanceAs (Decidable (_ > _))

/-- `scalar_fallback`. -/
def scalarFallback (o : Overflow) (P : RlweParams) (db : List T) (rowsPadded cols : ℕ)
    (query : List UInt64) : Result (List ℕ) :=
  (List.range cols).mapM (scalarColumn o P.q db rowsPadded query)

/-- What the chunked kernel does with the rows `rowStart..rowEnd` of one column. -/
def columnWindow (o : Overflow) (P : RlweParams) (db : List T) (colOffset : ℕ)
    (query : List UInt64) (rowStart rowEnd outCol : ℕ) : Result ℕ := do
  let totals ← checked (o.splitDot (queryAt query) (fun row => dbAt db (colOffset + row))
    (List.range' rowStart (rowEnd - rowStart)) (0, 0))
  reduceWindow o P totals outCol

/-- The task that owns one band of columns, for one window. -/
def windowBand (o : Overflow) (P : RlweParams) (rowsPadded : ℕ) (query : List UInt64)
    (rowStart rowEnd : ℕ) (band : List ℕ × List T) : Result (List ℕ) :=
  band.1.zipIdx.mapM fun (outCol, bandCol) =>
    columnWindow o P band.2 (bandCol * rowsPadded) query rowStart rowEnd outCol

/-- The rows of a window. -/
def ChunkedSplitKernel.window (K : ChunkedSplitKernel) (elementMax rowsPadded : ℕ) : ℕ :=
  max (min (min K.chunkRows (maxSafeChunkRowsFor elementMax)) rowsPadded) 1

/-- `ChunkedSplitKernel::multiply_query`, on a host with `threads` threads. -/
def ChunkedSplitKernel.multiplyQuery (K : ChunkedSplitKernel) (o : Overflow) (threads : ℕ)
    (P : RlweParams) (db : List T) (rowsPadded cols : ℕ) (query : List UInt64) (elementMax : ℕ)
    (out : List ℕ) : Result (List ℕ) := do
  assertShapes db rowsPadded cols query out
  if needsWideProducts T then scalarFallback o P db rowsPadded cols query
  else
    let bandCols := bandCols T threads rowsPadded cols
    windowLoop (K.window elementMax rowsPadded) (lt_max_of_lt_right one_pos) rowsPadded
      (fun rowStart rowEnd out => do
        let outBands ← parChunks bandCols (out.take cols)
        let dbBands ← parChunks (bandCols * rowsPadded) (db.take (cols * rowsPadded))
        let bands ← (outBands.zip dbBands).mapM (windowBand o P rowsPadded query rowStart rowEnd)
        return bands.flatten)
      0 (List.replicate out.length 0)

/-! ## The scalar loop -/

theorem columnSum_succ (db : List T) (rowsPadded : ℕ) (query : List UInt64) (col rows : ℕ) :
    columnSum db rowsPadded query col (rows + 1) = columnSum db rowsPadded query col rows +
      queryAt query rows * dbAt db (col * rowsPadded + rows) := Finset.sum_range_succ _ _

/-- The accumulator is reduced before each product, so that the sum fits 128 bits. -/
theorem scalarStep_ok (o : Overflow) {modulus acc queryVal dbVal : ℕ} (hacc : acc < 2 ^ 64)
    (hquery : queryVal < 2 ^ 64) (hdb : dbVal < 2 ^ 64) :
    scalarStep o modulus acc queryVal dbVal = .ok ((acc + queryVal * dbVal) % modulus) := by
  have hproduct : queryVal * dbVal ≤ (2 ^ 64 - 1) * (2 ^ 64 - 1) :=
    Nat.mul_le_mul (Nat.le_pred_of_lt hquery) (Nat.le_pred_of_lt hdb)
  rw [scalarStep, o.add_ok (by omega)]
  rfl

/-- **The scalar loop is exact.** -/
theorem scalarColumn_ok (o : Overflow) (P : RlweParams) (A : Operands T) (col : ℕ) :
    scalarColumn o P.q A.db A.rowsPadded A.query col =
      .ok (columnSum A.db A.rowsPadded A.query col A.rowsPadded % P.q) := by
  unfold scalarColumn
  rw [A.query_length]
  generalize A.rowsPadded = rowsPadded
  have hrun (rows : ℕ) : (List.range rows).foldlM (fun acc row =>
      scalarStep o P.q acc (queryAt A.query row) (dbAt A.db (col * rowsPadded + row))) 0 =
        .ok (columnSum A.db rowsPadded A.query col rows % P.q) := by
    induction rows with
    | zero => exact congrArg Except.ok (Nat.zero_mod _).symm
    | succ rows ih =>
        have hacc : columnSum A.db rowsPadded A.query col rows % P.q < 2 ^ 64 :=
          (Nat.mod_lt _ P.q_pos).trans P.spiral.modulus_lt
        have hdb : dbAt A.db (col * rowsPadded + rows) < 2 ^ 64 :=
          ((A.dbAt_le _).trans A.elementMax_le).trans_lt ToU64.maxValue_lt
        rw [List.range_succ, List.foldlM_append, ih, ok_bind, List.foldlM_cons,
          scalarStep_ok o hacc (queryAt_lt _ _) hdb, ok_bind, columnSum_succ, Nat.mod_add_mod]
        rfl
  exact hrun rowsPadded

theorem scalarFallback_ok (o : Overflow) (P : RlweParams) (A : Operands T) :
    scalarFallback o P A.db A.rowsPadded A.cols A.query =
      .ok (product P.q A.db A.rowsPadded A.cols A.query) :=
  mapM_eq_ok fun col _ => scalarColumn_ok o P A col

/-- **The scalar kernel returns the product.** -/
theorem scalar_spec (o : Overflow) (P : RlweParams) (A : Operands T) :
    ScalarKernel.multiplyQuery o P A.db A.rowsPadded A.cols A.query A.elementMax A.out =
      .ok (product P.q A.db A.rowsPadded A.cols A.query) := by
  rw [ScalarKernel.multiplyQuery, A.assertShapes_ok, ok_bind]
  exact scalarFallback_ok o P A

/-! ## Windows of rows -/

/-- The columns after the rows below `rows`. -/
def partialProduct (q : ℕ) (db : List T) (rowsPadded cols : ℕ) (query : List UInt64) (rows : ℕ) :
    List ℕ :=
  (List.range cols).map fun col => columnSum db rowsPadded query col rows % q

/-- The rows of a window continue the sum of the rows before it. -/
theorem columnSum_window (db : List T) (rowsPadded : ℕ) (query : List UInt64) (col : ℕ)
    {rowStart rowEnd : ℕ} (hle : rowStart ≤ rowEnd) :
    columnSum db rowsPadded query col rowStart +
        ((List.range' rowStart (rowEnd - rowStart)).map fun row =>
          queryAt query row * dbAt db (col * rowsPadded + row)).sum =
      columnSum db rowsPadded query col rowEnd := by
  rw [sum_map_range', ← Finset.sum_range fun j =>
    queryAt query (rowStart + j) * dbAt db (col * rowsPadded + (rowStart + j))]
  unfold columnSum
  rw [← Finset.sum_range_add_sum_Ico _ hle, Finset.sum_Ico_eq_sum_range]

/-- A column of a band is a column of the database. -/
theorem dbAt_band {db : List T} {rowsPadded bandStart bandCols bandCol row : ℕ}
    (hcol : bandCol < bandCols) (hrow : row < rowsPadded) :
    dbAt ((db.drop (bandStart * rowsPadded)).take (bandCols * rowsPadded))
        (bandCol * rowsPadded + row) =
      dbAt db ((bandStart + bandCol) * rowsPadded + row) := by
  have hinside : bandCol * rowsPadded + row < bandCols * rowsPadded := by
    have hnext : (bandCol + 1) * rowsPadded ≤ bandCols * rowsPadded := Nat.mul_le_mul_right _ hcol
    rw [Nat.add_mul] at hnext
    omega
  unfold dbAt
  rw [List.getElem?_take_of_lt hinside, List.getElem?_drop, Nat.add_mul, add_assoc]

section Window

variable (A : Operands T) (hnarrow : ¬needsWideProducts T) {v : ℕ → ℕ} {col rowStart rowEnd : ℕ}
  (hv : ∀ row < A.rowsPadded, v row = dbAt A.db (col * A.rowsPadded + row))
  (hle : rowStart ≤ rowEnd) (hend : rowEnd ≤ A.rowsPadded)
  (hlen : rowEnd - rowStart ≤ maxSafeChunkRowsFor A.elementMax)

include hv hend

theorem column_eq : ∀ row ∈ List.range' rowStart (rowEnd - rowStart),
    v row = dbAt A.db (col * A.rowsPadded + row) := by
  intro row hrow
  rw [List.mem_range'_1] at hrow
  exact hv row (by omega)

include hnarrow hlen

/-- **The limb sums of a window of a column fit.** -/
theorem column_fits :
    ((List.range' rowStart (rowEnd - rowStart)).map fun row =>
        low32 (queryAt A.query row) * v row).sum < 2 ^ 64 ∧
      ((List.range' rowStart (rowEnd - rowStart)).map fun row =>
        (queryAt A.query row >>> 32) * v row).sum < 2 ^ 64 := by
  have hmax : ∀ row ∈ List.range' rowStart (rowEnd - rowStart), v row ≤ A.elementMax := by
    intro row hrow
    rw [column_eq A hv hend row hrow]
    exact A.dbAt_le _
  have hterm : ∀ row ∈ List.range' rowStart (rowEnd - rowStart), v row ≤ 2 ^ 32 + 1 := by
    intro row hrow
    have hbound := (hmax row hrow).trans A.elementMax_le
    unfold needsWideProducts at hnarrow
    omega
  have hcount : (List.range' rowStart (rowEnd - rowStart)).length ≤
      maxSafeChunkRowsFor A.elementMax := by
    rwa [List.length_range']
  constructor
  · exact window_fits (queryAt A.query) low32 (fun row _ => Nat.le_pred_of_lt (low32_lt _)) hmax
      hterm hcount
  · exact window_fits (queryAt A.query) (fun w => w >>> 32)
      (fun row _ => Nat.le_pred_of_lt (high32_lt (queryAt_lt _ _))) hmax hterm hcount

include hle

/-- **The limb sums of a window move the column on** by the window. -/
theorem reduceWindow_column (o : Overflow) (P : RlweParams) :
    reduceWindow o P
        (((List.range' rowStart (rowEnd - rowStart)).map fun row =>
            low32 (queryAt A.query row) * v row).sum,
          ((List.range' rowStart (rowEnd - rowStart)).map fun row =>
            (queryAt A.query row >>> 32) * v row).sum)
        (columnSum A.db A.rowsPadded A.query col rowStart % P.q) =
      .ok (columnSum A.db A.rowsPadded A.query col rowEnd % P.q) := by
  obtain ⟨hlo, hhi⟩ := column_fits A hnarrow hv hend hlen
  have hcolumn : ((List.range' rowStart (rowEnd - rowStart)).map fun row =>
      queryAt A.query row * v row).sum =
        ((List.range' rowStart (rowEnd - rowStart)).map fun row =>
          queryAt A.query row * dbAt A.db (col * A.rowsPadded + row)).sum := by
    refine congrArg List.sum (List.map_congr_left fun row hrow => ?_)
    rw [column_eq A hv hend row hrow]
  rw [reduceWindow_ok o P hlo hhi (Nat.mod_lt _ P.q_pos), sum_limbs, hcolumn, Nat.mod_add_mod,
    columnSum_window _ _ _ _ hle]

end Window

/-- **A window of one column** of the chunked kernel. -/
theorem columnWindow_ok (o : Overflow) (P : RlweParams) (A : Operands T)
    (hnarrow : ¬needsWideProducts T) {db : List T} {colOffset col rowStart rowEnd : ℕ}
    (hdb : ∀ row < A.rowsPadded,
      dbAt db (colOffset + row) = dbAt A.db (col * A.rowsPadded + row))
    (hle : rowStart ≤ rowEnd) (hend : rowEnd ≤ A.rowsPadded)
    (hlen : rowEnd - rowStart ≤ maxSafeChunkRowsFor A.elementMax) :
    columnWindow o P db colOffset A.query rowStart rowEnd
        (columnSum A.db A.rowsPadded A.query col rowStart % P.q) =
      .ok (columnSum A.db A.rowsPadded A.query col rowEnd % P.q) := by
  obtain ⟨hlo, hhi⟩ := column_fits A hnarrow hdb hend hlen
  rw [columnWindow, o.splitDot_ok _ _ _ (by rwa [zero_add]) (by rwa [zero_add]), checked_some,
    ok_bind, zero_add, zero_add]
  exact reduceWindow_column A hnarrow hdb hle hend hlen o P

/-- **A window of a band**: each task moves its own columns on. -/
theorem windowBand_ok (o : Overflow) (P : RlweParams) (A : Operands T)
    (hnarrow : ¬needsWideProducts T) {rowStart rowEnd : ℕ} (hle : rowStart ≤ rowEnd)
    (hend : rowEnd ≤ A.rowsPadded) (hlen : rowEnd - rowStart ≤ maxSafeChunkRowsFor A.elementMax)
    (bandCols bandStart : ℕ) :
    windowBand o P A.rowsPadded A.query rowStart rowEnd
        (((partialProduct P.q A.db A.rowsPadded A.cols A.query rowStart).drop bandStart).take
          bandCols, (A.db.drop (bandStart * A.rowsPadded)).take (bandCols * A.rowsPadded)) =
      .ok (((partialProduct P.q A.db A.rowsPadded A.cols A.query rowEnd).drop bandStart).take
        bandCols) := by
  unfold windowBand partialProduct
  refine mapM_zipIdx_eq_ok (by simp) fun bandCol hcol hcol' => ?_
  have hlt : bandCol < bandCols := by
    simp only [List.length_take] at hcol
    omega
  simp only [List.getElem_take, List.getElem_drop, List.getElem_map, List.getElem_range]
  exact columnWindow_ok o P A hnarrow (fun row hrow => dbAt_band hlt hrow) hle hend hlen

theorem length_partialProduct (q : ℕ) (db : List T) (rowsPadded cols : ℕ) (query : List UInt64)
    (rows : ℕ) : (partialProduct q db rowsPadded cols query rows).length = cols := by
  rw [partialProduct, List.length_map, List.length_range]

/-- No rows, no sum. -/
theorem partialProduct_zero (q : ℕ) (db : List T) (rowsPadded cols : ℕ) (query : List UInt64) :
    partialProduct q db rowsPadded cols query 0 = List.replicate cols 0 := by
  unfold partialProduct columnSum
  simp

/-- **The chunked kernel returns the product.** -/
theorem chunked_spec (K : ChunkedSplitKernel) (o : Overflow) (threads : ℕ) (P : RlweParams)
    (A : Operands T) :
    K.multiplyQuery o threads P A.db A.rowsPadded A.cols A.query A.elementMax A.out =
      .ok (product P.q A.db A.rowsPadded A.cols A.query) := by
  rw [ChunkedSplitKernel.multiplyQuery, A.assertShapes_ok, ok_bind]
  split
  · exact scalarFallback_ok o P A
  · rename_i hnarrow
    dsimp only
    rw [A.out_length, ← partialProduct_zero P.q A.db A.rowsPadded A.cols A.query]
    refine windowLoop_ok (partialProduct P.q A.db A.rowsPadded A.cols A.query) fun rowStart hlt =>
      ?_
    have hband := bandCols_pos T threads A.rowsPadded A.cols
    generalize bandCols T threads A.rowsPadded A.cols = bandCols at hband ⊢
    have hrows : 0 < A.rowsPadded := Nat.zero_lt_of_lt hlt
    have hwindow : min (rowStart + K.window A.elementMax A.rowsPadded) A.rowsPadded - rowStart ≤
        maxSafeChunkRowsFor A.elementMax := by
      have hsafe := maxSafeChunkRowsFor_pos A.elementMax
      unfold ChunkedSplitKernel.window
      omega
    have hout := (length_partialProduct P.q A.db A.rowsPadded A.cols A.query rowStart).le
    have hdb : A.db.length ≤ A.cols * A.rowsPadded := (A.db_length.trans (mul_comm _ _)).le
    rw [List.take_of_length_le hout, List.take_of_length_le hdb, parChunks, if_neg hband.ne',
      ok_bind, parChunks, if_neg (Nat.mul_pos hband hrows).ne', ok_bind,
      mapM_zip_chunks hrows (by rw [length_partialProduct, A.db_length, mul_comm])
        (by rw [length_partialProduct, length_partialProduct])
        (fun bandStart _ => windowBand_ok o P A hnarrow (le_min (Nat.le_add_right _ _) hlt.le)
          (min_le_right _ _) hwindow bandCols bandStart), ok_bind]
    exact congrArg Except.ok (flatten_chunks hband _)

end Kernels

end SimplePirKernel
