import IpirSp.Loops.Tiles
import IpirSp.SimplePirKernel.Backend
import Mathlib.Data.UInt

/-!
# Loading the database

The server stores its database column by column and loads it from an iterator that runs row by row.
It stages a tile of rows at a time and scatters the tile column by column, in blocks of columns.
The staging area is not cleared between tiles, so the last tile leaves rows of an earlier one behind
it.

`ingestTile_ok` is one tile, `ingestRowMajor_ok` the whole loop and `ingestTransposed_ok` the plain
loop for input that is in the order of the server already.  `IsColumnMajor` determines the stored
words, so that `tryWithKernel` builds the same database from both.
-/

namespace SimplePir

open Inspiring Loops SimplePirKernel

/-- `YpirSchemeParams`, as far as the database depends on it. -/
structure DatabaseShape where
  dbRows : ℕ
  dbCols : ℕ

/-- `db_rows_padded_simplepir`. -/
def DatabaseShape.dbRowsPaddedSimplepir (params : DatabaseShape) : ℕ := params.dbRows

/-- `INGEST_ROW_TILE`. -/
def ingestRowTile : ℕ := 64

/-- `INGEST_COL_TILE`. -/
def ingestColTile : ℕ := 512

/-- The overwriting of a slice, which panics where the slice ends past the end. -/
def writeSlice {ε α : Type} (l : List α) (start : ℕ) (values : List α) :
    Except (Failure ε) (List α) :=
  if start + values.length ≤ l.length then .ok (splice l start values)
  else .error (.panic "slice out of range")

section Ingest

variable {T σ : Type} [ToU64 T] [Zero T]

/-- `take`: the next element, the iterator and the element maximum. -/
def take (next : σ → Result (Option T × σ)) (db : σ) (elementMax : ℕ) : Result (T × σ × ℕ) := do
  let (value, db) ← next db
  match value with
  | none => .error (.panic "database is too short")
  | some value => .ok (value, db, max elementMax (ToU64.toU64 value))

/-- The loop that fills the first slots of the staging area. -/
def takeMany (next : σ → Result (Option T × σ)) : ℕ → σ → ℕ → Result (List T × σ × ℕ)
  | 0, db, elementMax => .ok ([], db, elementMax)
  | count + 1, db, elementMax => do
      let (value, db, elementMax) ← take next db elementMax
      let (values, db, elementMax) ← takeMany next count db elementMax
      .ok (value :: values, db, elementMax)

/-- What `ingest_row_major` carries from tile to tile. -/
structure IngestState (T σ : Type) where
  db : σ
  stored : List T
  staging : List T
  elementMax : ℕ

/-- One turn of the loop of `ingest_row_major`: the rows from `rowBase` to `rowEnd`. -/
def ingestTile (next : σ → Result (Option T × σ)) (cols paddedRows rowBase rowEnd : ℕ)
    (state : IngestState T σ) : Result (IngestState T σ) := do
  let tileRows := rowEnd - rowBase
  let (values, db, elementMax) ← takeMany next (tileRows * cols) state.db state.elementMax
  let staging ← writeSlice state.staging 0 values
  let stored ← (blockStarts cols ingestColTile).foldlM (fun stored colBase =>
    (blockRange cols ingestColTile colBase).foldlM (fun stored col =>
      writeSlice stored (col * paddedRows + rowBase)
        ((List.range tileRows).map fun offset => staging.getD (offset * cols + col) 0))
      stored) state.stored
  .ok ⟨db, stored, staging, elementMax⟩

/-- `ingest_row_major`: the iterator, the storage and the element maximum. -/
def ingestRowMajor (next : σ → Result (Option T × σ)) (db : σ) (stored : List T)
    (rows cols paddedRows elementMax : ℕ) : Result (σ × List T × ℕ) :=
  if rows = 0 ∨ cols = 0 then .ok (db, stored, elementMax)
  else do
    let staging := List.replicate (ingestRowTile * cols) 0
    let state ← windowLoop ingestRowTile (by decide) rows (ingestTile next cols paddedRows) 0
      ⟨db, stored, staging, elementMax⟩
    .ok (state.db, state.stored, state.elementMax)

/-- The loop of `try_with_kernel` for input in column-major order. -/
def ingestTransposed (next : σ → Result (Option T × σ)) (db : σ) (stored : List T)
    (rows cols paddedRows elementMax : ℕ) : Result (σ × List T × ℕ) :=
  (List.range cols).foldlM (fun state col =>
    (List.range rows).foldlM (fun (db, stored, elementMax) row => do
      let (value, db, elementMax) ← take next db elementMax
      let stored ← writeSlice stored (col * paddedRows + row) [value]
      .ok (db, stored, elementMax)) state) (db, stored, elementMax)

/-- `SimplePirProfile`. -/
inductive SimplePirProfile
  | p14
  | p16Q46
  | p16Q48
  | p16Q49

/-- `YServer`. -/
structure YServer (T K : Type) where
  params : DatabaseShape
  productionProfile : Option SimplePirProfile
  db : List T
  padRows : Bool
  elementMax : ℕ
  kernel : K

/-- `db_rows_padded`. -/
def YServer.dbRowsPadded {K : Type} (server : YServer T K) : ℕ :=
  if server.padRows then server.params.dbRowsPaddedSimplepir else server.params.dbRows

/-- `try_with_kernel`, with the iterator that it leaves.  The allocation of the storage and the
preparation of the kernel are parameters. -/
def tryWithKernel {K : Type} (next : σ → Result (Option T × σ))
    (tryReserveExact : ℕ → Except String Unit) (tryPrepare : K → List T → ℕ → ℕ → Result K)
    (params : DatabaseShape) (db : σ) (inputIsTransposed padRows : Bool) (kernel : K) :
    Result (YServer T K × σ) :=
  let rows := params.dbRows
  let paddedRows := if padRows then params.dbRowsPaddedSimplepir else rows
  let cols := params.dbCols
  if paddedRows * cols ≥ 2 ^ 64 then .error (.err "database shape overflow")
  else
    match tryReserveExact (paddedRows * cols) with
    | .error e => .error (.err s!"database allocation: {e}")
    | .ok () => do
        let stored := List.replicate (paddedRows * cols) 0
        let (db, stored, elementMax) ←
          if inputIsTransposed then ingestTransposed next db stored rows cols paddedRows 0
          else ingestRowMajor next db stored rows cols paddedRows 0
        let kernel ← tryPrepare kernel stored paddedRows cols
        .ok (⟨params, none, stored, padRows, elementMax, kernel⟩, db)

end Ingest

/-! ## Elements -/

section Elements

variable {T σ : Type} [ToU64 T]

/-- The largest element seen, from an earlier one on. -/
def maxFrom (elementMax : ℕ) (values : List T) : ℕ :=
  values.foldl (fun m value => max m (ToU64.toU64 value)) elementMax

variable {next : σ → Result (Option T × σ)}

/-- **What is taken**: the elements that the iterator emits, in their order. -/
theorem takeMany_ok {values : List T} {s t : σ} (h : Emits next s values t) (elementMax : ℕ) :
    takeMany next values.length s elementMax = .ok (values, t, maxFrom elementMax values) := by
  induction h generalizing elementMax with
  | nil => rfl
  | @cons s t u value values hnext _ ih =>
      have htake : take next s elementMax = .ok (value, t, max elementMax (ToU64.toU64 value)) := by
        rw [take, hnext, ok_bind]
      rw [List.length_cons, takeMany, htake, ok_bind]
      dsimp only
      rw [ih, ok_bind]
      rfl

/-- The maximum of some elements, and zero of none. -/
structure IsLargest (values : List T) (elementMax : ℕ) : Prop where
  le : ∀ value ∈ values, ToU64.toU64 value ≤ elementMax
  attained : values ≠ [] → ∃ value ∈ values, ToU64.toU64 value = elementMax
  empty : values = [] → elementMax = 0

theorem maxFrom_eq (elementMax : ℕ) (values : List T) :
    (∀ value ∈ values, ToU64.toU64 value ≤ maxFrom elementMax values) ∧
      elementMax ≤ maxFrom elementMax values ∧
      (maxFrom elementMax values = elementMax ∨
        ∃ value ∈ values, ToU64.toU64 value = maxFrom elementMax values) := by
  induction values generalizing elementMax with
  | nil => exact ⟨fun value hvalue => absurd hvalue List.not_mem_nil, le_rfl, Or.inl rfl⟩
  | cons value values ih =>
      obtain ⟨hle, hstart, hattained⟩ := ih (max elementMax (ToU64.toU64 value))
      have hfold : maxFrom elementMax (value :: values) =
          maxFrom (max elementMax (ToU64.toU64 value)) values := rfl
      rw [hfold]
      refine ⟨?_, (le_max_left _ _).trans hstart, ?_⟩
      · intro w hw
        rcases List.mem_cons.mp hw with rfl | hw
        · exact (le_max_right _ _).trans hstart
        · exact hle w hw
      · rcases hattained with heq | ⟨w, hw, heq⟩
        · rcases le_total elementMax (ToU64.toU64 value) with hvalue | hvalue
          · exact Or.inr ⟨value, List.mem_cons_self, by rw [heq, max_eq_right hvalue]⟩
          · exact Or.inl (by rw [heq, max_eq_left hvalue])
        · exact Or.inr ⟨w, List.mem_cons_of_mem _ hw, heq⟩

theorem isLargest_maxFrom (values : List T) : IsLargest values (maxFrom 0 values) := by
  obtain ⟨hle, -, hattained⟩ := maxFrom_eq 0 values
  refine ⟨hle, fun hne => ?_, fun hempty => by rw [hempty]; rfl⟩
  rcases hattained with hzero | hvalue
  · obtain ⟨value, hvalue⟩ := List.exists_mem_of_ne_nil values hne
    have hle' := hle value hvalue
    exact ⟨value, hvalue, by omega⟩
  · exact hvalue

/-- Lists with the same elements have the same maximum. -/
theorem IsLargest.unique {values values' : List T} {m m' : ℕ} (h : IsLargest values m)
    (h' : IsLargest values' m') (hsub : ∀ value, value ∈ values ↔ value ∈ values') : m = m' := by
  rcases eq_or_ne values [] with rfl | hne
  · have hempty : values' = [] := by
      by_contra hne'
      obtain ⟨value, hvalue⟩ := List.exists_mem_of_ne_nil values' hne'
      exact List.not_mem_nil ((hsub value).mpr hvalue)
    rw [h.empty rfl, h'.empty hempty]
  · obtain ⟨value, hvalue, rfl⟩ := h.attained hne
    have hne' : values' ≠ [] := List.ne_nil_of_mem ((hsub value).mp hvalue)
    obtain ⟨value', hvalue', rfl⟩ := h'.attained hne'
    exact le_antisymm (h'.le _ ((hsub value).mp hvalue)) (h.le _ ((hsub value').mpr hvalue'))

end Elements

/-! ## One tile -/

section Scatter

variable {T : Type} [Zero T]

theorem writeSlice_ok {ε α : Type} {l values : List α} {start : ℕ}
    (hfit : start + values.length ≤ l.length) :
    (writeSlice l start values : Except (Failure ε) (List α)) = .ok (splice l start values) :=
  if_pos hfit

/-- Some columns have received the rows of a tile. -/
structure Scattered (stored staging : List T) (cols paddedRows rowBase rowEnd done : ℕ)
    (acc : List T) : Prop where
  length : acc.length = paddedRows * cols
  getD : ∀ col < cols, ∀ row < paddedRows, acc.getD (col * paddedRows + row) 0 =
    if col < done ∧ rowBase ≤ row ∧ row < rowEnd then staging.getD ((row - rowBase) * cols + col) 0
    else stored.getD (col * paddedRows + row) 0

/-- One column more. -/
theorem Scattered.column {stored staging acc : List T} {cols paddedRows rowBase rowEnd done : ℕ}
    (h : Scattered stored staging cols paddedRows rowBase rowEnd done acc)
    (hbase : rowBase ≤ rowEnd) (hend : rowEnd ≤ paddedRows) (hdone : done < cols) :
    ∃ out, (writeSlice acc (done * paddedRows + rowBase) ((List.range (rowEnd - rowBase)).map
        fun offset => staging.getD (offset * cols + done) 0) : Result (List T)) = .ok out ∧
      Scattered stored staging cols paddedRows rowBase rowEnd (done + 1) out := by
  have hline : (done + 1) * paddedRows ≤ cols * paddedRows := Nat.mul_le_mul_right _ hdone
  have hfit : done * paddedRows + rowBase + ((List.range (rowEnd - rowBase)).map fun offset =>
      staging.getD (offset * cols + done) 0).length ≤ acc.length := by
    rw [List.length_map, List.length_range, h.length, mul_comm paddedRows]
    rw [Nat.add_mul, one_mul] at hline
    omega
  refine ⟨_, writeSlice_ok hfit, (length_splice hfit).trans h.length, fun col hcol row hrow => ?_⟩
  have hslice : done * paddedRows + rowBase + (rowEnd - rowBase) = done * paddedRows + rowEnd := by
    omega
  rw [getD_splice hfit, List.length_map, List.length_range, hslice,
    if_congr (mem_slice_iff hend hrow) rfl rfl, h.getD col hcol row hrow]
  -- the cell is in the column of this step, in an earlier one or in a later one
  by_cases hthis : col = done ∧ rowBase ≤ row ∧ row < rowEnd
  · obtain ⟨rfl, hlow, hhigh⟩ := hthis
    have hoffset : col * paddedRows + row - (col * paddedRows + rowBase) = row - rowBase := by omega
    have hrange : row - rowBase < rowEnd - rowBase := by omega
    rw [if_pos ⟨rfl, hlow, hhigh⟩, if_pos ⟨Nat.lt_succ_self col, hlow, hhigh⟩, hoffset,
      List.getD_eq_getElem _ _ (by rwa [List.length_map, List.length_range]), List.getElem_map,
      List.getElem_range]
  · rw [if_neg hthis]
    refine if_congr ⟨fun h => ⟨h.1.trans (Nat.lt_succ_self done), h.2⟩, fun h => ⟨?_, h.2⟩⟩ rfl rfl
    exact lt_of_le_of_ne (Nat.lt_succ_iff.mp h.1) fun heq => hthis ⟨heq, h.2⟩

/-- **The scatter of a tile**: every column receives the rows of the tile. -/
theorem scatter_ok {stored : List T} (staging : List T) {cols paddedRows rowBase rowEnd : ℕ}
    (hstored : stored.length = paddedRows * cols) (hbase : rowBase ≤ rowEnd)
    (hend : rowEnd ≤ paddedRows) :
    ∃ out, ((blockStarts cols ingestColTile).foldlM (fun stored colBase =>
        (blockRange cols ingestColTile colBase).foldlM (fun stored col =>
          writeSlice stored (col * paddedRows + rowBase)
            ((List.range (rowEnd - rowBase)).map fun offset =>
              staging.getD (offset * cols + col) 0))
          stored) stored : Result (List T)) = .ok out ∧
      out.length = paddedRows * cols ∧
      ∀ col < cols, ∀ row < paddedRows, out.getD (col * paddedRows + row) 0 =
        if rowBase ≤ row ∧ row < rowEnd then staging.getD ((row - rowBase) * cols + col) 0
        else stored.getD (col * paddedRows + row) 0 := by
  have hnone : Scattered stored staging cols paddedRows rowBase rowEnd 0 stored :=
    ⟨hstored, fun col _ row _ => (if_neg fun h => absurd h.1 (Nat.not_lt_zero col)).symm⟩
  rw [foldlM_blocks (by decide)]
  obtain ⟨out, hout, hall⟩ := foldlM_range (Scattered stored staging cols paddedRows rowBase rowEnd)
    hnone fun done hdone acc hacc => hacc.column hbase hend hdone
  refine ⟨out, hout, hall.length, fun col hcol row hrow => ?_⟩
  rw [hall.getD col hcol row hrow]
  exact if_congr ⟨And.right, fun h => ⟨hcol, h⟩⟩ rfl rfl

/-- The storage in column-major order: the cell of a row and a column, and zero below the rows. -/
structure IsColumnMajor (stored : List T) (cell : ℕ → ℕ → T) (rows cols paddedRows : ℕ) : Prop where
  length : stored.length = paddedRows * cols
  getD : ∀ col < cols, ∀ row < paddedRows,
    stored.getD (col * paddedRows + row) 0 = if row < rows then cell row col else 0

/-- The cells determine the storage. -/
theorem IsColumnMajor.unique {stored stored' : List T} {cell cell' : ℕ → ℕ → T}
    {rows cols paddedRows : ℕ} (h : IsColumnMajor stored cell rows cols paddedRows)
    (h' : IsColumnMajor stored' cell' rows cols paddedRows)
    (hcell : ∀ row < rows, ∀ col < cols, cell row col = cell' row col) : stored = stored' := by
  refine List.ext_getElem (h.length.trans h'.length.symm) fun k hk hk' => ?_
  have hk2 : k < cols * paddedRows := by
    rw [mul_comm, ← h.length]
    exact hk
  have hpadded : 0 < paddedRows := by
    rcases Nat.eq_zero_or_pos paddedRows with rfl | hpos
    · rw [mul_zero] at hk2
      exact absurd hk2 (Nat.not_lt_zero k)
    · exact hpos
  have hcol : k / paddedRows < cols := (Nat.div_lt_iff_lt_mul hpadded).mpr hk2
  have hrow := Nat.mod_lt k hpadded
  have hcells := h.getD _ hcol _ hrow
  have hcells' := h'.getD _ hcol _ hrow
  rw [Nat.div_add_mod', List.getD_eq_getElem _ _ hk] at hcells
  rw [Nat.div_add_mod', List.getD_eq_getElem _ _ hk'] at hcells'
  rw [hcells, hcells']
  split
  · rename_i hlt
    exact hcell _ hlt _ hcol
  · rfl

/-- Some rows of a row-major input. -/
theorem getD_drop_take (values : List T) {cols a b row col : ℕ} (hlow : a ≤ row) (hhigh : row < b)
    (hcol : col < cols) :
    ((values.drop (a * cols)).take ((b - a) * cols)).getD ((row - a) * cols + col) 0 =
      values.getD (row * cols + col) 0 := by
  have hin : (row - a) * cols + col < (b - a) * cols := by
    have hmul : (row - a + 1) * cols ≤ (b - a) * cols := Nat.mul_le_mul_right cols (by omega)
    rw [Nat.add_mul, one_mul] at hmul
    omega
  have hindex : a * cols + ((row - a) * cols + col) = row * cols + col := by
    rw [← add_assoc, ← Nat.add_mul, Nat.add_sub_cancel' hlow]
  rw [List.getD_eq_getElem?_getD, List.getElem?_take, if_pos hin, List.getElem?_drop, hindex,
    List.getD_eq_getElem?_getD]

/-- A transposed input has the elements of the input. -/
theorem mem_of_transposed {values values' : List T} {rows cols : ℕ}
    (hlen : values.length = rows * cols) (hlen' : values'.length = rows * cols)
    (hsame : ∀ row < rows, ∀ col < cols,
      values'.getD (col * rows + row) 0 = values.getD (row * cols + col) 0)
    {value : T} (hvalue : value ∈ values) : value ∈ values' := by
  obtain ⟨i, hi, rfl⟩ := List.getElem_of_mem hvalue
  have hcols : 0 < cols := by
    refine Nat.pos_of_ne_zero fun hzero => ?_
    rw [hlen, hzero, mul_zero] at hi
    exact Nat.not_lt_zero i hi
  have hrow : i / cols < rows := (Nat.div_lt_iff_lt_mul hcols).mpr (hlen ▸ hi)
  have hcol := Nat.mod_lt i hcols
  have hin : i % cols * rows + i / cols < values'.length := by
    have hmul : (i % cols + 1) * rows ≤ cols * rows := Nat.mul_le_mul_right rows hcol
    rw [Nat.add_mul, one_mul] at hmul
    rw [hlen', mul_comm rows]
    omega
  have hcell := hsame _ hrow _ hcol
  rw [Nat.div_add_mod', List.getD_eq_getElem _ _ hi, List.getD_eq_getElem _ _ hin] at hcell
  rw [← hcell]
  exact List.getElem_mem hin

end Scatter

section Runs

variable {T σ : Type} [ToU64 T] [Zero T] {next : σ → Result (Option T × σ)}

/-- **One tile** takes its rows from the iterator and leaves every other cell alone. -/
theorem ingestTile_ok {cols paddedRows rowBase rowEnd : ℕ} {state : IngestState T σ}
    (hstored : state.stored.length = paddedRows * cols)
    (hstaging : state.staging.length = ingestRowTile * cols) (hbase : rowBase ≤ rowEnd)
    (htile : rowEnd ≤ rowBase + ingestRowTile) (hend : rowEnd ≤ paddedRows)
    {values : List T} {t : σ}
    (hlen : values.length = (rowEnd - rowBase) * cols) (hrun : Emits next state.db values t) :
    ∃ out, ingestTile next cols paddedRows rowBase rowEnd state = .ok out ∧ out.db = t ∧
      out.elementMax = maxFrom state.elementMax values ∧ out.stored.length = paddedRows * cols ∧
      out.staging.length = ingestRowTile * cols ∧
      ∀ col < cols, ∀ row < paddedRows, out.stored.getD (col * paddedRows + row) 0 =
        if rowBase ≤ row ∧ row < rowEnd then values.getD ((row - rowBase) * cols + col) 0
        else state.stored.getD (col * paddedRows + row) 0 := by
  have hfit : 0 + values.length ≤ state.staging.length := by
    rw [hlen, hstaging, zero_add]
    exact Nat.mul_le_mul_right cols (by omega)
  obtain ⟨stored, hscatter, hlenOut, hcells⟩ :=
    scatter_ok (splice state.staging 0 values) hstored hbase hend
  refine ⟨⟨t, stored, splice state.staging 0 values, maxFrom state.elementMax values⟩, ?_, rfl, rfl,
    hlenOut, (length_splice hfit).trans hstaging, fun col hcol row hrow => ?_⟩
  · rw [ingestTile]
    dsimp only
    rw [← hlen, takeMany_ok hrun, ok_bind]
    dsimp only
    rw [writeSlice_ok hfit, ok_bind, hscatter, ok_bind]
  · rw [hcells col hcol row hrow]
    split
    · rename_i hrow'
      -- the cell was staged in this tile, not in an earlier one
      have hstaged : (row - rowBase) * cols + col < values.length := by
        have hmul : (row - rowBase + 1) * cols ≤ (rowEnd - rowBase) * cols :=
          Nat.mul_le_mul_right cols (by omega)
        rw [Nat.add_mul, one_mul] at hmul
        rw [hlen]
        omega
      rw [getD_splice hfit, if_pos ⟨Nat.zero_le _, by rwa [zero_add]⟩, Nat.sub_zero]
    · rfl

/-- What the loop over the tiles has done after some rows. -/
structure Loaded (next : σ → Result (Option T × σ)) (values : List T) (t : σ)
    (cols paddedRows done : ℕ) (state : IngestState T σ) : Prop where
  run : Emits next state.db (values.drop (done * cols)) t
  largest : state.elementMax = maxFrom 0 (values.take (done * cols))
  stored_length : state.stored.length = paddedRows * cols
  staging_length : state.staging.length = ingestRowTile * cols
  getD : ∀ col < cols, ∀ row < paddedRows, state.stored.getD (col * paddedRows + row) 0 =
    if row < done then values.getD (row * cols + col) 0 else 0

/-- Before the first tile. -/
theorem loaded_zero (cols paddedRows : ℕ) {s t : σ} {values : List T}
    (hrun : Emits next s values t) : Loaded next values t cols paddedRows 0
      ⟨s, List.replicate (paddedRows * cols) 0, List.replicate (ingestRowTile * cols) 0, 0⟩ where
  run := by rwa [zero_mul, List.drop_zero]
  largest := by
    rw [zero_mul, List.take_zero]
    rfl
  stored_length := List.length_replicate
  staging_length := List.length_replicate
  getD col _ row _ := by
    rw [if_neg (Nat.not_lt_zero row), List.getD_eq_getElem?_getD,
      List.getElem?_getD_replicate_default_eq]

/-- **One tile more.** -/
theorem Loaded.tile {rows cols paddedRows base : ℕ} {state : IngestState T σ}
    {values : List T} {t : σ}
    (h : Loaded next values t cols paddedRows base state) (hbase : base < rows)
    (hpadded : rows ≤ paddedRows) (hlen : values.length = rows * cols) :
    ∃ out, ingestTile next cols paddedRows base (min (base + ingestRowTile) rows) state = .ok out ∧
      Loaded next values t cols paddedRows (min (base + ingestRowTile) rows) out := by
  set stop := min (base + ingestRowTile) rows with hstop
  have hle : base ≤ stop := le_min (Nat.le_add_right _ _) hbase.le
  have hcount : base * cols + (stop - base) * cols = stop * cols := by
    rw [← Nat.add_mul, Nat.add_sub_cancel' hle]
  have hstopLen : stop * cols ≤ values.length := by
    rw [hlen]
    exact Nat.mul_le_mul_right cols (min_le_right _ _)
  -- the input that is left is the rows of this tile and those after it
  have hsplit : values.drop (base * cols) =
      (values.drop (base * cols)).take ((stop - base) * cols) ++ values.drop (stop * cols) := by
    rw [← hcount, ← List.drop_drop, List.take_append_drop]
  have htake : values.take (stop * cols) =
      values.take (base * cols) ++ (values.drop (base * cols)).take ((stop - base) * cols) := by
    rw [← hcount, List.take_add]
  have hrun := h.run
  rw [hsplit] at hrun
  obtain ⟨u, hfirst, hrest⟩ := hrun.split
  have htileLen : ((values.drop (base * cols)).take ((stop - base) * cols)).length =
      (stop - base) * cols := by
    rw [List.length_take, List.length_drop]
    omega
  obtain ⟨out, hout, rfl, hmax, hstored, hstaging, hcells⟩ := ingestTile_ok h.stored_length
    h.staging_length hle (min_le_left _ _) ((min_le_right _ _).trans hpadded) htileLen hfirst
  refine ⟨out, hout, hrest, ?_, hstored, hstaging, fun col hcol row hrow => ?_⟩
  · rw [hmax, h.largest, htake, maxFrom, maxFrom, maxFrom, List.foldl_append]
  · rw [hcells col hcol row hrow, h.getD col hcol row hrow]
    by_cases hthis : base ≤ row ∧ row < stop
    · rw [if_pos hthis, if_pos hthis.2, getD_drop_take values hthis.1 hthis.2 hcol]
    · rw [if_neg hthis]
      refine if_congr ⟨fun hrow' => hrow'.trans_le hle, fun hrow' => ?_⟩ rfl rfl
      exact not_le.mp fun hlow => hthis ⟨hlow, hrow'⟩

/-- **Row-major input**: the loop over the tiles. -/
theorem ingestRowMajor_ok {rows cols paddedRows : ℕ} (hpadded : rows ≤ paddedRows) {s t : σ}
    {values : List T} (hrun : Emits next s values t) (hlen : values.length = rows * cols) :
    ∃ stored, ingestRowMajor next s (List.replicate (paddedRows * cols) 0) rows cols paddedRows 0 =
        .ok (t, stored, maxFrom 0 values) ∧
      IsColumnMajor stored (fun row col => values.getD (row * cols + col) 0) rows cols
        paddedRows := by
  have hstart := loaded_zero cols paddedRows hrun
  rw [ingestRowMajor]
  split
  · rename_i hempty
    -- nothing is read and nothing is written
    have hnone : values = [] := by
      refine List.length_eq_zero_iff.mp ?_
      rcases hempty with rfl | rfl
      · rw [hlen, zero_mul]
      · rw [hlen, mul_zero]
    obtain rfl : s = t := by
      rw [hnone] at hrun
      cases hrun
      rfl
    refine ⟨_, by rw [hnone]; rfl, hstart.stored_length, fun col hcol row hrow => ?_⟩
    rcases hempty with rfl | rfl
    · exact (hstart.getD col hcol row hrow).trans (if_neg (Nat.not_lt_zero row) |>.trans
        (if_neg (Nat.not_lt_zero row)).symm)
    · exact absurd hcol (Nat.not_lt_zero col)
  · have hloop : ∃ out, windowLoop ingestRowTile (by decide) rows
        (ingestTile next cols paddedRows) 0
        ⟨s, List.replicate (paddedRows * cols) 0, List.replicate (ingestRowTile * cols) 0, 0⟩ =
          .ok out ∧ Loaded next values t cols paddedRows rows out :=
      windowLoop_inv (Loaded next values t cols paddedRows)
        (fun base hbase acc hacc => hacc.tile hbase hpadded hlen) (Nat.zero_le rows) hstart
    obtain ⟨out, hout, hloaded⟩ := hloop
    have hend : out.db = t := by
      have hrest := hloaded.run
      rw [← hlen, List.drop_length] at hrest
      cases hrest
      rfl
    refine ⟨out.stored, ?_, hloaded.stored_length, hloaded.getD⟩
    dsimp only
    rw [hout, ok_bind, hend, hloaded.largest, ← hlen, List.take_length]

/-- What the plain loop has done after some elements of an input in column-major order. -/
structure Taken (next : σ → Result (Option T × σ)) (values : List T) (t : σ)
    (rows cols paddedRows done : ℕ) (state : σ × List T × ℕ) : Prop where
  run : Emits next state.1 (values.drop done) t
  largest : state.2.2 = maxFrom 0 (values.take done)
  stored_length : state.2.1.length = paddedRows * cols
  getD : ∀ col < cols, ∀ row < paddedRows, state.2.1.getD (col * paddedRows + row) 0 =
    if row < rows ∧ col * rows + row < done then values.getD (col * rows + row) 0 else 0

/-- One element more. -/
theorem Taken.element {values : List T} {t : σ} {rows cols paddedRows col row : ℕ}
    {state : σ × List T × ℕ} (h : Taken next values t rows cols paddedRows (col * rows + row) state)
    (hcol : col < cols) (hrow : row < rows) (hpadded : rows ≤ paddedRows)
    (hlen : values.length = rows * cols) :
    ∃ out, (do
        let (value, db, elementMax) ← take next state.1 state.2.2
        let stored ← writeSlice state.2.1 (col * paddedRows + row) [value]
        .ok (db, stored, elementMax) : Result (σ × List T × ℕ)) = .ok out ∧
      Taken next values t rows cols paddedRows (col * rows + (row + 1)) out := by
  have hin : col * rows + row < values.length := by
    have hmul : (col + 1) * rows ≤ cols * rows := Nat.mul_le_mul_right rows hcol
    rw [Nat.add_mul, one_mul] at hmul
    rw [hlen, mul_comm rows]
    omega
  have hrun := h.run
  rw [List.drop_eq_getElem_cons hin] at hrun
  obtain ⟨u, hnext, hrest⟩ : ∃ u, next state.1 = .ok (some values[col * rows + row], u) ∧
      Emits next u (values.drop (col * rows + row + 1)) t := by
    cases hrun with
    | cons hnext hrest => exact ⟨_, hnext, hrest⟩
  have htake : take next state.1 state.2.2 =
      .ok (values[col * rows + row], u, max state.2.2 (ToU64.toU64 values[col * rows + row])) := by
    rw [take, hnext, ok_bind]
  have hfit : col * paddedRows + row + [values[col * rows + row]].length ≤ state.2.1.length := by
    have hline : (col + 1) * paddedRows ≤ cols * paddedRows := Nat.mul_le_mul_right _ hcol
    rw [Nat.add_mul, one_mul] at hline
    rw [h.stored_length, List.length_singleton, mul_comm paddedRows]
    omega
  refine ⟨(u, splice state.2.1 (col * paddedRows + row) [values[col * rows + row]],
    max state.2.2 (ToU64.toU64 values[col * rows + row])), ?_, ?_⟩
  · rw [htake, ok_bind]
    dsimp only
    rw [writeSlice_ok hfit, ok_bind]
  refine ⟨hrest, ?_, (length_splice hfit).trans h.stored_length, fun col' hcol' row' hrow' => ?_⟩
  · show max state.2.2 _ = _
    rw [h.largest, ← Nat.add_assoc, List.take_add_one, maxFrom, maxFrom, List.foldl_append,
      List.getElem?_eq_getElem hin]
    rfl
  · show (splice state.2.1 (col * paddedRows + row) [values[col * rows + row]]).getD _ 0 = _
    rw [getD_splice hfit, List.length_singleton, add_assoc,
      if_congr (mem_slice_iff (by omega) hrow') rfl rfl, h.getD col' hcol' row' hrow']
    by_cases hthis : col' = col ∧ row' = row
    · obtain ⟨rfl, rfl⟩ := hthis
      rw [if_pos ⟨rfl, le_rfl, Nat.lt_succ_self _⟩, if_pos ⟨hrow, by omega⟩, Nat.sub_self,
        List.getD_cons_zero, List.getD_eq_getElem _ _ hin]
    · rw [if_neg fun heq => hthis ⟨heq.1, by omega⟩]
      refine if_congr ⟨fun hold => ⟨hold.1, by omega⟩, fun hnew => ⟨hnew.1, ?_⟩⟩ rfl rfl
      -- a cell of the input is not the one of this step
      by_contra hlast
      have hslice : col * rows + row ≤ col' * rows + row' ∧
          col' * rows + row' < col * rows + (row + 1) := ⟨by omega, hnew.2⟩
      have hcell := (mem_slice_iff (by omega) hnew.1).mp hslice
      exact hthis ⟨hcell.1, by omega⟩

/-- **Input in the order of the server**: the plain loop. -/
theorem ingestTransposed_ok {rows cols paddedRows : ℕ} (hpadded : rows ≤ paddedRows) {s t : σ}
    {values : List T} (hrun : Emits next s values t) (hlen : values.length = rows * cols) :
    ∃ stored, ingestTransposed next s (List.replicate (paddedRows * cols) 0) rows cols
      paddedRows 0 =
        .ok (t, stored, maxFrom 0 values) ∧
      IsColumnMajor stored (fun row col => values.getD (col * rows + row) 0) rows cols
        paddedRows := by
  have hstart : Taken next values t rows cols paddedRows (0 * rows)
      (s, List.replicate (paddedRows * cols) 0, 0) := by
    refine ⟨by rwa [zero_mul, List.drop_zero], ?_, List.length_replicate, fun col _ row _ => ?_⟩
    · rw [zero_mul, List.take_zero]
      rfl
    · rw [zero_mul, if_neg fun h => absurd h.2 (Nat.not_lt_zero _), List.getD_eq_getElem?_getD,
        List.getElem?_getD_replicate_default_eq]
  obtain ⟨⟨db, stored, elementMax⟩, hout, htaken⟩ := foldlM_range
    (fun col => Taken next values t rows cols paddedRows (col * rows)) hstart
    fun col hcol acc hacc => by
      have hfirst : Taken next values t rows cols paddedRows (col * rows + 0) acc := hacc
      obtain ⟨out, hout, htaken⟩ := foldlM_range
        (fun row => Taken next values t rows cols paddedRows (col * rows + row)) hfirst
        fun row hrow acc hacc => hacc.element hcol hrow hpadded hlen
      rw [← Nat.succ_mul] at htaken
      exact ⟨out, hout, htaken⟩
  have hall : cols * rows = values.length := by rw [hlen, mul_comm]
  have hrest := htaken.run
  rw [hall, List.drop_length] at hrest
  obtain rfl : db = t := by
    cases hrest
    rfl
  obtain rfl : elementMax = maxFrom 0 values := by
    have hlargest := htaken.largest
    rwa [hall, List.take_length] at hlargest
  refine ⟨stored, hout, htaken.stored_length, fun col hcol row hrow => ?_⟩
  rw [htaken.getD col hcol row hrow]
  refine if_congr ⟨And.left, fun hlt => ⟨hlt, ?_⟩⟩ rfl rfl
  have hmul : (col + 1) * rows ≤ cols * rows := Nat.mul_le_mul_right rows hcol
  rw [Nat.add_mul, one_mul] at hmul
  omega

/-- **Both inputs give one database.** -/
theorem exists_database {σ' : Type} {next' : σ' → Result (Option T × σ')} {rows cols paddedRows : ℕ}
    (hpadded : rows ≤ paddedRows) {s t : σ} {values : List T} (hrun : Emits next s values t)
    (hlen : values.length = rows * cols) {s' t' : σ'} {values' : List T}
    (hrun' : Emits next' s' values' t') (hlen' : values'.length = rows * cols)
    (hsame : ∀ row < rows, ∀ col < cols,
      values'.getD (col * rows + row) 0 = values.getD (row * cols + col) 0) :
    ∃ stored elementMax,
      ingestRowMajor next s (List.replicate (paddedRows * cols) 0) rows cols paddedRows 0 =
        .ok (t, stored, elementMax) ∧
      ingestTransposed next' s' (List.replicate (paddedRows * cols) 0) rows cols paddedRows 0 =
        .ok (t', stored, elementMax) ∧
      IsColumnMajor stored (fun row col => values.getD (row * cols + col) 0) rows cols paddedRows ∧
      IsLargest values elementMax := by
  obtain ⟨stored, hrowMajor, hcells⟩ := ingestRowMajor_ok hpadded hrun hlen
  obtain ⟨stored', htransposed, hcells'⟩ := ingestTransposed_ok hpadded hrun' hlen'
  have hstored : stored' = stored := hcells'.unique hcells hsame
  have hmem (value : T) : value ∈ values' ↔ value ∈ values :=
    ⟨mem_of_transposed (by rw [hlen', mul_comm]) (by rw [hlen, mul_comm])
      fun col hcol row hrow => (hsame row hrow col hcol).symm, mem_of_transposed hlen hlen' hsame⟩
  have hmax := (isLargest_maxFrom values').unique (isLargest_maxFrom values) hmem
  rw [hstored, hmax] at htransposed
  exact ⟨stored, maxFrom 0 values, hrowMajor, htransposed, hcells, isLargest_maxFrom values⟩

/-- **The database is loaded as a plain scatter would load it.**  For every number of padded rows
the tiled loop consumes exactly the elements of the rows, stores each in its cell and zero below the
rows, and reports the largest; the plain loop over the transposed input ends with the same database,
and so do the servers that are built from the two. -/
theorem ingest_eq_scatter {σ' : Type} (next : σ → Result (Option T × σ))
    (next' : σ' → Result (Option T × σ')) (rows cols : ℕ) (s t : σ) (values : List T)
    (hrun : Emits next s values t) (hlen : values.length = rows * cols) (s' t' : σ')
    (values' : List T) (hrun' : Emits next' s' values' t') (hlen' : values'.length = rows * cols)
    (hsame : ∀ row < rows, ∀ col < cols,
      values'.getD (col * rows + row) 0 = values.getD (row * cols + col) 0) :
    (∀ paddedRows, rows ≤ paddedRows → ∃ stored elementMax,
      ingestRowMajor next s (List.replicate (paddedRows * cols) 0) rows cols paddedRows 0 =
        .ok (t, stored, elementMax) ∧
      ingestTransposed next' s' (List.replicate (paddedRows * cols) 0) rows cols paddedRows 0 =
        .ok (t', stored, elementMax) ∧
      IsColumnMajor stored (fun row col => values.getD (row * cols + col) 0) rows cols paddedRows ∧
      IsLargest values elementMax) ∧
    ∀ (K : Type) (tryReserveExact : ℕ → Except String Unit)
      (tryPrepare : K → List T → ℕ → ℕ → Result K) (padRows : Bool) (kernel : K),
      rows * cols < 2 ^ 64 → tryReserveExact (rows * cols) = .ok () →
      ∃ stored elementMax,
        (tryWithKernel next tryReserveExact tryPrepare ⟨rows, cols⟩ s false padRows kernel = do
          let kernel ← tryPrepare kernel stored rows cols
          .ok (⟨⟨rows, cols⟩, none, stored, padRows, elementMax, kernel⟩, t)) ∧
        (tryWithKernel next' tryReserveExact tryPrepare ⟨rows, cols⟩ s' true padRows kernel = do
          let kernel ← tryPrepare kernel stored rows cols
          .ok (⟨⟨rows, cols⟩, none, stored, padRows, elementMax, kernel⟩, t')) ∧
        IsColumnMajor stored (fun row col => values.getD (row * cols + col) 0) rows cols rows ∧
        IsLargest values elementMax := by
  refine ⟨fun paddedRows hpadded => exists_database hpadded hrun hlen hrun' hlen' hsame,
    fun K tryReserveExact tryPrepare padRows kernel hfit hreserve => ?_⟩
  obtain ⟨stored, elementMax, hrowMajor, htransposed, hcells, hlargest⟩ :=
    exists_database le_rfl hrun hlen hrun' hlen' hsame
  refine ⟨stored, elementMax, ?_, ?_, hcells, hlargest⟩
  · have hpadded : (if padRows then DatabaseShape.dbRowsPaddedSimplepir ⟨rows, cols⟩ else rows) =
        rows := ite_self rows
    rw [tryWithKernel]
    dsimp only
    rw [hpadded, if_neg (not_le.mpr hfit), hreserve]
    dsimp only
    rw [if_neg Bool.false_ne_true, hrowMajor, ok_bind]
  · have hpadded : (if padRows then DatabaseShape.dbRowsPaddedSimplepir ⟨rows, cols⟩ else rows) =
        rows := ite_self rows
    rw [tryWithKernel]
    dsimp only
    rw [hpadded, if_neg (not_le.mpr hfit), hreserve]
    dsimp only
    rw [if_pos rfl, htransposed, ok_bind]

end Runs

/-- The iterator of a vector. -/
def vecIter {T : Type} : List T → Result (Option T × List T)
  | [] => .ok (none, [])
  | value :: rest => .ok (some value, rest)

theorem emits_vecIter {T : Type} (values rest : List T) :
    Emits vecIter (values ++ rest) values rest := by
  induction values with
  | nil => exact .nil rest
  | cons value values ih => exact .cons rfl ih

/-- Two rows of three in a storage of three rows, with one element that is not consumed. -/
theorem ingest_eq_scatter_small : ∃ stored elementMax,
    ingestRowMajor vecIter [1, 2, 3, 4, 5, 6, 9] (List.replicate (3 * 3) 0) 2 3 3 0 =
      .ok ([9], stored, elementMax) ∧
    IsColumnMajor stored (fun row col => ([1, 2, 3, 4, 5, 6] : List UInt8).getD (row * 3 + col) 0)
      2 3 3 ∧
    IsLargest ([1, 2, 3, 4, 5, 6] : List UInt8) elementMax := by
  obtain ⟨stored, elementMax, hrowMajor, -, hcells, hlargest⟩ :=
    (ingest_eq_scatter vecIter vecIter 2 3 _ _ ([1, 2, 3, 4, 5, 6] : List UInt8)
      (emits_vecIter [1, 2, 3, 4, 5, 6] [9]) (by decide) _ _ [1, 4, 2, 5, 3, 6]
      (emits_vecIter [1, 4, 2, 5, 3, 6] []) (by decide) (by decide)).1 3 (by decide)
  exact ⟨stored, elementMax, hrowMajor, hcells, hlargest⟩

end SimplePir
