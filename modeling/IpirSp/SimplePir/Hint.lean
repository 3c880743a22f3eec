import IpirSp.Inspiring.Preprocess
import IpirSp.SimplePir.Ingest

/-!
# Hint columns and CRS blocks

The offline phase multiplies the database by the query masks, one column at a time in the transform
domain.  A CRS block is a group of `d` columns.  The server assembles the blocks from the columns;
the older path lays the columns out as the rows of a `d × cols` hint, tile by tile, and cuts the
blocks out again.  `performOffline_eq` is that the two are the same function.
-/

namespace SimplePir

open Negacyclic Inspiring SpiralRs Loops SimplePirKernel

/-- `HINT_TILE`. -/
def hintTile : ℕ := 256

/-- `CrsBlock`. -/
structure CrsBlock where
  rows : List (List ℕ)
deriving DecidableEq

/-- `OfflinePrecomputedValues`. -/
structure OfflinePrecomputedValues where
  crsBlocks : List CrsBlock
deriving DecidableEq

/-- The reading of a slice, which panics where the slice ends past the end. -/
def readSlice {α : Type} (l : List α) (start count : ℕ) : Outcome (List α) :=
  if start + count ≤ l.length then .ok ((l.drop start).take count)
  else .error (.panic "slice out of range")

/-- `expect`. -/
def expect {α : Type} (call : Outcome α) (msg : String) : Outcome α :=
  match call with
  | .ok a => .ok a
  | .error _ => .error (.panic msg)

section Masks

variable (P : RlweParams)

/-- `reference_mask_coeffs`. -/
def referenceMaskCoeffs (maskSeed : Seed) : List (List ℕ) :=
  (List.range P.gadget.ell).map fun col => List.ofFn (referenceMaskRaw P maskSeed col)

/-- The closure `negate`. -/
def negate (q : ℕ) (poly : List ℕ) : List ℕ := poly.map fun c => if c = 0 then 0 else q - c

/-- The closure `invert`. -/
def invert (q : ℕ) (poly : List ℕ) : List ℕ :=
  (List.range poly.length).map fun idx =>
    if idx = 0 then poly.getD 0 0
    else
      let c := poly.getD (poly.length - idx) 0
      if c = 0 then 0 else q - c

/-- `verify_query_masks_distinct_from_key_masks`. -/
def verifyQueryMasksDistinctFromKeyMasks (queryPolys : List (List ℕ)) : Outcome Unit := do
  let kg := referenceMaskCoeffs P REFERENCE_W_SEED
  let kh := referenceMaskCoeffs P REFERENCE_V_SEED
  kg.zipIdx.forM fun (g, gIdx) => kh.zipIdx.forM fun (h, hIdx) =>
    if g = h then mismatch s!"K_g mask {gIdx} equals K_h mask {hIdx}" else .ok ()
  queryPolys.zipIdx.forM fun (poly, polyIdx) => do
    if poly.length ≠ P.d then
      mismatch (s!"query polynomial {polyIdx} has {poly.length} coefficients, " ++
        s!"expected {P.d}")
    else
      let reduced := poly.map (· % P.q)
      let inverse := invert P.q reduced
      let images := [("a", reduced), ("-a", negate P.q reduced), ("a(X^-1)", inverse),
        ("-a(X^-1)", negate P.q inverse)]
      [("K_g", kg), ("K_h", kh)].forM fun (family, masks) =>
        masks.zipIdx.forM fun (mask, maskIdx) => images.forM fun (image, candidate) =>
          if candidate = mask then
            mismatch (s!"query polynomial {polyIdx} coincides with {family} mask " ++
              s!"{maskIdx} as {image}; choose a different setup seed")
          else .ok ()

/-- `polynomial_to_ntt`. -/
def polynomialToNtt (coeffs : List ℕ) : Ntt P.d P.q :=
  P.spiral.toNttAlloc fun i => coeffs.getD i 0 % P.q

end Masks

section Server

variable {T K : Type} [ToU64 T]

/-- `validate_bound_rlwe`; the comparison with the profile is a parameter. -/
def YServer.validateBoundRlwe
    (validateProfileParts : RlweParams → DatabaseShape → SimplePirProfile → Outcome Unit)
    (server : YServer T K) (P : RlweParams) : Outcome Unit :=
  match server.productionProfile with
  | some profile => validateProfileParts P server.params profile
  | none => .ok ()

/-- `assert_bound_rlwe`. -/
def YServer.assertBoundRlwe
    (validateProfileParts : RlweParams → DatabaseShape → SimplePirProfile → Outcome Unit)
    (server : YServer T K) (P : RlweParams) : Outcome Unit :=
  expect (server.validateBoundRlwe validateProfileParts P)
    "RLWE parameters do not match the server production profile"

/-- `validate_query_polys`. -/
def YServer.validateQueryPolys
    (validateProfileParts : RlweParams → DatabaseShape → SimplePirProfile → Outcome Unit)
    (server : YServer T K) (P : RlweParams) (queryPolys : List (List ℕ)) : Outcome Unit := do
  server.assertBoundRlwe validateProfileParts P
  if ¬server.elementMax < P.q then
    .error (.panic (s!"database elements must be reduced modulo q: max {server.elementMax} " ++
      s!"is not below q {P.q}"))
  else if server.params.dbRows % P.d ≠ 0 then
    .error (.panic "db rows must split into d-row blocks")
  else if queryPolys.length ≠ server.params.dbRows / P.d then
    .error (.panic "one query polynomial is required per d-row DB block")
  else
    queryPolys.forM fun query =>
      if query.length ≠ P.d then .error (.panic "query polynomial must have degree d") else .ok ()

/-- `generate_hint_column_from_query_ntts`. -/
def YServer.generateHintColumnFromQueryNtts (server : YServer T K) (P : RlweParams) (rows col : ℕ)
    (queryNtts : List (Ntt P.d P.q)) : Outcome (List ℕ) := do
  let acc ← queryNtts.zipIdx.foldlM (fun acc (queryNtt, blockIdx) => do
    let rowStart := blockIdx * P.d
    let src ← readSlice server.db (col * rows + rowStart) P.d
    let dbNtt := P.spiral.toNttAlloc fun i => (src[(i : ℕ)]?.map ToU64.toU64).getD 0
    let prod := P.spiral.multiply (fun _ : Fin 1 => queryNtt) fun _ => dbNtt
    .ok (P.spiral.addInto acc prod)) P.spiral.zeroNtt
  .ok (List.ofFn (P.spiral.fromNttAlloc acc))

/-- `generate_hint_columns`. -/
def YServer.generateHintColumns
    (validateProfileParts : RlweParams → DatabaseShape → SimplePirProfile → Outcome Unit)
    (server : YServer T K) (P : RlweParams) (queryPolys : List (List ℕ)) :
    Outcome (List (List ℕ)) := do
  server.validateQueryPolys validateProfileParts P queryPolys
  let rows := server.dbRowsPadded
  let queryNtts := queryPolys.map (polynomialToNtt P)
  (List.range server.params.dbCols).mapM fun col =>
    server.generateHintColumnFromQueryNtts P rows col queryNtts

/-- The loops of `generate_hint_from_query_polys` that lay the columns out. -/
def layOutHint (d cols : ℕ) (columns : List (List ℕ)) : Outcome (List ℕ) :=
  (blockStarts cols hintTile).foldlM (fun hint colBase =>
    let colEnd := min (colBase + hintTile) cols
    (blockStarts d hintTile).foldlM (fun hint coeffBase =>
      (blockRange d hintTile coeffBase).foldlM (fun hint coeff =>
        writeSlice hint (coeff * cols + colBase) ((List.range (colEnd - colBase)).map fun offset =>
          (columns.getD (colBase + offset) []).getD coeff 0)) hint) hint)
    (List.replicate (d * cols) 0)

/-- `generate_hint_from_query_polys`. -/
def YServer.generateHintFromQueryPolys
    (validateProfileParts : RlweParams → DatabaseShape → SimplePirProfile → Outcome Unit)
    (server : YServer T K) (P : RlweParams) (queryPolys : List (List ℕ)) : Outcome (List ℕ) := do
  server.validateQueryPolys validateProfileParts P queryPolys
  let cols := server.params.dbCols
  let rows := server.dbRowsPadded
  let queryNtts := queryPolys.map (polynomialToNtt P)
  let columns ← (List.range cols).mapM fun col =>
    server.generateHintColumnFromQueryNtts P rows col queryNtts
  layOutHint P.d cols columns

/-- `columns.by_ref().take(d).collect()` for each of the blocks. -/
def takeBlocks (d : ℕ) : ℕ → List (List ℕ) → List CrsBlock
  | 0, _ => []
  | blocks + 1, columns => ⟨columns.take d⟩ :: takeBlocks d blocks (columns.drop d)

/-- `perform_offline_precomputation_simplepir`. -/
def YServer.performOfflinePrecomputationSimplepir
    (validateProfileParts : RlweParams → DatabaseShape → SimplePirProfile → Outcome Unit)
    (server : YServer T K) (P : RlweParams) (queryPolys : List (List ℕ)) :
    Outcome OfflinePrecomputedValues := do
  server.assertBoundRlwe validateProfileParts P
  if server.params.dbCols % P.d ≠ 0 then
    .error (.panic "db_cols must split into RLWE blocks")
  else do
    expect (verifyQueryMasksDistinctFromKeyMasks P queryPolys)
      "query masks must not coincide with the fixed packing-key masks"
    let blocks := server.params.dbCols / P.d
    let columns ← server.generateHintColumns validateProfileParts P queryPolys
    .ok ⟨takeBlocks P.d blocks columns⟩

end Server

/-- `extract_crs_block`. -/
def extractCrsBlock (P : RlweParams) (ypir : DatabaseShape) (hint0 : List ℕ) (block : ℕ) :
    Outcome CrsBlock :=
  if hint0.length ≠ P.d * ypir.dbCols then .error (.panic "hint_0 must be poly_len x db_cols")
  else if ¬block < ypir.dbCols / P.d then .error (.panic "CRS block out of bounds")
  else
    let colStart := block * P.d
    .ok ⟨(List.range P.d).map fun crsRow =>
      let hintCol := colStart + crsRow
      (List.range P.d).map fun coeff => hint0.getD (coeff * ypir.dbCols + hintCol) 0 % P.q⟩

/-- `offline_precompute_from_hint`. -/
def offlinePrecomputeFromHint (P : RlweParams) (ypir : DatabaseShape) (hint0 : List ℕ) :
    Outcome OfflinePrecomputedValues :=
  if hint0.length ≠ P.d * ypir.dbCols then .error (.panic "hint_0 must be poly_len x db_cols")
  else if ypir.dbCols % P.d ≠ 0 then .error (.panic "db_cols must split into RLWE blocks")
  else do
    let numRlweOutputs := ypir.dbCols / P.d
    let crsBlocks ← (List.range numRlweOutputs).mapM (extractCrsBlock P ypir hint0)
    .ok ⟨crsBlocks⟩

/-! ## The layout of the hint -/

section Layout

variable {d cols : ℕ} {columns : List (List ℕ)}

/-- Some columns are laid out as a whole, and those of a tile down to some coefficient. -/
structure LaidOut (d cols : ℕ) (columns : List (List ℕ)) (colBase colEnd doneCoeffs : ℕ)
    (hint : List ℕ) : Prop where
  length : hint.length = d * cols
  getD : ∀ coeff < d, ∀ col < cols, hint.getD (coeff * cols + col) 0 =
    if col < colBase ∨ col < colEnd ∧ coeff < doneCoeffs then (columns.getD col []).getD coeff 0
    else 0

/-- One run of a tile more: a coefficient of all its columns. -/
theorem LaidOut.run {colBase colEnd coeff : ℕ} {hint : List ℕ}
    (h : LaidOut d cols columns colBase colEnd coeff hint) (hcoeff : coeff < d)
    (hbase : colBase ≤ colEnd) (hend : colEnd ≤ cols) :
    ∃ out, (writeSlice hint (coeff * cols + colBase) ((List.range (colEnd - colBase)).map
        fun offset => (columns.getD (colBase + offset) []).getD coeff 0) : Outcome (List ℕ)) =
          .ok out ∧
      LaidOut d cols columns colBase colEnd (coeff + 1) out := by
  have hline : (coeff + 1) * cols ≤ d * cols := Nat.mul_le_mul_right cols hcoeff
  have hfit : coeff * cols + colBase + ((List.range (colEnd - colBase)).map fun offset =>
      (columns.getD (colBase + offset) []).getD coeff 0).length ≤ hint.length := by
    rw [List.length_map, List.length_range, h.length]
    rw [Nat.add_mul, one_mul] at hline
    omega
  refine ⟨_, writeSlice_ok hfit, (length_splice hfit).trans h.length, fun coeff' hcoeff' col hcol =>
    ?_⟩
  have hslice : coeff * cols + colBase + (colEnd - colBase) = coeff * cols + colEnd := by omega
  rw [getD_splice hfit, List.length_map, List.length_range, hslice,
    if_congr (mem_slice_iff hend hcol) rfl rfl, h.getD coeff' hcoeff' col hcol]
  by_cases hthis : coeff' = coeff ∧ colBase ≤ col ∧ col < colEnd
  · obtain ⟨rfl, hlow, hhigh⟩ := hthis
    have hoffset : coeff' * cols + col - (coeff' * cols + colBase) = col - colBase := by omega
    have hrange : col - colBase < colEnd - colBase := by omega
    rw [if_pos ⟨rfl, hlow, hhigh⟩, if_pos (Or.inr ⟨hhigh, Nat.lt_succ_self coeff'⟩), hoffset,
      List.getD_eq_getElem _ _ (by rwa [List.length_map, List.length_range]), List.getElem_map,
      List.getElem_range, Nat.add_sub_cancel' hlow]
  · rw [if_neg hthis]
    refine if_congr ⟨fun hold => ?_, fun hnew => ?_⟩ rfl rfl
    · exact hold.imp_right fun hold => ⟨hold.1, hold.2.trans (Nat.lt_succ_self coeff)⟩
    · by_cases hlow : col < colBase
      · exact Or.inl hlow
      · obtain ⟨hhigh, hlt⟩ := hnew.resolve_left hlow
        refine Or.inr ⟨hhigh, lt_of_le_of_ne (Nat.lt_succ_iff.mp hlt) fun heq => ?_⟩
        exact hthis ⟨heq, not_lt.mp hlow, hhigh⟩

/-- **The hint** holds the coefficients of the columns in its rows, for every shape. -/
theorem layOutHint_ok (d cols : ℕ) (columns : List (List ℕ)) :
    ∃ hint, layOutHint d cols columns = .ok hint ∧ hint.length = d * cols ∧
      ∀ coeff < d, ∀ col < cols,
        hint.getD (coeff * cols + col) 0 = (columns.getD col []).getD coeff 0 := by
  have hstart : LaidOut d cols columns 0 0 0 (List.replicate (d * cols) 0) := by
    refine ⟨List.length_replicate, fun coeff _ col _ => ?_⟩
    rw [if_neg (by omega), List.getD_eq_getElem?_getD, List.getElem?_getD_replicate_default_eq]
  have hloop : ∃ hint, layOutHint d cols columns = .ok hint ∧
      LaidOut d cols columns cols cols 0 hint := by
    rw [layOutHint]
    refine foldlM_blockStarts (fun col => LaidOut d cols columns col col 0) (by decide) hstart
      fun colBase hbase acc hacc => ?_
    have hle : colBase ≤ min (colBase + hintTile) cols := le_min (Nat.le_add_right _ _) hbase.le
    have hopen : LaidOut d cols columns colBase (min (colBase + hintTile) cols) 0 acc := by
      refine ⟨hacc.length, fun coeff hcoeff col hcol => ?_⟩
      rw [hacc.getD coeff hcoeff col hcol]
      exact if_congr (by omega) rfl rfl
    dsimp only
    rw [foldlM_blocks (by decide)]
    obtain ⟨out, hout, hdone⟩ := foldlM_range
      (LaidOut d cols columns colBase (min (colBase + hintTile) cols)) hopen
      fun coeff hcoeff acc hacc => hacc.run hcoeff hle (min_le_right _ _)
    refine ⟨out, hout, hdone.length, fun coeff hcoeff col hcol => ?_⟩
    rw [hdone.getD coeff hcoeff col hcol]
    exact if_congr (by omega) rfl rfl
  obtain ⟨hint, hhint, hall⟩ := hloop
  refine ⟨hint, hhint, hall.length, fun coeff hcoeff col hcol => ?_⟩
  rw [hall.getD coeff hcoeff col hcol, if_pos (Or.inl hcol)]

end Layout

/-! ## Blocks -/

/-- The blocks are the groups of `d` columns in their order. -/
theorem takeBlocks_eq (d blocks : ℕ) (columns : List (List ℕ)) :
    takeBlocks d blocks columns =
      (List.range blocks).map fun block => ⟨(columns.drop (block * d)).take d⟩ := by
  induction blocks generalizing columns with
  | zero => rfl
  | succ blocks ih =>
      rw [takeBlocks, ih, List.range_succ_eq_map, List.map_cons, List.map_map, zero_mul,
        List.drop_zero]
      refine congrArg _ (List.map_congr_left fun block _ => ?_)
      rw [Function.comp_apply, List.drop_drop, Nat.succ_mul, Nat.add_comm d]

section Blocks

variable {P : RlweParams} {ypir : DatabaseShape} {columns : List (List ℕ)}

/-- The columns of a database: each of `d` residues. -/
structure AreColumns (P : RlweParams) (ypir : DatabaseShape) (columns : List (List ℕ)) : Prop where
  length : columns.length = ypir.dbCols
  column_length : ∀ column ∈ columns, column.length = P.d
  lt : ∀ column ∈ columns, ∀ x ∈ column, x < P.q

/-- **A block cut out of the hint** is a group of columns. -/
theorem extractCrsBlock_laidOut (h : AreColumns P ypir columns) {hint : List ℕ}
    (hlen : hint.length = P.d * ypir.dbCols)
    (hhint : ∀ coeff < P.d, ∀ col < ypir.dbCols,
      hint.getD (coeff * ypir.dbCols + col) 0 = (columns.getD col []).getD coeff 0)
    {block : ℕ} (hblock : block < ypir.dbCols / P.d) :
    extractCrsBlock P ypir hint block = .ok ⟨(columns.drop (block * P.d)).take P.d⟩ := by
  have hroom : block * P.d + P.d ≤ ypir.dbCols := by
    have hmul := Nat.mul_le_mul_right P.d (Nat.succ_le_of_lt hblock)
    rw [Nat.succ_mul] at hmul
    exact hmul.trans (Nat.div_mul_le_self _ _)
  rw [extractCrsBlock, if_neg (not_not.mpr hlen), if_neg (not_not.mpr hblock)]
  refine congrArg (fun rows => Except.ok (CrsBlock.mk rows)) ?_
  have hrows : ((columns.drop (block * P.d)).take P.d).length = P.d := by
    rw [List.length_take, List.length_drop, h.length]
    omega
  refine List.ext_getElem (by rw [List.length_map, List.length_range, hrows]) fun r hr _ => ?_
  rw [List.length_map, List.length_range] at hr
  have hcol : block * P.d + r < ypir.dbCols := by omega
  have hcol' : block * P.d + r < columns.length := by rwa [h.length]
  have hmem := List.getElem_mem hcol'
  rw [List.getElem_map, List.getElem_range, List.getElem_take, List.getElem_drop]
  refine List.ext_getElem ?_ fun coeff hcoeff hcoeff' => ?_
  · rw [List.length_map, List.length_range, h.column_length _ hmem]
  · rw [List.length_map, List.length_range] at hcoeff
    rw [List.getElem_map, List.getElem_range, hhint coeff hcoeff _ hcol,
      List.getD_eq_getElem _ _ hcol', List.getD_eq_getElem _ _ hcoeff',
      Nat.mod_eq_of_lt (h.lt _ hmem _ (List.getElem_mem hcoeff'))]

/-- **The layout and its cutting cancel.** -/
theorem offlinePrecomputeFromHint_laidOut (h : AreColumns P ypir columns)
    (hcols : ypir.dbCols % P.d = 0) :
    (do
      let hint ← layOutHint P.d ypir.dbCols columns
      offlinePrecomputeFromHint P ypir hint) =
      .ok ⟨takeBlocks P.d (ypir.dbCols / P.d) columns⟩ := by
  obtain ⟨hint, hlay, hlen, hhint⟩ := layOutHint_ok P.d ypir.dbCols columns
  have hblocks : (List.range (ypir.dbCols / P.d)).mapM (extractCrsBlock P ypir hint) =
      .ok ((List.range (ypir.dbCols / P.d)).map fun block =>
        ⟨(columns.drop (block * P.d)).take P.d⟩) :=
    mapM_eq_ok fun block hblock => extractCrsBlock_laidOut h hlen hhint (List.mem_range.mp hblock)
  rw [hlay, ok_bind, offlinePrecomputeFromHint, if_neg (not_not.mpr hlen),
    if_neg (not_not.mpr hcols)]
  dsimp only
  rw [hblocks, ok_bind, takeBlocks_eq]

end Blocks

/-! ## The two offline paths -/

section Paths

variable {T K : Type} {server : YServer T K} {P : RlweParams}

/-- A database and query masks that pass the checks of the server. -/
structure Admitted
    (validateProfileParts : RlweParams → DatabaseShape → SimplePirProfile → Outcome Unit)
    (server : YServer T K) (P : RlweParams) (queryPolys : List (List ℕ)) : Prop where
  bound : server.validateBoundRlwe validateProfileParts P = .ok ()
  elementMax_lt : server.elementMax < P.q
  rows_mod : server.params.dbRows % P.d = 0
  db_length : server.db.length = server.params.dbRows * server.params.dbCols
  polys_length : queryPolys.length = server.params.dbRows / P.d
  poly_length : ∀ query ∈ queryPolys, query.length = P.d

variable {validateProfileParts : RlweParams → DatabaseShape → SimplePirProfile → Outcome Unit}
  {queryPolys : List (List ℕ)}

theorem Admitted.validateQueryPolys_ok (h : Admitted validateProfileParts server P queryPolys) :
    server.validateQueryPolys validateProfileParts P queryPolys = .ok () := by
  have hbound : server.assertBoundRlwe validateProfileParts P = .ok () := by
    rw [YServer.assertBoundRlwe, h.bound, expect]
  rw [YServer.validateQueryPolys, hbound, ok_bind, if_neg (not_not.mpr h.elementMax_lt),
    if_neg (not_not.mpr h.rows_mod), if_neg (not_not.mpr h.polys_length)]
  exact forM_eq_ok fun query hquery => if_neg (not_not.mpr (h.poly_length query hquery))

variable [ToU64 T]

/-- A column comes out of the inverse transform. -/
theorem generateHintColumn_ok {rows col : ℕ} {queryNtts : List (Ntt P.d P.q)} {column : List ℕ}
    (h : server.generateHintColumnFromQueryNtts P rows col queryNtts = .ok column) :
    column.length = P.d ∧ ∀ x ∈ column, x < P.q := by
  obtain ⟨acc, -, h⟩ := bind_eq_ok h
  obtain rfl := Except.ok.inj h
  refine ⟨List.length_ofFn, fun x hx => ?_⟩
  obtain ⟨i, rfl⟩ := (List.mem_ofFn' _ _).mp hx
  exact P.spiral.fromNttAlloc_lt acc i

theorem areColumns_of_mapM {rows : ℕ} {queryNtts : List (Ntt P.d P.q)} {columns : List (List ℕ)}
    (h : (List.range server.params.dbCols).mapM (fun col =>
      server.generateHintColumnFromQueryNtts P rows col queryNtts) = .ok columns) :
    AreColumns P server.params columns := by
  have hall := forall₂_of_mapM_eq_ok h
  have hcolumn : ∀ column ∈ columns, column.length = P.d ∧ ∀ x ∈ column, x < P.q := by
    intro column hmem
    obtain ⟨i, hi, rfl⟩ := List.getElem_of_mem hmem
    have hrange : i < (List.range server.params.dbCols).length := by rwa [hall.length_eq]
    exact generateHintColumn_ok (hall.get hrange hi)
  exact ⟨by rw [← hall.length_eq, List.length_range], fun column hmem => (hcolumn column hmem).1,
    fun column hmem => (hcolumn column hmem).2⟩

/-- A block of a column, as a ring element. -/
noncomputable def columnBlock (server : YServer T K) (P : RlweParams) (col blockIdx : ℕ) :
    NegRing P.d (ZMod P.q) :=
  ofCoeffs fun i =>
    (dbAt server.db (col * server.dbRowsPadded + (blockIdx * P.d + i)) : ZMod P.q)

/-- The product of a column with the query masks. -/
noncomputable def columnProduct (server : YServer T K) (P : RlweParams)
    (queryPolys : List (List ℕ)) (col : ℕ) : NegRing P.d (ZMod P.q) :=
  ∑ b ∈ Finset.range queryPolys.length,
    Poly.ring P.q (vecGet (queryPolys.getD b [])) * columnBlock server P col b

/-- Words of the database fit. -/
theorem dbAt_lt (db : List T) (index : ℕ) : dbAt db index < 2 ^ 64 := by
  unfold dbAt
  rcases db[index]? with _ | value
  · exact Nat.two_pow_pos _
  · exact (ToU64.toU64_le value).trans_lt ToU64.maxValue_lt

/-- **A column of an admitted database** is the inverse transform of its product with the masks. -/
theorem Admitted.column_ring (h : Admitted validateProfileParts server P queryPolys) {col : ℕ}
    (hcol : col < server.params.dbCols) :
    ∃ acc, server.generateHintColumnFromQueryNtts P server.dbRowsPadded col
        (queryPolys.map (polynomialToNtt P)) = .ok (List.ofFn (P.spiral.fromNttAlloc acc)) ∧
      P.spiral.ring acc = columnProduct server P queryPolys col := by
  have hrows : server.dbRowsPadded = server.params.dbRows := ite_self server.params.dbRows
  have hblocks : queryPolys.length * P.d = server.params.dbRows := by
    rw [h.polys_length]
    exact Nat.div_mul_cancel (Nat.dvd_of_mod_eq_zero h.rows_mod)
  have hline : (col + 1) * server.params.dbRows ≤ server.params.dbCols * server.params.dbRows :=
    Nat.mul_le_mul_right _ hcol
  rw [Nat.add_mul, one_mul, mul_comm server.params.dbCols, ← h.db_length] at hline
  have hstart : P.spiral.ring P.spiral.zeroNtt = ∑ b ∈ Finset.range 0,
      Poly.ring P.q (vecGet (queryPolys.getD b [])) * columnBlock server P col b := by
    rw [P.spiral.ring_zeroNtt, Finset.range_zero, Finset.sum_empty]
  obtain ⟨acc, hacc, hring⟩ := foldlM_zipIdx
    (f := fun acc (item : Ntt P.d P.q × ℕ) => (do
      let rowStart := item.2 * P.d
      let src ← readSlice server.db (col * server.dbRowsPadded + rowStart) P.d
      let dbNtt := P.spiral.toNttAlloc fun i => (src[(i : ℕ)]?.map ToU64.toU64).getD 0
      let prod := P.spiral.multiply (fun _ : Fin 1 => item.1) fun _ => dbNtt
      .ok (P.spiral.addInto acc prod) : Outcome (Ntt P.d P.q)))
    (fun done acc => P.spiral.ring acc = ∑ b ∈ Finset.range done,
      Poly.ring P.q (vecGet (queryPolys.getD b [])) * columnBlock server P col b)
    (l := queryPolys.map (polynomialToNtt P)) hstart
    fun blockIdx queryNtt hget acc hinv => by
      rw [List.getElem?_map, Option.map_eq_some_iff] at hget
      obtain ⟨poly, hpoly, rfl⟩ := hget
      have hidx : blockIdx < queryPolys.length := (List.getElem?_eq_some_iff.mp hpoly).1
      have hblock : (blockIdx + 1) * P.d ≤ queryPolys.length * P.d := Nat.mul_le_mul_right _ hidx
      rw [Nat.add_mul, one_mul, hblocks] at hblock
      have hread : readSlice server.db (col * server.dbRowsPadded + blockIdx * P.d) P.d =
          .ok ((server.db.drop (col * server.dbRowsPadded + blockIdx * P.d)).take P.d) :=
        if_pos (by rw [hrows]; omega)
      have hword (i : Fin P.d) : ((((server.db.drop (col * server.dbRowsPadded +
          blockIdx * P.d)).take P.d)[(i : ℕ)]?).map ToU64.toU64).getD 0 =
          dbAt server.db (col * server.dbRowsPadded + (blockIdx * P.d + i)) := by
        rw [List.getElem?_take_of_lt i.2, List.getElem?_drop, add_assoc, dbAt]
      have hmask (i : Fin P.d) : poly.getD i 0 % P.q < 2 ^ 64 :=
        P.spiral.lt_word_of_le (Nat.mod_lt _ P.q_pos).le
      have hentry : queryPolys.getD blockIdx [] = poly := by
        rw [List.getD_eq_getElem?_getD, hpoly]
        rfl
      dsimp only
      rw [hread, ok_bind]
      refine ⟨_, rfl, ?_⟩
      rw [P.spiral.ring_addInto, hinv, P.spiral.ring_multiply, Fin.sum_univ_one,
        Finset.sum_range_succ, hentry, polynomialToNtt, P.spiral.ring_toNttAlloc hmask,
        Poly.ring_mod]
      simp only [hword]
      rw [P.spiral.ring_toNttAlloc fun i => dbAt_lt _ _]
      rfl
  rw [List.length_map] at hring
  exact ⟨acc, by rw [YServer.generateHintColumnFromQueryNtts]; rw [hacc, ok_bind], hring⟩

/-- **The blocks of an admitted database** are its columns in groups of `d`. -/
theorem Admitted.performOffline_ok (h : Admitted validateProfileParts server P queryPolys)
    (hcols : server.params.dbCols % P.d = 0)
    (hmasks : verifyQueryMasksDistinctFromKeyMasks P queryPolys = .ok ()) :
    ∃ columns, server.generateHintColumns validateProfileParts P queryPolys = .ok columns ∧
      AreColumns P server.params columns ∧
      server.performOfflinePrecomputationSimplepir validateProfileParts P queryPolys =
        .ok ⟨(List.range (server.params.dbCols / P.d)).map fun block =>
          ⟨(columns.drop (block * P.d)).take P.d⟩⟩ := by
  obtain ⟨columns, hcolumns⟩ := exists_mapM_eq_ok fun col hcol => by
    obtain ⟨acc, hacc, -⟩ := h.column_ring (List.mem_range.mp hcol)
    exact ⟨_, hacc⟩
  have hgenerate : server.generateHintColumns validateProfileParts P queryPolys = .ok columns := by
    rw [YServer.generateHintColumns, h.validateQueryPolys_ok, ok_bind]
    exact hcolumns
  have hbound : server.assertBoundRlwe validateProfileParts P = .ok () := by
    rw [YServer.assertBoundRlwe, h.bound, expect]
  refine ⟨columns, hgenerate, areColumns_of_mapM hcolumns, ?_⟩
  rw [YServer.performOfflinePrecomputationSimplepir, hbound, if_neg (not_not.mpr hcols), hmasks,
    ok_bind, expect, ok_bind]
  dsimp only
  rw [hgenerate, ok_bind, takeBlocks_eq]

/-- **Building the blocks directly is laying out the hint and cutting it up.**  Wherever the masks
pass the check, the two paths end alike; on an admitted database both return the columns in their
order, in groups of `d`. -/
theorem performOffline_eq
    (validateProfileParts : RlweParams → DatabaseShape → SimplePirProfile → Outcome Unit)
    (server : YServer T K) (P : RlweParams) (queryPolys : List (List ℕ))
    (hcols : server.params.dbCols % P.d = 0)
    (hmasks : verifyQueryMasksDistinctFromKeyMasks P queryPolys = .ok ()) :
    (server.performOfflinePrecomputationSimplepir validateProfileParts P queryPolys = do
      let hint ← server.generateHintFromQueryPolys validateProfileParts P queryPolys
      offlinePrecomputeFromHint P server.params hint) ∧
    (Admitted validateProfileParts server P queryPolys →
      ∃ columns, server.generateHintColumns validateProfileParts P queryPolys = .ok columns ∧
        AreColumns P server.params columns ∧
        server.performOfflinePrecomputationSimplepir validateProfileParts P queryPolys =
          .ok ⟨(List.range (server.params.dbCols / P.d)).map fun block =>
            ⟨(columns.drop (block * P.d)).take P.d⟩⟩) := by
  have hpaths : server.performOfflinePrecomputationSimplepir validateProfileParts P queryPolys =
      (do
        let hint ← server.generateHintFromQueryPolys validateProfileParts P queryPolys
        offlinePrecomputeFromHint P server.params hint) := by
    rw [YServer.performOfflinePrecomputationSimplepir, YServer.generateHintFromQueryPolys,
      YServer.generateHintColumns, if_neg (not_not.mpr hcols), hmasks]
    rcases hbound : server.assertBoundRlwe validateProfileParts P with e | _
    · -- the profile does not match
      rw [YServer.validateQueryPolys, hbound]
      rfl
    rcases hpolys : server.validateQueryPolys validateProfileParts P queryPolys with e | _
    · rfl
    rw [ok_bind, ok_bind, expect, ok_bind]
    dsimp only
    rw [ok_bind]
    rcases hcolumns : (List.range server.params.dbCols).mapM fun col =>
      server.generateHintColumnFromQueryNtts P server.dbRowsPadded col
        (queryPolys.map (polynomialToNtt P)) with e | columns
    · rfl
    rw [ok_bind, ok_bind, offlinePrecomputeFromHint_laidOut (areColumns_of_mapM hcolumns) hcols]
  exact ⟨hpaths, fun h => h.performOffline_ok hcols hmasks⟩

end Paths

/-- A small layer whose generator tells the seeds of the two keys apart. -/
def maskLayer : ReferenceData 4 17 :=
  { smallLayer with
    one_lt := one_lt_seventeen
    lt_word := seventeen_lt_word
    random := fun seed k i => if seed = REFERENCE_V_SEED then k + 1 else k + 2 * i }

/-- The small parameter set over it. -/
def maskParams : RlweParams :=
  { smallParams with
    spiral := maskLayer.params
    bitsPer_eq := by decide }

/-- A server of four rows and eight columns, whose rows are different. -/
def smallServer : YServer UInt8 Unit where
  params := ⟨4, 8⟩
  productionProfile := none
  db := [0, 1, 0, 1, 1, 1, 0, 0, 0, 0, 1, 0, 1, 0, 1, 1,
    0, 1, 1, 0, 1, 0, 0, 1, 0, 0, 1, 1, 1, 1, 0, 0]
  padRows := true
  elementMax := 1
  kernel := ()

/-- Two blocks of four columns. -/
theorem performOffline_eq_small :
    (smallServer.performOfflinePrecomputationSimplepir (fun _ _ _ => .ok ()) maskParams
        [[5, 0, 0, 3]] = do
      let hint ← smallServer.generateHintFromQueryPolys (fun _ _ _ => .ok ()) maskParams
        [[5, 0, 0, 3]]
      offlinePrecomputeFromHint maskParams ⟨4, 8⟩ hint) ∧
    ∃ values, smallServer.performOfflinePrecomputationSimplepir (fun _ _ _ => .ok ()) maskParams
      [[5, 0, 0, 3]] = .ok values ∧ values.crsBlocks.length = 2 := by
  have hpaths := performOffline_eq (fun _ _ _ => .ok ()) smallServer maskParams [[5, 0, 0, 3]] rfl
    (by decide)
  obtain ⟨columns, -, -, hblocks⟩ := hpaths.2 ⟨rfl, by decide, rfl, rfl, rfl, by decide⟩
  exact ⟨hpaths.1, _, hblocks, rfl⟩

end SimplePir
