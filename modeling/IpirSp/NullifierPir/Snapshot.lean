import IpirSp.NullifierPir.Encoding

/-!
# The nullifier snapshot

A snapshot is a file of 32-byte records.  `SnapshotCoeffIter` streams it as the rows of the
database: it reads one row at a time into a buffer that it uses again, and emits the coefficients of
the row.  `emits_row` says what one row emits, and `drains_rows` puts the rows together.  The place
of a record is computed by the server from the stream and by the client from the index of the
record; `coeffIter_spec` is that the two agree.
-/

namespace NullifierPir

open Codec Loops

/-- `NullifierSnapshot`, with the bytes of its file. -/
structure NullifierSnapshot where
  file : List UInt8
  recordCount : ℕ

/-- `validate_snapshot_len`. -/
def validateSnapshotLen (bytes : ℕ) : Result Unit :=
  if bytes = 0 then .error (.err "snapshot is empty")
  else if bytes % nullifierBytes ≠ 0 then
    .error (.err
      s!"snapshot length {bytes} is not divisible by {nullifierBytes}-byte nullifiers")
  else .ok ()

namespace NullifierSnapshot

/-- `open`. -/
def «open» (file : List UInt8) : Result NullifierSnapshot := do
  validateSnapshotLen file.length
  .ok ⟨file, file.length / nullifierBytes⟩

/-- `pir_row_count`. -/
def pirRowCount (snapshot : NullifierSnapshot) : ℕ := NullifierPir.pirRowCount snapshot.recordCount

end NullifierSnapshot

/-- `read_exact`: the bytes that were read and the rest of the file. -/
def readExact (reader : List UInt8) (count : ℕ) : Result (List UInt8 × List UInt8) :=
  if reader.length < count then .error (.err "failed to fill whole buffer")
  else .ok (reader.take count, reader.drop count)

/-- `read_nullifier`. -/
def NullifierSnapshot.readNullifier (snapshot : NullifierSnapshot) (index : ℕ) :
    Result (List UInt8) :=
  if index ≥ snapshot.recordCount then
    .error (.err
      s!"nullifier index {index} is out of bounds for {snapshot.recordCount} records")
  else Prod.fst <$> readExact (snapshot.file.drop (index * nullifierBytes)) nullifierBytes

/-- `SnapshotCoeffIter`. -/
structure SnapshotCoeffIter where
  reader : List UInt8
  recordCount : ℕ
  actualRows : ℕ
  dbRows : ℕ
  currentRow : ℕ
  item : List UInt8
  coeffs : List ℕ
  coeffIdx : ℕ

/-- `coeff_iter`. -/
def NullifierSnapshot.coeffIter (snapshot : NullifierSnapshot) (dbRows : ℕ) :
    SnapshotCoeffIter where
  reader := snapshot.file
  recordCount := snapshot.recordCount
  actualRows := snapshot.pirRowCount
  dbRows
  currentRow := 0
  item := List.replicate itemBytes 0
  coeffs := List.replicate simplepirCoeffsPerItem 0
  coeffIdx := simplepirCoeffsPerItem

namespace SnapshotCoeffIter

/-- `load_next_row`. -/
def loadNextRow (iter : SnapshotCoeffIter) : Result (Bool × SnapshotCoeffIter) :=
  if iter.currentRow ≥ iter.dbRows then .ok (false, iter)
  else do
    let loaded ← (if iter.currentRow < iter.actualRows then do
        let remainingRecords := iter.recordCount - iter.currentRow * nullifiersPerItem
        let recordsInRow := min remainingRecords nullifiersPerItem
        let bytesInRow := recordsInRow * nullifierBytes
        let (bytes, reader) ← readExact iter.reader bytesInRow
        let item := bytes ++ iter.item.drop bytesInRow
        let coeffs ← encodeItemInto (item.take bytesInRow) iter.coeffs
        .ok { iter with reader, item, coeffs }
      else .ok { iter with coeffs := List.replicate simplepirCoeffsPerItem 0 })
    .ok (true, { loaded with currentRow := iter.currentRow + 1, coeffIdx := 0 })

/-- The end of `next`: the coefficient under the cursor. -/
def emit (iter : SnapshotCoeffIter) : Result (Option ℕ × SnapshotCoeffIter) :=
  match iter.coeffs[iter.coeffIdx]? with
  | none => .error (.panic "index out of bounds")
  | some value => .ok (some value, { iter with coeffIdx := iter.coeffIdx + 1 })

/-- `next`. -/
def next (iter : SnapshotCoeffIter) : Result (Option ℕ × SnapshotCoeffIter) :=
  if iter.coeffIdx = simplepirCoeffsPerItem then
    match iter.loadNextRow with
    | .error _ => .error (.panic "read next snapshot row")
    | .ok (false, iter) => .ok (none, iter)
    | .ok (true, iter) => iter.emit
  else iter.emit

end SnapshotCoeffIter

/-! ## Rows of the file -/

/-- The bytes of a row; none for a padding row. -/
def rowBytes (file : List UInt8) (row : ℕ) :
    List UInt8 := (file.drop (row * itemBytes)).take itemBytes

theorem length_rowBytes_le (file : List UInt8) (row : ℕ) : (rowBytes file row).length ≤ itemBytes :=
  List.length_take_le _ _

/-- What opening a snapshot checks. -/
theorem NullifierSnapshot.open_ok {file : List UInt8} {snapshot : NullifierSnapshot}
    (h : NullifierSnapshot.open file = .ok snapshot) :
    snapshot.file = file ∧ 0 < snapshot.recordCount ∧ file.length = snapshot.recordCount * 32 := by
  obtain ⟨_, hcheck, hok⟩ := bind_eq_ok h
  obtain rfl := Except.ok.inj hok
  unfold validateSnapshotLen at hcheck
  split at hcheck
  · cases hcheck
  split at hcheck
  · cases hcheck
  rename_i hempty hmod
  rw [nullifierBytes_eq] at hmod
  dsimp only
  rw [nullifierBytes_eq]
  refine ⟨rfl, ?_, ?_⟩ <;> omega

/-- The rows up to `pir_row_count` are the ones that hold records. -/
theorem lt_pirRowCount_iff (recordCount row : ℕ) :
    row < pirRowCount recordCount ↔ row * 1792 < recordCount := by
  rw [pirRowCount, nullifiersPerItem_eq]
  omega

/-- **The record of a slot** of a padded row: the bytes of the file at the place of the record, or
zeros past the last record. -/
theorem padded_slot {file : List UInt8} {recordCount : ℕ} (hfile : file.length = recordCount * 32)
    (row : ℕ) {slot : ℕ} (hslot : slot < 1792) :
    ((rowBytes file row ++
        List.replicate (itemBytes - (rowBytes file row).length) 0).drop (slot * 32)).take 32 =
      if row * 1792 + slot < recordCount then (file.drop ((row * 1792 + slot) * 32)).take 32
      else List.replicate 32 0 := by
  have hlen : (rowBytes file row).length = min itemBytes (file.length - row * itemBytes) := by
    rw [rowBytes, List.length_take, List.length_drop]
  rw [itemBytes_eq] at hlen ⊢
  split
  · rename_i hrecord
    have hinside : slot * 32 + 32 ≤ (rowBytes file row).length := by omega
    rw [List.drop_append_of_le_length (by omega),
      List.take_append_of_le_length (by rw [List.length_drop]; omega), rowBytes, List.drop_take,
      List.drop_drop, List.take_take, itemBytes_eq]
    have hplace : row * 57344 + slot * 32 = (row * 1792 + slot) * 32 := by omega
    have htake : min 32 (57344 - slot * 32) = 32 := by omega
    rw [hplace, htake]
  · rename_i hpast
    have houtside : (rowBytes file row).length ≤ slot * 32 := by omega
    rw [List.drop_append, List.drop_of_length_le houtside, List.nil_append, List.drop_replicate,
      List.take_replicate]
    congr 1
    omega

/-! ## The iterator -/

namespace SnapshotCoeffIter

/-- The iterator stands before a row of the file, with the rows before it emitted. -/
structure Before (file : List UInt8) (recordCount dbRows row : ℕ) (iter : SnapshotCoeffIter) :
    Prop where
  reader_eq : iter.reader = file.drop (row * itemBytes)
  recordCount_eq : iter.recordCount = recordCount
  actualRows_eq : iter.actualRows = pirRowCount recordCount
  dbRows_eq : iter.dbRows = dbRows
  currentRow_eq : iter.currentRow = row
  length_item : iter.item.length = itemBytes
  length_coeffs : iter.coeffs.length = simplepirCoeffsPerItem
  coeffIdx_eq : iter.coeffIdx = simplepirCoeffsPerItem

/-- Loading a row that holds records: as many bytes as the row has are read. -/
theorem readExact_row {file : List UInt8} {recordCount row : ℕ}
    (hfile : file.length = recordCount * 32) (hrow : row < pirRowCount recordCount) :
    readExact (file.drop (row * itemBytes))
        (min (recordCount - row * nullifiersPerItem) nullifiersPerItem * nullifierBytes) =
      .ok (rowBytes file row, file.drop ((row + 1) * itemBytes)) := by
  have hrecords := (lt_pirRowCount_iff recordCount row).mp hrow
  rw [nullifiersPerItem_eq, nullifierBytes_eq, itemBytes_eq, readExact, if_neg (by
    rw [List.length_drop]
    omega), rowBytes, List.drop_drop, itemBytes_eq]
  have htake : (file.drop (row * 57344)).take (min (recordCount - row * 1792) 1792 * 32) =
      (file.drop (row * 57344)).take 57344 := by
    rw [List.take_eq_take_iff, List.length_drop]
    omega
  have hdrop : file.drop (row * 57344 + min (recordCount - row * 1792) 1792 * 32) =
      file.drop ((row + 1) * 57344) := by
    by_cases hwhole : 1792 ≤ recordCount - row * 1792
    · have hplace : row * 57344 + min (recordCount - row * 1792) 1792 * 32 = (row + 1) * 57344 := by
        omega
      rw [hplace]
    · rw [List.drop_of_length_le (by omega), List.drop_of_length_le (by omega)]
  rw [htake, hdrop]

/-- **Loading a row**: its coefficients replace those of the row before. -/
theorem loadNextRow_ok {file : List UInt8} {recordCount dbRows row : ℕ} {iter : SnapshotCoeffIter}
    (hfile : file.length = recordCount * 32) (h : iter.Before file recordCount dbRows row)
    (hrow : row < dbRows) :
    ∃ loaded, iter.loadNextRow = .ok (true, loaded) ∧
    loaded.coeffs = encodeItem (rowBytes file row) ∧
      loaded.coeffIdx = 0 ∧
      Before file recordCount dbRows (row + 1) { loaded with coeffIdx :=
        simplepirCoeffsPerItem } := by
  obtain ⟨reader, _, _, _, _, item, coeffs, _⟩ := iter
  obtain ⟨hreader, hcount, hactual, hdb, hcurrent, hitem, hcoeffs, -⟩ := h
  dsimp only at hreader hcount hactual hdb hcurrent hitem hcoeffs
  obtain rfl := hreader.symm
  obtain rfl := hcount.symm
  obtain rfl := hactual.symm
  obtain rfl := hdb.symm
  obtain rfl := hcurrent.symm
  rw [loadNextRow, if_neg (not_le.mpr hrow)]
  dsimp only
  by_cases hrecords : row < pirRowCount recordCount
  · have hread := readExact_row hfile hrecords
    set bytesInRow := min (recordCount - row * nullifiersPerItem) nullifiersPerItem * nullifierBytes
      with hbytes
    -- exactly the bytes of the row, not those that the buffer still holds
    have hlen : (rowBytes file row).length = bytesInRow := by
      rw [readExact] at hread
      split at hread
      · cases hread
      · rename_i henough
        have hfst : (file.drop (row * itemBytes)).take bytesInRow = rowBytes file row :=
          congrArg Prod.fst (Except.ok.inj hread)
        rw [← hfst, List.length_take]
        omega
    have hle := length_rowBytes_le file row
    have hslice : (rowBytes file row ++ item.drop bytesInRow).take bytesInRow =
        rowBytes file row := List.take_left' hlen
    have hencode := encodeItemInto_ok hle hcoeffs
    have hbuffer : (rowBytes file row ++ item.drop bytesInRow).length = itemBytes := by
      rw [List.length_append, List.length_drop, hlen, hitem]
      omega
    rw [if_pos hrecords, hread, ok_bind]
    dsimp only
    rw [hslice, hencode, ok_bind, ok_bind]
    have hlength := length_encodeItem (rowBytes file row)
    generalize encodeItem (rowBytes file row) = values at hlength
    exact ⟨_, rfl, rfl, rfl, rfl, rfl, rfl, rfl, rfl, hbuffer, hlength, rfl⟩
  · have hpast : file.length ≤ row * itemBytes := by
      have hnone := (lt_pirRowCount_iff recordCount row).not.mp hrecords
      rw [itemBytes_eq]
      omega
    have hbytes : rowBytes file row = [] := by
      rw [rowBytes, List.drop_of_length_le hpast, List.take_nil]
    have hzeros : List.replicate simplepirCoeffsPerItem 0 = encodeItem (rowBytes file row) := by
      rw [hbytes, encodeItem, eq_comm]
      refine List.eq_replicate_iff.mpr ⟨by rw [List.length_map, List.length_range], fun c hc => ?_⟩
      obtain ⟨idx, -, rfl⟩ := List.mem_map.mp hc
      rfl
    have hdrop : file.drop (row * itemBytes) = file.drop ((row + 1) * itemBytes) := by
      have hpast' : file.length ≤ (row + 1) * itemBytes :=
        hpast.trans (Nat.mul_le_mul_right _ (Nat.le_succ row))
      rw [List.drop_of_length_le hpast, List.drop_of_length_le hpast']
    rw [if_neg hrecords, ok_bind]
    exact ⟨_, rfl, hzeros, rfl, hdrop, rfl, rfl, rfl, rfl, hitem, List.length_replicate, rfl⟩

/-- The coefficients under and after the cursor are emitted. -/
theorem emits_coeffs (iter : SnapshotCoeffIter)
    (hcoeffs : iter.coeffs.length = simplepirCoeffsPerItem)
    {count : ℕ} (hcount : iter.coeffIdx + count = simplepirCoeffsPerItem) :
    Emits next iter (iter.coeffs.drop iter.coeffIdx)
      { iter with coeffIdx := simplepirCoeffsPerItem } := by
  induction count generalizing iter with
  | zero =>
      rw [add_zero] at hcount
      rw [List.drop_of_length_le (by rw [hcoeffs, hcount]), ← hcount]
      exact .nil iter
  | succ count ih =>
      have hidx : iter.coeffIdx < iter.coeffs.length := by omega
      have hmore : iter.coeffIdx ≠ simplepirCoeffsPerItem := by omega
      have hcall : iter.next =
          .ok (some iter.coeffs[iter.coeffIdx], { iter with coeffIdx := iter.coeffIdx + 1 }) := by
        rw [next, if_neg hmore, emit, List.getElem?_eq_getElem hidx]
      have hstep : iter.coeffIdx + 1 + count = simplepirCoeffsPerItem := by omega
      rw [List.drop_eq_getElem_cons hidx]
      exact .cons hcall (ih { iter with coeffIdx := iter.coeffIdx + 1 } hcoeffs hstep)

/-- **What a row emits.** -/
theorem emits_row {file : List UInt8} {recordCount dbRows row : ℕ} {iter : SnapshotCoeffIter}
    (hfile : file.length = recordCount * 32) (h : iter.Before file recordCount dbRows row)
    (hrow : row < dbRows) :
    ∃ after, Emits next iter (encodeItem (rowBytes file row)) after ∧
      after.Before file recordCount dbRows (row + 1) := by
  obtain ⟨loaded, hload, hcoeffs, hidx, hafter⟩ := loadNextRow_ok hfile h hrow
  have hlen : loaded.coeffs.length = simplepirCoeffsPerItem := by
    rw [hcoeffs]
    exact length_encodeItem _
  have hrun := emits_coeffs loaded hlen (by rw [hidx, zero_add])
  rw [hidx, List.drop_zero] at hrun
  have hne : loaded.coeffs ≠ [] := by
    rw [← List.length_pos_iff, hlen, simplepirCoeffsPerItem_eq]
    exact Nat.succ_pos _
  -- the first call loads the row and goes on as if it had been loaded before
  have hcall : iter.next = loaded.next := by
    have hstart : loaded.coeffIdx ≠ simplepirCoeffsPerItem := by
      rw [hidx, simplepirCoeffsPerItem_eq]
      exact (Nat.succ_ne_zero _).symm
    rw [next, if_pos h.coeffIdx_eq, hload, next, if_neg hstart]
  rw [← hcoeffs]
  exact ⟨_, hrun.of_next_eq hne hcall, hafter⟩

/-- After the last row the iterator returns nothing. -/
theorem next_done {file : List UInt8} {recordCount dbRows : ℕ} {iter : SnapshotCoeffIter}
    (h : iter.Before file recordCount dbRows dbRows) : iter.next = .ok (none, iter) := by
  have hdone : iter.currentRow ≥ iter.dbRows := by rw [h.currentRow_eq, h.dbRows_eq]
  rw [next, if_pos h.coeffIdx_eq, loadNextRow, if_pos hdone]

end SnapshotCoeffIter

/-! ## The place of a record -/

/-- The coefficients of a snapshot, row after row. -/
def snapshotCoeffs (file : List UInt8) (dbRows : ℕ) : List ℕ :=
  (List.range dbRows).flatMap fun row => encodeItem (rowBytes file row)

/-- The coefficients of one row of the database. -/
def databaseRow (coeffs : List ℕ) (row : ℕ) : List ℕ :=
  (coeffs.drop (row * simplepirCoeffsPerItem)).take simplepirCoeffsPerItem

/-- **The iterator emits the rows of the file** and then nothing. -/
theorem drains_rows {file : List UInt8} {snapshot : NullifierSnapshot}
    (hopen : NullifierSnapshot.open file = .ok snapshot) (dbRows : ℕ) :
    Drains SnapshotCoeffIter.next (snapshot.coeffIter dbRows) (snapshotCoeffs file dbRows) := by
  obtain ⟨hcontent, -, hfile⟩ := NullifierSnapshot.open_ok hopen
  have hstart : (snapshot.coeffIter dbRows).Before file snapshot.recordCount dbRows 0 :=
    { reader_eq := by
        rw [zero_mul, List.drop_zero]
        exact hcontent
      recordCount_eq := rfl
      actualRows_eq := rfl
      dbRows_eq := rfl
      currentRow_eq := rfl
      length_item := List.length_replicate
      length_coeffs := List.length_replicate
      coeffIdx_eq := rfl }
  obtain ⟨last, hrun, hlast⟩ := emits_flatMap
    (fun row iter => SnapshotCoeffIter.Before file snapshot.recordCount dbRows row iter) hstart
    fun row hrow iter hiter => SnapshotCoeffIter.emits_row hfile hiter hrow
  exact ⟨last, hrun, SnapshotCoeffIter.next_done hlast⟩

theorem length_snapshotCoeffs (file : List UInt8) (dbRows : ℕ) :
    (snapshotCoeffs file dbRows).length = dbRows * simplepirCoeffsPerItem := by
  rw [snapshotCoeffs, List.length_flatMap]
  simp only [length_encodeItem, List.map_const', List.length_range, List.sum_replicate, smul_eq_mul]

theorem databaseRow_snapshotCoeffs (file : List UInt8) {dbRows row : ℕ} (hrow : row < dbRows) :
    databaseRow (snapshotCoeffs file dbRows) row = encodeItem (rowBytes file row) :=
  take_drop_flatMap (fun row => length_encodeItem (rowBytes file row)) hrow

/-- **A slot of a decoded row** holds its record, or zeros past the last record. -/
theorem extract_slot {file : List UInt8} {recordCount : ℕ} (hfile : file.length = recordCount * 32)
    {dbRows row slot : ℕ} (hrow : row < dbRows) (hslot : slot < 1792) :
    ∃ item, decodeItemCoefficients (databaseRow (snapshotCoeffs file dbRows) row) = .ok item ∧
      extractNullifier item slot =
        some (if row * 1792 + slot < recordCount then (file.drop ((row * 1792 + slot) * 32)).take 32
          else List.replicate 32 0) := by
  have hle := length_rowBytes_le file row
  refine ⟨_, (congrArg _ (databaseRow_snapshotCoeffs file hrow)).trans (decode_encode hle), ?_⟩
  rw [extractNullifier_padded hle hslot, nullifierBytes_eq, padded_slot hfile row hslot]

/-- What the snapshot returns for a record. -/
theorem readNullifier_ok {file : List UInt8} {snapshot : NullifierSnapshot}
    (hopen : NullifierSnapshot.open file = .ok snapshot) {index : ℕ}
    (hindex : index < snapshot.recordCount) :
    snapshot.readNullifier index = .ok ((file.drop (index * 32)).take 32) := by
  obtain ⟨hcontent, -, hfile⟩ := NullifierSnapshot.open_ok hopen
  rw [NullifierSnapshot.readNullifier, if_neg (not_le.mpr hindex), hcontent, nullifierBytes_eq,
    readExact, if_neg (by
      rw [List.length_drop]
      omega)]
  rfl

/-- **Every record is where the client looks for it.**  A snapshot that opens is streamed as whole
rows of coefficients of 14 bits.  The row and the slot that the client computes from the index of a
record decode to the bytes of the record, and every slot after the last record decodes to zeros. -/
theorem coeffIter_spec {file : List UInt8} {snapshot : NullifierSnapshot}
    (hopen : NullifierSnapshot.open file = .ok snapshot) {dbRows : ℕ}
    (hrows : snapshot.pirRowCount ≤ dbRows) :
    ∃ coeffs, Drains SnapshotCoeffIter.next (snapshot.coeffIter dbRows) coeffs ∧
      coeffs.length = dbRows * 32768 ∧ (∀ c ∈ coeffs, c < 2 ^ 14) ∧
      (∀ index < snapshot.recordCount, ∃ item record,
        decodeItemCoefficients (databaseRow coeffs (nullifierOffset index).1) = .ok item ∧
        snapshot.readNullifier index = .ok record ∧
        extractNullifier item (nullifierOffset index).2 = some record) ∧
      ∀ row < dbRows, ∀ slot < 1792, snapshot.recordCount ≤ row * 1792 + slot → ∃ item,
        decodeItemCoefficients (databaseRow coeffs row) = .ok item ∧
        extractNullifier item slot = some (List.replicate 32 0) := by
  obtain ⟨-, -, hfile⟩ := NullifierSnapshot.open_ok hopen
  refine ⟨snapshotCoeffs file dbRows, drains_rows hopen dbRows, length_snapshotCoeffs file dbRows,
    fun c hc => ?_, fun index hindex => ?_, fun row hrow slot hslot hpast => ?_⟩
  · obtain ⟨row, -, hc⟩ := List.mem_flatMap.mp hc
    exact encodeItem_lt _ c hc
  · have hsplit : index / 1792 * 1792 + index % 1792 = index := Nat.div_add_mod' index 1792
    have hrow : index / 1792 < dbRows := by
      refine lt_of_lt_of_le ?_ hrows
      rw [NullifierSnapshot.pirRowCount, lt_pirRowCount_iff]
      omega
    obtain ⟨item, hitem, hslot⟩ :=
      extract_slot hfile hrow (Nat.mod_lt index (show 0 < 1792 by decide))
    rw [hsplit, if_pos hindex] at hslot
    exact ⟨item, _, hitem, readNullifier_ok hopen hindex, hslot⟩
  · obtain ⟨item, hitem, hzero⟩ := extract_slot hfile hrow hslot
    rw [if_neg (not_lt.mpr hpast)] at hzero
    exact ⟨item, hitem, hzero⟩

theorem coeffIter_spec_two : ∃ coeffs,
    Drains SnapshotCoeffIter.next
      (NullifierSnapshot.coeffIter ⟨List.replicate 64 7, 2⟩ 3) coeffs ∧
    coeffs.length = 3 * 32768 := by
  have hopen : NullifierSnapshot.open (List.replicate 64 7) = .ok ⟨List.replicate 64 7, 2⟩ := rfl
  have hrows : NullifierSnapshot.pirRowCount ⟨List.replicate 64 7, 2⟩ ≤ 3 := by decide
  obtain ⟨coeffs, hdrains, hlength, -⟩ := coeffIter_spec hopen hrows
  exact ⟨coeffs, hdrains, hlength⟩

end NullifierPir
