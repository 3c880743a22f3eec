import IpirSp.Codec.Lockstep
import IpirSp.Inspiring.PreparedCodec

/-!
# The memory-mapped packing state

`MappedPrepared` serves the same file without copying it: its matrices are ranges of the map,
checked once, and only the permutation tables are owned.  A range carries the check as a field, so
the views that `pack` takes of the map cannot fail.

The constructor follows the file with its own offsets.  It goes in step with the reader of
`IpirSp.Inspiring.Prepared`: at every section the two stand at the same byte, and a range views the
matrix that the reader copies (`inStep_poly`, `inStep_artefact`).  `mapped_interchangeable` says
what follows: they accept the same files, and pack alike.
-/

namespace Inspiring

open Negacyclic SpiralRs Loops MachineWord Codec

/-! ## Ranges of a map -/

/-- `memmap2::Mmap`, with the address that it is mapped at. -/
structure Mmap where
  base : ℕ
  bytes : List UInt8
  length_lt : bytes.length < 2 ^ 64

/-- The bytes of a range. -/
def byteRange (bytes : List UInt8) (start stop : ℕ) : List UInt8 :=
  (bytes.drop start).take (stop - start)

/-- A range of the map that has been checked: it is a view of residues. -/
structure Span (P : RlweParams) (map : Mmap) where
  start : ℕ
  stop : ℕ
  aligned : (map.base + start) % 8 = 0
  canonical : ∀ w ∈ leWords 8 ((byteRange map.bytes start stop).length / 8)
    (byteRange map.bytes start stop), w < P.q

/-- `words(&map[start..stop])` with the check of the residues. -/
def Span.check (P : RlweParams) (map : Mmap) (littleEndian : Bool) (start stop : ℕ) :
    IoResult (Span P map) :=
  if ¬littleEndian then .error invalid
  else if haligned : (map.base + start) % 8 ≠ 0 ∨
      (byteRange map.bytes start stop).length % 8 ≠ 0 then .error invalid
  else if hwords : ∀ w ∈ leWords 8 ((byteRange map.bytes start stop).length / 8)
      (byteRange map.bytes start stop), w < P.q then
    .ok ⟨start, stop, not_not.mp (not_or.mp haligned).1, hwords⟩
  else .error invalid

/-- The words of a checked range. -/
def Span.view {P : RlweParams} {map : Mmap} (span : Span P map) : List (Fin P.q) :=
  (leWords 8 ((byteRange map.bytes span.start span.stop).length / 8)
    (byteRange map.bytes span.start span.stop)).pmap Fin.mk span.canonical

/-- `Block`. -/
structure MappedBlock (P : RlweParams) (map : Mmap) where
  c1 : Span P map
  digits : List (Span P map)

/-- `MappedPrepared`. -/
structure MappedPrepared (P : RlweParams) where
  map : Mmap
  prefixLen : ℕ
  blocks : List (MappedBlock P map)
  left : List (NttAutomorphTable P.d)
  right : List (NttAutomorphTable P.d)

/-! ## The constructor -/

section New

variable (P : RlweParams) (map : Mmap) (prefixLen : ℕ)

/-- The closure `poly`.  A length that overflows ends behind the map, which is the same error. -/
def mappedPoly (littleEndian : Bool) (rows cols : ℕ) : Read (Span P map) := fun c =>
  let bytes := map.bytes.drop prefixLen
  let stop := c.pos + rows * cols * P.d * 8
  if stop > bytes.length then .error invalid
  else
    (Span.check P map littleEndian (prefixLen + c.pos) (prefixLen + stop)).map fun span =>
      (span, ⟨stop, bytes.drop stop⟩)

/-- A block of `new`. -/
def mappedBlock (littleEndian : Bool) : Read (MappedBlock P map) := do
  let c1 ← mappedPoly P map prefixLen littleEndian 1 1
  let digits ← times (mappedPoly P map prefixLen littleEndian P.gadget.ell 1) (P.d - 1)
  pure ⟨c1, digits⟩

/-- What `new` reads. -/
def mappedLayout (littleEndian : Bool) (blocks : ℕ) : Read (MappedPrepared P) := do
  readHeader P blocks
  let layout ← times (mappedBlock P map prefixLen littleEndian) blocks
  let _ ← times (mappedPoly P map prefixLen littleEndian 1 P.gadget.ell) (P.d - 1)
  let left ← times (readTable P) (P.d / 2 - 1)
  let right ← times (readTable P) (P.d / 2 - 1)
  pure ⟨map, prefixLen, layout, left, right⟩

/-- `MappedPrepared::new`. -/
def MappedPrepared.new (o : Overflow) (littleEndian : Bool) (blocks : ℕ) :
    IoResult (MappedPrepared P) :=
  if ¬fusedAccumulatorFits P P.gadget.ell then .error invalid
  else do
    let len ← encodedLen o P blocks
    let expected ← orInvalid (checkedAdd (2 ^ 64) (some len) (some prefixLen))
    if map.bytes.length ≠ expected then .error invalid
    else if map.bytes.length < prefixLen then .error invalid
    else
      let bytes := map.bytes.drop prefixLen
      match mappedLayout P map prefixLen littleEndian blocks ⟨0, bytes⟩ with
      | .ok (M, c) => if c.pos ≠ bytes.length then .error invalid else .ok M
      | .error e => .error e

end New

/-! ## Packing -/

section Pack

variable {P : RlweParams}

/-- The matrix behind a `DigitView`. -/
def digitView (rows : ℕ) (view : List (Fin P.q)) : PolyMatrixNTT P.d P.q := ofSlice rows 1 view

/-- `pack_mapped_block`. -/
def packMappedBlock (workers : Scheduler (CollapseTerm P)) (bScalars : List ℕ)
    (keys : PackingKeys P) (left right : List (NttAutomorphTable P.d))
    (digits : List (PolyMatrixNTT P.d P.q)) (aFinal : List (Fin P.q)) :
    Outcome (RlweCiphertext P) :=
  if ¬fusedAccumulatorFits P keys.kgBody.cols then
    .error (.panic "assertion failed: fused_accumulator_fits(params, keys.kg_body.cols)")
  else do
    let raw : Poly P.d := fun i => vecGet bScalars i
    let steps ← (left.reverse ++ right.reverse).zipIdx.mapM fun (table, idx) => do
      let D ← index digits idx
      .ok (⟨keys.kgBody, some table, D⟩ : CollapseTerm P)
    let last ← index digits (P.d - 2)
    let b ← overflowPanic (collapseTerms workers (P.spiral.toNttAlloc raw)
      (steps ++ [⟨keys.khBody, none, last⟩]))
    .ok ⟨polyAt P.d aFinal 0, b⟩

/-- `MappedPrepared::pack`; the words of a matrix are residues by their type. -/
def MappedPrepared.pack (M : MappedPrepared P) (workers : ℕ → Scheduler (CollapseTerm P))
    (intermediate : List ℕ) (keys : PackingKeys P) : Outcome (List (RlweCiphertext P)) :=
  if intermediate.length ≠ M.blocks.length * P.d ∨ intermediate.any (· ≥ P.q) then
    .error (.err (.lweShape "invalid mapped packing intermediate"))
  else do
    keys.validate
    if (asSlice keys.kgBody).length ≠ P.gadget.ell * P.d ∨
        (asSlice keys.khBody).length ≠ P.gadget.ell * P.d then
      mismatch "noncanonical mapped packing key"
    else
      (M.blocks.zip (chunks P.d intermediate)).zipIdx.mapM fun ((block, b), i) =>
        packMappedBlock (workers i) b keys M.left M.right
          (block.digits.map fun span => digitView P.gadget.ell span.view) block.c1.view

end Pack

/-! ## In step with the reader -/

section Step

variable {P : RlweParams} {map : Mmap} {prefixLen : ℕ}

/-- The cursor stands at a word of the string. -/
structure Follows (bytes : List UInt8) (c : Cursor) : Prop where
  pos_le : c.pos ≤ bytes.length
  rest_eq : c.rest = bytes.drop c.pos
  pos_mod : c.pos % 8 = 0

theorem Follows.advance {bytes used : List UInt8} {c c' : Cursor} (h : Follows bytes c)
    (hrest : c.rest = used ++ c'.rest) (hpos : c'.pos = c.pos + used.length)
    (hused : used.length % 8 = 0) : Follows bytes c' := by
  have hlen := congrArg List.length (h.rest_eq.symm.trans hrest)
  rw [List.length_drop, List.length_append] at hlen
  have hle := h.pos_le
  have hmod := h.pos_mod
  refine ⟨by omega, ?_, by omega⟩
  rw [hpos, ← List.drop_drop, ← h.rest_eq, hrest, List.drop_left]

theorem length_residueBytes {q : ℕ} (ws : List (Fin q)) :
    (residueBytes ws).length = 8 * ws.length := by
  rw [residueBytes, length_words, List.length_map]

/-- **A matrix is read if its words are there and are residues.** -/
theorem readPoly_ok {c : Cursor} {rows cols : ℕ} (hfit : 8 * (rows * cols * P.d) ≤ c.rest.length)
    (hwords : ∀ w ∈ leWords 8 (rows * cols * P.d) (c.rest.take (8 * (rows * cols * P.d))),
      w < P.q) :
    ∃ ws : List (Fin P.q), ws.map Fin.val =
        leWords 8 (rows * cols * P.d) (c.rest.take (8 * (rows * cols * P.d))) ∧
      readPoly P rows cols c = .ok (ofSlice rows cols ws,
        ⟨c.pos + 8 * (rows * cols * P.d), c.rest.drop (8 * (rows * cols * P.d))⟩) := by
  generalize hn : rows * cols * P.d = n at hfit hwords
  have hlen : (c.rest.take (8 * n)).length = n * 8 := by
    rw [List.length_take_of_le hfit, mul_comm]
  refine ⟨(leWords 8 n (c.rest.take (8 * n))).pmap Fin.mk hwords, ?_, ?_⟩
  · rw [List.map_pmap]
    exact List.pmap_eq_self.mpr fun _ _ => rfl
  · generalize hws : (leWords 8 n (c.rest.take (8 * n))).pmap Fin.mk hwords = ws
    have hval : ws.map Fin.val = leWords 8 n (c.rest.take (8 * n)) := by
      rw [← hws, List.map_pmap]
      exact List.pmap_eq_self.mpr fun _ _ => rfl
    have hcount : ws.length = n := by
      rw [← List.length_map (f := Fin.val), hval, length_leWords]
    have hbytes : residueBytes ws = c.rest.take (8 * n) := by
      rw [residueBytes, hval, flatMap_leWords hlen]
    have hread : Reads (readPoly P rows cols) c.pos (residueBytes ws) (ofSlice rows cols ws) := by
      have hall := reads_residues c.pos ws
      rw [hcount, ← hn] at hall
      exact hall.last (Reads.pure _ _)
    have hrun := hread (c.rest.drop (8 * n))
    rwa [hbytes, List.take_append_drop, hlen, mul_comm n 8] at hrun

/-- The words of a matrix that was read were there and were residues. -/
theorem readPoly_inv {c c' : Cursor} {rows cols : ℕ} {m : PolyMatrixNTT P.d P.q}
    (h : readPoly P rows cols c = .ok (m, c')) : 8 * (rows * cols * P.d) ≤ c.rest.length ∧
      ∀ w ∈ leWords 8 (rows * cols * P.d) (c.rest.take (8 * (rows * cols * P.d))), w < P.q := by
  obtain ⟨bytes, hrest, -, rfl, rfl, rfl⟩ := consumes_poly P rows cols c m c' h
  have hlen : (residueBytes (asSlice m)).length = 8 * (m.rows * m.cols * P.d) := by
    rw [length_residueBytes, length_asSlice]
  refine ⟨?_, fun w hw => ?_⟩
  · rw [hrest, List.length_append, hlen]
    exact Nat.le_add_right _ _
  · have hback : leWords 8 (m.rows * m.cols * P.d) (residueBytes (asSlice m)) =
        (asSlice m).map Fin.val := by
      have hcount : ((asSlice m).map Fin.val).length = m.rows * m.cols * P.d := by
        rw [List.length_map, length_asSlice]
      rw [← hcount]
      refine leWords_flatMap fun w hw => ?_
      obtain ⟨r, -, rfl⟩ := List.mem_map.mp hw
      exact r.isLt.trans (P.spiral.modulus_lt.trans_eq (by norm_num))
    rw [hrest, List.take_left' hlen, hback] at hw
    obtain ⟨r, -, rfl⟩ := List.mem_map.mp hw
    exact r.isLt

theorem Span.map_view (span : Span P map) : span.view.map Fin.val =
    leWords 8 ((byteRange map.bytes span.start span.stop).length / 8)
      (byteRange map.bytes span.start span.stop) := by
  rw [view, List.map_pmap]
  exact List.pmap_eq_self.mpr fun _ _ => rfl

/-- A range of words is accepted if they are residues. -/
theorem Span.check_ok {start stop : ℕ} (haligned : (map.base + start) % 8 = 0)
    (hlen : (byteRange map.bytes start stop).length % 8 = 0)
    (hwords : ∀ w ∈ leWords 8 ((byteRange map.bytes start stop).length / 8)
      (byteRange map.bytes start stop), w < P.q) :
    ∃ span, Span.check P map true start stop = .ok span ∧ span.start = start ∧
      span.stop = stop := by
  refine ⟨⟨start, stop, haligned, hwords⟩, ?_, rfl, rfl⟩
  rw [check, if_neg (by simp), dif_neg (by simp [haligned, hlen]), dif_pos hwords]

theorem Span.check_error {start stop : ℕ}
    (hwords : ¬∀ w ∈ leWords 8 ((byteRange map.bytes start stop).length / 8)
      (byteRange map.bytes start stop), w < P.q) :
    Span.check P map true start stop = .error invalid := by
  rw [check, if_neg (by simp)]
  by_cases haligned : (map.base + start) % 8 ≠ 0 ∨ (byteRange map.bytes start stop).length % 8 ≠ 0
  · rw [dif_pos haligned]
  · rw [dif_neg haligned, dif_neg hwords]

/-- **A range views the matrix that the reader copies.** -/
theorem inStep_poly (hbase : map.base % 8 = 0) (hskip : prefixLen % 8 = 0) (rows cols : ℕ) :
    InStep (Follows (map.bytes.drop prefixLen)) (readPoly P rows cols)
      (mappedPoly P map prefixLen true rows cols) fun m span =>
        m = ofSlice rows cols span.view := by
  intro c hc
  have hrest : c.rest.length = (map.bytes.drop prefixLen).length - c.pos := by
    rw [hc.rest_eq, List.length_drop]
  have hle := hc.pos_le
  have hmod := hc.pos_mod
  by_cases hfit : 8 * (rows * cols * P.d) ≤ c.rest.length
  · have hlen : (c.rest.take (8 * (rows * cols * P.d))).length = 8 * (rows * cols * P.d) :=
      List.length_take_of_le hfit
    have hrange : byteRange map.bytes (prefixLen + c.pos)
        (prefixLen + (c.pos + rows * cols * P.d * 8)) =
          c.rest.take (8 * (rows * cols * P.d)) := by
      rw [byteRange, ← List.drop_drop, ← hc.rest_eq]
      congr 1
      omega
    have hcount : (byteRange map.bytes (prefixLen + c.pos)
        (prefixLen + (c.pos + rows * cols * P.d * 8))).length / 8 = rows * cols * P.d := by
      rw [hrange, hlen]
      omega
    by_cases hwords : ∀ w ∈ leWords 8 (rows * cols * P.d)
        (c.rest.take (8 * (rows * cols * P.d))), w < P.q
    · left
      obtain ⟨ws, hws, hread⟩ := readPoly_ok hfit hwords
      have haligned : (map.base + (prefixLen + c.pos)) % 8 = 0 := by omega
      have hrangeLen : (byteRange map.bytes (prefixLen + c.pos)
          (prefixLen + (c.pos + rows * cols * P.d * 8))).length % 8 = 0 := by
        rw [hrange, hlen]
        exact Nat.mul_mod_right 8 _
      have hresidues : ∀ w ∈ leWords 8 ((byteRange map.bytes (prefixLen + c.pos)
          (prefixLen + (c.pos + rows * cols * P.d * 8))).length / 8) (byteRange map.bytes
            (prefixLen + c.pos) (prefixLen + (c.pos + rows * cols * P.d * 8))), w < P.q := by
        rw [hcount, hrange]
        exact hwords
      obtain ⟨span, hcheck, hstart, hstop⟩ := Span.check_ok haligned hrangeLen hresidues
      refine ⟨_, span, _, hread, ?_, ?_, ?_⟩
      · rw [mappedPoly, if_neg (by omega), hcheck]
        refine congrArg Except.ok (Prod.ext rfl (Cursor.ext ?_ ?_))
        · show c.pos + rows * cols * P.d * 8 = c.pos + 8 * (rows * cols * P.d)
          omega
        · show (map.bytes.drop prefixLen).drop (c.pos + rows * cols * P.d * 8) =
            c.rest.drop (8 * (rows * cols * P.d))
          rw [← List.drop_drop, ← hc.rest_eq, mul_comm 8]
      · refine hc.advance (List.take_append_drop (8 * (rows * cols * P.d)) _).symm ?_ ?_
        · rw [hlen]
        · rw [hlen]
          omega
      · refine congrArg (ofSlice rows cols) (List.map_injective_iff.mpr Fin.val_injective ?_)
        rw [hws, Span.map_view, hstart, hstop, hcount, hrange]
    · right
      constructor
      · rcases hrun : readPoly P rows cols c with e | ⟨m, c'⟩
        · exact ⟨e, rfl⟩
        · exact absurd (readPoly_inv hrun).2 hwords
      · refine ⟨invalid, ?_⟩
        rw [mappedPoly, if_neg (by omega), Span.check_error (by rw [hcount, hrange]; exact hwords)]
        rfl
  · right
    constructor
    · rcases hrun : readPoly P rows cols c with e | ⟨m, c'⟩
      · exact ⟨e, rfl⟩
      · exact absurd (readPoly_inv hrun).1 hfit
    · exact ⟨invalid, if_pos (by omega)⟩

/-- A mapped block views an owned one. -/
structure Views (B : QueryPackPreprocessed P) (block : MappedBlock P map) : Prop where
  c1 : B.collapseAFinalNtt = polyAt P.d block.c1.view 0
  digits : B.digitsNtt = block.digits.map fun span => digitView P.gadget.ell span.view

theorem inStep_block (hbase : map.base % 8 = 0) (hskip : prefixLen % 8 = 0) :
    InStep (Follows (map.bytes.drop prefixLen)) (readBlock P)
      (mappedBlock P map prefixLen true) Views := by
  refine (inStep_poly hbase hskip 1 1).bind fun m c1 hc1 => ?_
  refine ((inStep_poly hbase hskip P.gadget.ell 1).times (P.d - 1)).bind fun ms digits hms => ?_
  refine InStep.pure ⟨?_, ?_⟩
  · show m.poly 0 0 = _
    rw [hc1]
    exact congrArg (polyAt P.d c1.view) (by ring)
  · show ms = _
    have heach := hms.1
    clear hms
    induction heach with
    | nil => rfl
    | cons hm _ ih => rw [hm, ih, List.map_cons]; rfl

theorem inStep_table (bytes : List UInt8) :
    InStep (Follows bytes) (readTable P) (readTable P) Eq := by
  refine InStep.refl (consumes_table P) fun c table c' used hc hrest hpos hused => ?_
  refine hc.advance hrest hpos ?_
  rw [hused.1, length_words]
  exact Nat.mul_mod_right 8 _

theorem inStep_header {bytes : List UInt8} (n : ℕ) :
    InStep (Follows bytes) (readHeader P n) (readHeader P n) Eq := by
  refine InStep.refl (consumes_header P n) fun c _ c' used hc hrest hpos hused => ?_
  refine hc.advance hrest hpos ?_
  rw [hused.1, List.length_append, length_words]
  exact Nat.add_mul_mod_self_left 16 8 _

theorem forall₂_eq {α : Type} {l l' : List α} (h : List.Forall₂ Eq l l') : l = l' := by
  rwa [List.forall₂_eq_eq_eq] at h

/-- What the mapped state shares with the owned one. -/
structure Mirrors (map : Mmap) (prefixLen n : ℕ)
    (out : List (QueryPackPreprocessed P) × TopKeyImages P) (M : MappedPrepared P) : Prop where
  exists_blocks : ∃ layout : List (MappedBlock P map), List.Forall₂ Views out.1 layout ∧
    M = ⟨map, prefixLen, layout, out.2.kgBodyLeftTables, out.2.kgBodyRightTables⟩

/-- **The constructor goes in step with the reader.** -/
theorem inStep_artefact (hbase : map.base % 8 = 0) (hskip : prefixLen % 8 = 0) (n : ℕ) :
    InStep (Follows (map.bytes.drop prefixLen)) (readArtefact P n)
      (mappedLayout P map prefixLen true n) (Mirrors map prefixLen n) := by
  have hd := P.two_le_d
  have heven := P.two_dvd_d
  have hcount : P.d - 1 = (P.d / 2 - 1) + ((P.d / 2 - 1) + 1) := by omega
  have hpoly := inStep_poly (P := P) hbase hskip 1 P.gadget.ell
  have hside := hpoly.times (P.d / 2 - 1)
  have htables := (inStep_table (P := P) (map.bytes.drop prefixLen)).times (P.d / 2 - 1)
  -- the images are one list of ranges there and three groups of matrices here
  have hlayout : mappedLayout P map prefixLen true n = (do
      readHeader P n
      let layout ← times (mappedBlock P map prefixLen true) n
      let _ ← times (mappedPoly P map prefixLen true 1 P.gadget.ell) (P.d / 2 - 1)
      let _ ← times (mappedPoly P map prefixLen true 1 P.gadget.ell) (P.d / 2 - 1)
      let _ ← mappedPoly P map prefixLen true 1 P.gadget.ell
      let left ← times (readTable P) (P.d / 2 - 1)
      let right ← times (readTable P) (P.d / 2 - 1)
      pure ⟨map, prefixLen, layout, left, right⟩) := by
    rw [mappedLayout, hcount, times_add, times_add]
    simp only [times, bind_assoc, pure_bind]
  rw [hlayout]
  refine (inStep_header n).bind fun _ _ _ => ?_
  refine ((inStep_block hbase hskip).times n).bind fun blocks layout hblocks => ?_
  refine hside.bind fun kgTopLeft _ hleft => ?_
  refine hside.bind fun kgTopRight _ hright => ?_
  refine hpoly.bind fun khTop _ hkh => ?_
  refine htables.bind fun leftTables leftTables' hleftTables => ?_
  refine htables.bind fun rightTables rightTables' hrightTables => ?_
  obtain rfl := forall₂_eq hleftTables.1
  obtain rfl := forall₂_eq hrightTables.1
  have hshape {ms : List (PolyMatrixNTT P.d P.q)} {spans : List (Span P map)}
      (h : List.Forall₂ (fun m span => m = ofSlice 1 P.gadget.ell span.view) ms spans) :
      ∀ m ∈ ms, BodyShape m P.gadget.ell := by
    induction h with
    | nil => exact fun m hm => absurd hm List.not_mem_nil
    | cons hm _ ih => exact List.forall_mem_cons.mpr ⟨hm ▸ ⟨rfl, rfl⟩, ih⟩
  have hshaped : Shaped [] (⟨kgTopLeft, kgTopRight, khTop, leftTables, rightTables⟩ :
      TopKeyImages P) := by
    refine ⟨fun B hB => absurd hB List.not_mem_nil, fun B hB => absurd hB List.not_mem_nil,
      hleft.2, hright.2, fun m hm => ?_, hleftTables.2, hrightTables.2⟩
    rcases List.mem_append.mp hm with hm | hm
    · rcases List.mem_append.mp hm with hm | hm
      · exact hshape hleft.1 m hm
      · exact hshape hright.1 m hm
    · rw [List.mem_singleton.mp hm, hkh]
      exact ⟨rfl, rfl⟩
  dsimp only
  rw [topValid_ok hshaped]
  exact InStep.pure ⟨layout, hblocks.1, rfl⟩

end Step

/-! ## Packing alike -/

section Alike

variable {P : RlweParams}

/-- **The division of the work does not matter** under the gate. -/
theorem collapseTerms_workers {ell : ℕ} (hgate : fusedAccumulatorFits P ell)
    {schedule : List (CollapseTerm P)} (hlen : schedule.length ≤ P.d - 1)
    (hcols : ∀ term ∈ schedule, term.body.cols = ell)
    (workers workers' : Scheduler (CollapseTerm P))
    (b : Ntt P.d P.q) : collapseTerms workers b schedule = collapseTerms workers' b schedule := by
  have hlane (w : Scheduler (CollapseTerm P)) (dst : Fin P.d) :
      collapsePartials (w.divide schedule) dst =
        some (schedule.map fun term => term.total dst).sum := by
    have hfits := sum_total_lt hgate hlen hcols dst
    have heq := collapsePartials_eq (w.divide schedule) dst
    rw [w.flatten_divide] at heq
    exact heq hfits
  have hlanes : collapsePartials (workers.divide schedule) =
      collapsePartials (workers'.divide schedule) := by
    funext dst
    rw [hlane workers dst, hlane workers' dst]
  rw [collapseTerms, collapseTerms, hlanes]

variable {top : TopKeyImages P} {digits : List (PolyMatrixNTT P.d P.q)} {keys : PackingKeys P}

/-- **The schedule of a mapped block** is the one of the owned block. -/
theorem mapped_steps (keys : PackingKeys P) (hshape : BlockShape top digits P.gadget.ell) :
    ∃ steps last,
      (top.kgBodyLeftTables.reverse ++ top.kgBodyRightTables.reverse).zipIdx.mapM
          (fun (table, idx) => do
            let D ← index digits idx
            .ok (⟨keys.kgBody, some table, D⟩ : CollapseTerm P)) =
        (.ok steps : Outcome (List (CollapseTerm P))) ∧
      (index digits (P.d - 2) : Outcome (PolyMatrixNTT P.d P.q)) = .ok last ∧
      steps ++ [⟨keys.khBody, none, last⟩] =
        collapseSchedule keys.kgBody keys.khBody top digits := by
  have hd := P.two_le_d
  have heven := P.two_dvd_d
  obtain ⟨left, right, last, rfl, hleft, hright⟩ := exists_split_digits hshape
  have htables : (top.kgBodyLeftTables.reverse ++ top.kgBodyRightTables.reverse).length =
      (left ++ right).length := by
    rw [List.length_append, List.length_append, hleft, hright]
  have hcount : (left ++ right).length = P.d - 2 := by
    rw [List.length_append, hleft, hright, List.length_reverse, List.length_reverse,
      hshape.left_length, hshape.right_length]
    omega
  refine ⟨List.zipWith (fun table D => ⟨keys.kgBody, some table, D⟩)
    (top.kgBodyLeftTables.reverse ++ top.kgBodyRightTables.reverse) (left ++ right),
      last, ?_, ?_, ?_⟩
  · refine mapM_zipIdx_eq_ok (by rw [List.length_zipWith, htables, min_self]) fun i hi hi' => ?_
    have hdigit : i < (left ++ right).length := htables ▸ hi
    have hget : (left ++ (right ++ [last]))[i]? = some (left ++ right)[i] := by
      rw [← List.append_assoc, List.getElem?_append_left hdigit, List.getElem?_eq_getElem hdigit]
    simp only [index, hget, ok_bind, List.getElem_zipWith]
  · rw [index, ← List.append_assoc, ← hcount, List.getElem?_concat_length]
  · rw [collapseSchedule_append keys.kgBody keys.khBody hleft hright,
      List.zipWith_append hleft.symm, List.append_assoc]
    rfl

/-- A mapped block packs like the owned block that it views. -/
theorem packMappedBlock_eq (hgate : fusedAccumulatorFits P P.gadget.ell)
    (hkeys : keys.validate = .ok ()) (htop : top.validate = .ok ()) {B : QueryPackPreprocessed P}
    (hshape : BlockShape top B.digitsNtt P.gadget.ell) {aFinal : List (Fin P.q)}
    (hc1 : B.collapseAFinalNtt = polyAt P.d aFinal 0) {b : List ℕ} (hb : b.length = P.d)
    (hlt : ∀ v ∈ b, v < P.q) (workers workers' : Scheduler (CollapseTerm P)) :
    ∃ ct, packMappedBlock workers b keys top.kgBodyLeftTables top.kgBodyRightTables B.digitsNtt
        aFinal = .ok ct ∧ B.packB workers' b keys top = .ok ct := by
  obtain ⟨hkg, hkh⟩ := shapes_of_validate hkeys
  obtain ⟨steps, last, hsteps, hlast, hschedule⟩ := mapped_steps keys hshape
  have hlens : ¬(top.kgBodyLeftTables.length ≠ P.d / 2 - 1 ∨
      top.kgBodyRightTables.length ≠ P.d / 2 - 1) := by
    simp [hshape.left_length, hshape.right_length]
  have hcols : ¬(B.digitsNtt.any fun D => D.cols ≠ 1) = true := by
    simp only [List.any_eq_true, decide_eq_true_eq, not_exists, not_and, not_not]
    exact fun D hD => (hshape.digits_shape D hD).2
  -- a canonical body is its own residue
  have hbody : (fun idx : Fin P.d => vecGet b idx % P.q) = fun idx : Fin P.d => vecGet b idx := by
    funext idx
    refine Nat.mod_eq_of_lt ?_
    have hidx : (idx : ℕ) < b.length := hb.symm ▸ idx.isLt
    rw [vecGet, List.getD_eq_getElem _ _ hidx]
    exact hlt _ (List.getElem_mem hidx)
  obtain ⟨out, hout⟩ := finishLanes_schedule hgate hshape hkg hkh
    (P.spiral.toNttAlloc fun idx => vecGet b idx) (workers'.flatten_divide _)
  have hfused : collapseTerms workers (P.spiral.toNttAlloc fun idx => vecGet b idx)
      (collapseSchedule keys.kgBody keys.khBody top B.digitsNtt) = some out := by
    rw [collapseTerms_workers hgate (length_collapseSchedule hshape).le
      (collapseSchedule_cols hshape hkg hkh) workers workers']
    exact hout
  have hrun : collapseUploadedBodyB workers' (P.spiral.toNttAlloc fun idx => vecGet b idx)
      keys.kgBody keys.khBody top B.digitsNtt = .ok out := by
    rw [collapseUploadedBodyB, if_neg (not_not.mpr hshape.digits_length), hkg.2,
      if_neg (not_not.mpr hgate), if_neg hlens, if_neg hcols, collapseTerms, hout]
    rfl
  refine ⟨⟨B.collapseAFinalNtt, out⟩, ?_, ?_⟩
  · rw [packMappedBlock, hkg.2, if_neg (not_not.mpr hgate), hsteps, ok_bind, hlast, ok_bind,
      hschedule, hfused, hc1]
    rfl
  · rw [QueryPackPreprocessed.packB, hkeys, ok_bind, htop, ok_bind,
      QueryPackPreprocessed.packBPrevalidated, if_neg (not_not.mpr hb)]
    simp only [hbody, hrun, ok_bind]

end Alike

/-! ## Interchangeable -/

section Interchangeable

variable {P : RlweParams} {map : Mmap} {prefixLen n : ℕ}

theorem follows_start (bytes : List UInt8) : Follows bytes ⟨0, bytes⟩ :=
  ⟨Nat.zero_le _, List.drop_zero.symm, rfl⟩

/-- Nothing is left exactly at the end. -/
theorem Follows.rest_eq_nil_iff {bytes : List UInt8} {c : Cursor} (h : Follows bytes c) :
    c.rest = [] ↔ c.pos = bytes.length := by
  have hle := h.pos_le
  rw [h.rest_eq, List.drop_eq_nil_iff]
  omega

/-- What `new` returns has been read to the end. -/
theorem layout_of_new {o : Overflow} {M : MappedPrepared P}
    (h : MappedPrepared.new P map prefixLen o true n = .ok M) :
    ∃ c, mappedLayout P map prefixLen true n ⟨0, map.bytes.drop prefixLen⟩ = .ok (M, c) ∧
      c.pos = (map.bytes.drop prefixLen).length := by
  unfold MappedPrepared.new at h
  split at h
  · cases h
  obtain ⟨len, -, h⟩ := bind_eq_ok h
  obtain ⟨expected, -, h⟩ := bind_eq_ok h
  split at h
  · cases h
  split at h
  · cases h
  rcases hlayout : mappedLayout P map prefixLen true n ⟨0, map.bytes.drop prefixLen⟩
    with e | ⟨M', c⟩
  · simp only [hlayout] at h
    cases h
  · simp only [hlayout] at h
    split at h
    · cases h
    · next hpos =>
      cases h
      exact ⟨c, rfl, not_not.mp hpos⟩

/-- A file that has its length and is read to the end is returned. -/
theorem new_of_layout (o : Overflow) (hgate : fusedAccumulatorFits P P.gadget.ell)
    (hlen : (map.bytes.drop prefixLen).length = artefactLen P n) {M : MappedPrepared P} {c : Cursor}
    (hlayout : mappedLayout P map prefixLen true n ⟨0, map.bytes.drop prefixLen⟩ = .ok (M, c))
    (hpos : c.pos = (map.bytes.drop prefixLen).length) :
    MappedPrepared.new P map prefixLen o true n = .ok M := by
  have hlt := map.length_lt
  have hpositive : 0 < artefactLen P n := Nat.lt_of_lt_of_le (by norm_num) (Nat.le_add_right 16 _)
  have hdrop := hlen
  rw [List.length_drop] at hdrop
  have hsum : artefactLen P n + prefixLen = map.bytes.length := by omega
  rw [MappedPrepared.new, if_neg (not_not.mpr hgate), encodedLen_ok o (by omega), ok_bind,
    checkedAdd_some (by omega), hsum]
  simp only [orInvalid, Option.elim_some, ok_bind, hlayout]
  rw [if_neg (not_not.mpr rfl), if_neg (by omega), if_neg (not_not.mpr hpos)]

/-- The chunks of a body that fits the blocks. -/
theorem chunks_canonical {d q n : ℕ} (hd : 0 < d) {l : List ℕ} (hlen : l.length = n * d)
    (hlt : ∀ v ∈ l, v < q) : (chunks d l).length = n ∧
      ∀ b ∈ chunks d l, b.length = d ∧ ∀ v ∈ b, v < q := by
  rw [chunks_exact hd hlen]
  refine ⟨by rw [List.length_map, List.length_range], fun b hb => ?_⟩
  obtain ⟨i, hi, rfl⟩ := List.mem_map.mp hb
  have hfit : (i + 1) * d ≤ n * d := Nat.mul_le_mul_right d (List.mem_range.mp hi)
  rw [Nat.succ_mul] at hfit
  refine ⟨List.length_take_of_le ?_, fun v hv =>
    hlt v (List.mem_of_mem_drop (List.mem_of_mem_take hv))⟩
  rw [List.length_drop, hlen]
  omega

/-- **The views of a file pack like the file.** -/
theorem mirrors_pack (hgate : fusedAccumulatorFits P P.gadget.ell)
    {blocks : List (QueryPackPreprocessed P)} {top : TopKeyImages P} {M : MappedPrepared P}
    (hmirrors : Mirrors map prefixLen n (blocks, top) M) (hshaped : Shaped blocks top)
    (hcount : blocks.length = n) (workers workers' : ℕ → Scheduler (CollapseTerm P))
    {intermediate : List ℕ} (hlen : intermediate.length = n * P.d)
    (hlt : ∀ v ∈ intermediate, v < P.q) {keys : PackingKeys P} (hkeys : keys.validate = .ok ()) :
    ∃ cts, M.pack workers intermediate keys = .ok cts ∧
      ((blocks.zip (chunks P.d intermediate)).zipIdx.mapM fun ((B, b), i) =>
        B.packB (workers' i) b keys top) = .ok cts := by
  obtain ⟨layout, hviews, rfl⟩ := hmirrors.exists_blocks
  obtain ⟨hkg, hkh⟩ := shapes_of_validate hkeys
  obtain ⟨hchunks, hchunk⟩ := chunks_canonical P.d_pos hlen hlt
  have hlayout : layout.length = n := hviews.length_eq.symm.trans hcount
  -- the body and the keys pass the checks
  have hbody : ¬(intermediate.length ≠ layout.length * P.d ∨
      intermediate.any (· ≥ P.q) = true) := by
    rw [hlayout, not_or, not_not, List.any_eq_true]
    refine ⟨hlen, ?_⟩
    rintro ⟨v, hv, hlarge⟩
    exact absurd (hlt v hv) (not_lt.mpr (of_decide_eq_true hlarge))
  have hslices : ¬((asSlice keys.kgBody).length ≠ P.gadget.ell * P.d ∨
      (asSlice keys.khBody).length ≠ P.gadget.ell * P.d) := by
    rw [length_asSlice, length_asSlice, hkg.1, hkg.2, hkh.1, hkh.2, one_mul]
    simp
  rw [MappedPrepared.pack, if_neg hbody, hkeys, ok_bind, if_neg hslices]
  -- block by block, the two pack the same
  refine mapM_agree (List.forall₂_iff_get.mpr ⟨?_, fun i hi hi' => ?_⟩)
  · rw [List.length_zipIdx, List.length_zipIdx, List.length_zip, List.length_zip, hlayout, hcount]
  · rw [List.length_zipIdx, List.length_zip] at hi hi'
    have hB : i < blocks.length := (lt_min_iff.mp hi').1
    have hL : i < layout.length := (lt_min_iff.mp hi).1
    have hview : Views blocks[i] layout[i] := (List.forall₂_iff_get.mp hviews).2 i hB hL
    have hmem : blocks[i] ∈ blocks := List.getElem_mem hB
    have hb : (chunks P.d intermediate)[i] ∈ chunks P.d intermediate := List.getElem_mem _
    obtain ⟨ct, hmapped, howned⟩ := packMappedBlock_eq hgate hkeys hshaped.validate_ok
      (B := blocks[i]) ⟨hshaped.digits_length _ hmem, hshaped.digits_shape _ hmem,
        hshaped.leftTables_length, hshaped.rightTables_length⟩ hview.c1 (hchunk _ hb).1
        (hchunk _ hb).2 (workers i) (workers' i)
    refine ⟨ct, ?_, ?_⟩
    · rw [hview.digits] at hmapped
      simpa only [List.get_eq_getElem, List.getElem_zipIdx, List.getElem_zip, zero_add]
        using hmapped
    · simpa only [List.get_eq_getElem, List.getElem_zipIdx, List.getElem_zip, zero_add] using howned

/-- **The memory-mapped state is interchangeable with the owned one.** -/
theorem mapped_interchangeable (o : Overflow) (P : RlweParams)
    (hgate : fusedAccumulatorFits P P.gadget.ell) (map : Mmap) (prefixLen n : ℕ)
    (hbase : map.base % 8 = 0) (hskip : prefixLen % 8 = 0) :
    ((∃ M, MappedPrepared.new P map prefixLen o true n = .ok M) ↔
      ∃ out, readPrepared P n (map.bytes.drop prefixLen) = .ok out) ∧
    ∀ M blocks top, MappedPrepared.new P map prefixLen o true n = .ok M →
      readPrepared P n (map.bytes.drop prefixLen) = .ok (blocks, top) →
      ∀ (workers workers' : ℕ → Scheduler (CollapseTerm P)) (intermediate : List ℕ)
        (keys : PackingKeys P), intermediate.length = n * P.d → (∀ v ∈ intermediate, v < P.q) →
        keys.validate = .ok () →
        ∃ cts, M.pack workers intermediate keys = .ok cts ∧
          ((blocks.zip (chunks P.d intermediate)).zipIdx.mapM fun item =>
            item.1.1.packB (workers' item.2) item.1.2 keys top) = .ok cts := by
  rcases inStep_artefact hbase hskip n _ (follows_start (map.bytes.drop prefixLen)) with
    ⟨out, M, c, hread, hlayout, hc, hmirrors⟩ | ⟨⟨e, hread⟩, e', hlayout⟩
  · have hrun : readPrepared P n (map.bytes.drop prefixLen) =
        if c.rest = [] then .ok out else .error invalid := by
      rw [readPrepared, run, hread]
    refine ⟨⟨?_, ?_⟩, ?_⟩
    · rintro ⟨M', hnew⟩
      obtain ⟨c', hlayout', hpos⟩ := layout_of_new hnew
      rw [hlayout] at hlayout'
      cases hlayout'
      exact ⟨out, hrun.trans (if_pos (hc.rest_eq_nil_iff.mpr hpos))⟩
    · rintro ⟨out', hout⟩
      have hfile := (consumes_artefact P n).run hout
      have hnil : c.rest = [] := by
        by_contra hne
        rw [hrun, if_neg hne] at hout
        cases hout
      exact ⟨M, new_of_layout o hgate hfile.length_bytes hlayout (hc.rest_eq_nil_iff.mp hnil)⟩
    · intro M' blocks top hnew hout workers workers' intermediate keys hlen hlt hkeys
      have hfile := (consumes_artefact P n).run hout
      obtain ⟨c', hlayout', hpos⟩ := layout_of_new hnew
      rw [hlayout] at hlayout'
      cases hlayout'
      rw [hrun, if_pos (hc.rest_eq_nil_iff.mpr hpos)] at hout
      cases hout
      exact mirrors_pack hgate hmirrors hfile.shaped hfile.length_eq workers workers' hlen hlt hkeys
  · have hnone (M : MappedPrepared P) : MappedPrepared.new P map prefixLen o true n ≠ .ok M := by
      intro hnew
      obtain ⟨c, hlayout', -⟩ := layout_of_new hnew
      rw [hlayout] at hlayout'
      cases hlayout'
    refine ⟨⟨?_, ?_⟩, fun M _ _ hnew => absurd hnew (hnone M)⟩
    · rintro ⟨M, hnew⟩
      exact absurd hnew (hnone M)
    · rintro ⟨out, hout⟩
      rw [readPrepared, run, hread] at hout
      cases hout

/-- The file of a block of the small parameter set is mapped, and packs. -/
theorem mapped_interchangeable_small : ∃ (map : Mmap) (M : MappedPrepared smallParams)
    (cts : List (RlweCiphertext smallParams)),
    MappedPrepared.new smallParams map 8 .traps true 1 = .ok M ∧
      M.pack (fun _ => Scheduler.perItem _) [3, 1, 4, 16] (PackingKeys.generateFull smallParams
        (smallParams.spiral.toNttAlloc fun i => i) smallError smallError) = .ok cts := by
  obtain ⟨top, htop, -⟩ := topImages_build probesSeparate_smallParams
  obtain ⟨aHat, hbuild, -⟩ := queryBuild_eq probesSeparate_smallParams (by decide)
    (fun _ _ => Nat.mod_lt _ (by decide) : ∀ k i, (fun (k i : Fin smallParams.d) =>
      (5 * (k : ℕ) + i) % 17) k i < smallParams.q)
  generalize hB : QueryPackPreprocessed.mk _ _ = B at hbuild
  have hblocks (B' : QueryPackPreprocessed smallParams) (h : B' ∈ [B]) :
      ∃ crs, QueryPackPreprocessed.build smallParams crs = .ok B' :=
    ⟨_, List.mem_singleton.mp h ▸ hbuild⟩
  have hshaped := shaped_of_build htop hblocks
  have hlen : artefactLen smallParams 1 < 2 ^ 64 := by decide
  have hbytes := hshaped.length_artefactBytes
  have hread : readPrepared smallParams 1 (artefactBytes [B] top) = _ :=
    run_eq_ok (reads_artefact hshaped (tabled_of_build htop hlen) (header_lt hlen) 0)
  -- the file stands behind a word
  obtain ⟨map, hbase, hdrop⟩ : ∃ map : Mmap, map.base % 8 = 0 ∧
      map.bytes.drop 8 = artefactBytes [B] top := by
    refine ⟨⟨0, List.replicate 8 0 ++ artefactBytes [B] top, ?_⟩, rfl, rfl⟩
    rw [List.length_append, List.length_replicate, hbytes]
    show 8 + artefactLen smallParams 1 < 2 ^ 64
    decide
  obtain ⟨hiff, hpack⟩ := mapped_interchangeable .traps smallParams (by decide) map 8 1 hbase rfl
  rw [hdrop] at hiff hpack
  obtain ⟨M, hnew⟩ := hiff.mpr ⟨_, hread⟩
  obtain ⟨cts, hcts, -⟩ := hpack M _ _ hnew hread (fun _ => Scheduler.perItem _)
    (fun _ => Scheduler.perItem _) [3, 1, 4, 16] (PackingKeys.generateFull smallParams
      (smallParams.spiral.toNttAlloc fun i => i) smallError smallError) rfl (by decide) rfl
  exact ⟨map, M, cts, hnew, hcts⟩

end Interchangeable

end Inspiring
