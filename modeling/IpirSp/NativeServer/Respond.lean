import IpirSp.NativeServer.Build

/-!
# Answering a request

`respond` parses a request, multiplies its query with all columns, packs every `d` products with the
keys of the request and rounds the bodies to the response width.

A server scans words or bytes, in tiles or column by column, with byte dot products or with the
portable loop.  `scan_ok` says that every way computes the products of the records modulo `q`, and
`respond_congr` that servers of records with the same values answer every request alike.
-/

namespace NativeServer

open Reinspiring SpiralRs Codec Loops MachineWord NativeClient

variable {d q : ℕ} {P : NativeParams d q} {T : Type}

section Code

/-- A parallel loop over slices of `intermediate`, with the parts of the database that belong to
them.  A slice without a part stays zero. -/
def scanSlices (cols size width : ℕ) (db : List T) (product : List T → ℕ → Result (List ℕ)) :
    Result (List ℕ) := do
  let outs ← ((chunks size (List.replicate cols 0)).zip (chunks (size * width) db)).mapM
    fun (out, part) => product part out.length
  let out := outs.flatten
  return out ++ List.replicate (cols - out.length) 0

/-- The products of all columns: bands of sixteen columns, or whole columns. -/
def scanDatabase (interleaved : Bool) (rows cols : ℕ) (multiply : List T → ℕ → Result (List ℕ))
    (dot : List T → Result ℕ) (db : List T) : Result (List ℕ) :=
  if interleaved then scanSlices cols 16 rows db multiply
  else scanSlices cols 1 rows (db.take (db.length / rows * rows)) fun column _ =>
    (fun x => [x]) <$> dot column

/-- The matrix-vector product of `respond`. -/
def scan (host : Host) (lanes : Overflow) (S : NativeServer P) (Q : PreparedU16Query) :
    Result (List ℕ) :=
  let p := S.setup.profile
  match S.db with
  | .u16 db => scanDatabase S.interleaved p.rows p.cols (Q.multiplyInterleaved lanes)
      (Q.dot host lanes) db
  | .u8 db => scanDatabase S.interleaved p.rows p.cols (Q.multiplyInterleavedU8 lanes)
      (Q.dotU8 host) db

/-- The body that one block makes of its `d` products. -/
def packBody (twoMask : Bool) (keys : PreparedNativeKeys d q) (B : NativePreprocessed P)
    (b : Poly d) : Result (Poly d) :=
  if twoMask then
    (fun ct : NativeTwoMaskCiphertext d => ct.b) <$>
      (B.preparePack keys >>= fun pending => pending.finishTwoMask b)
  else
    (fun ct : NativeCiphertext d => ct.b) <$>
      (B.preparePack keys >>= fun pending => pending.finish b)

/-- `respond`, in a build whose scalar operations and whose lanes overflow as given. -/
def respond (prim : Primitives) (host : Host) (o lanes : Overflow) (S : NativeServer P)
    (bytes : List UInt8) : Result (List UInt8) := do
  let p := S.setup.profile
  let (keys, query) ← parseRequest o S.setup bytes
  let intermediate ← scan host lanes S (PreparedU16Query.ofWords host query q)
  match S.pre with
  | [] => .error (.panic "index out of bounds: the len is 0 but the index is 0")
  | first :: _ => do
      let prepared ← first.prepareKeys keys
      let bodies ← (S.pre.zip (chunksExact d intermediate)).mapM fun (B, b) =>
        packBody p.twoMask prepared B b
      return (if p.twoMask then asciiBytes "RNR2" else asciiBytes "RNR1") ++
        List.ofFn S.setup.id ++ List.ofFn (prim.sha256 bytes) ++
        encode (down (flatWords bodies) q p.responseBits) p.responseBits

end Code

/-- `PreparedU16Query::new` is its check, then the digits of its words. -/
theorem preparedQuery_new (host : Host) (words : List ℕ) (q : ℕ) :
    PreparedU16Query.new host words q =
      (fun words => PreparedU16Query.ofWords host words q) <$> preparedU16Query words q := by
  unfold PreparedU16Query.new preparedU16Query
  split <;> rfl

/-! ## Scanning -/

section Scan

variable {rows cols : ℕ} {value : ℕ → ℕ}

/-- Slices that are computed whole. -/
theorem scanSlices_ok {size count : ℕ} (hsize : 0 < size) (hrows : 0 < rows)
    (hcols : cols = count * size) {db : List T} (hlen : db.length = cols * rows)
    {product : List T → ℕ → Result (List ℕ)}
    (hproduct : ∀ i < count, product ((db.drop (i * (size * rows))).take (size * rows)) size =
      .ok ((((List.range cols).map value).drop (i * size)).take size)) :
    scanSlices cols size rows db product = .ok ((List.range cols).map value) := by
  have hvalues : ((List.range cols).map value).length = cols := by
    rw [List.length_map, List.length_range]
  have hzeros : (List.replicate cols 0).length = cols := List.length_replicate
  have hslice : ∀ start ∈ blockStarts (List.replicate cols 0).length size,
      product ((db.drop (start * rows)).take (size * rows))
          (((List.replicate cols 0).drop start).take size).length =
        .ok ((((List.range cols).map value).drop start).take size) := by
    intro start hstart
    rw [hzeros, hcols, blockStarts_mul count hsize] at hstart
    obtain ⟨i, hi, rfl⟩ := List.mem_map.mp hstart
    have hi := List.mem_range.mp hi
    have hroom : (i + 1) * size ≤ count * size := Nat.mul_le_mul_right _ hi
    rw [Nat.add_mul, one_mul] at hroom
    have hlength : (((List.replicate cols 0).drop (i * size)).take size).length = size := by
      rw [List.length_take, List.length_drop, hzeros]
      omega
    rw [hlength, mul_assoc]
    exact hproduct i hi
  have hrun := mapM_zip_chunks (f := fun slice : List ℕ × List T => product slice.2 slice.1.length)
    hrows (by rw [hlen, hzeros]) (hvalues.trans hzeros.symm) hslice
  unfold scanSlices
  rw [hrun, ok_bind, flatten_chunks hsize]
  dsimp only
  rw [hvalues, Nat.sub_self, List.replicate_zero, List.append_nil]
  rfl

/-- A slice of the products. -/
theorem slice_values (value : ℕ → ℕ) (size : ℕ) {count i : ℕ} (hi : i < count) :
    (((List.range (count * size)).map value).drop (i * size)).take size =
      (List.range size).map fun c => value (i * size + c) := by
  have hroom : (i + 1) * size ≤ count * size := Nat.mul_le_mul_right _ hi
  rw [Nat.add_mul, one_mul] at hroom
  refine List.ext_getElem ?_ fun c hc hc' => ?_
  · rw [List.length_take, List.length_drop, List.length_map, List.length_range, List.length_map,
      List.length_range]
    omega
  · rw [List.getElem_take, List.getElem_drop, List.getElem_map, List.getElem_range,
      List.getElem_map, List.getElem_range]

/-- The value of a column in a list of columns. -/
def columnAt [Zero T] (toNat : T → ℕ) (db : List T) (rows c r : ℕ) : ℕ :=
  toNat (db.getD (c * rows + r) 0)

/-- Column by column. -/
theorem scanDatabase_columns [Zero T] (hrows : 0 < rows) {toNat : T → ℕ} {product : (ℕ → ℕ) → ℕ}
    (hproduct : ∀ x y, (∀ r < rows, x r = y r) → product x = product y)
    {multiply : List T → ℕ → Result (List ℕ)} {dot : List T → Result ℕ}
    (hdot : ∀ column : List T, column.length = rows →
      dot column = .ok (product fun r => toNat (column.getD r 0)))
    {db : List T} (hlen : db.length = rows * cols) :
    scanDatabase false rows cols multiply dot db =
      .ok ((List.range cols).map fun c => product (columnAt toNat db rows c)) := by
  rw [scanDatabase, if_neg Bool.false_ne_true, hlen, Nat.mul_div_cancel_left _ hrows,
    mul_comm cols, List.take_of_length_le hlen.le]
  refine scanSlices_ok one_pos hrows (mul_one cols).symm (hlen.trans (mul_comm _ _))
    fun c hc => ?_
  have hroom : (c + 1) * rows ≤ cols * rows := Nat.mul_le_mul_right _ hc
  rw [Nat.add_mul, one_mul, mul_comm cols] at hroom
  have hcolumn : ((db.drop (c * rows)).take rows).length = rows := by
    rw [List.length_take, List.length_drop]
    omega
  have hvalue : product (fun r => toNat (((db.drop (c * rows)).take rows).getD r 0)) =
      product (columnAt toNat db rows c) := by
    refine hproduct _ _ fun r hr => ?_
    rw [columnAt, List.getD_eq_getElem?_getD, List.getElem?_take_of_lt hr, List.getElem?_drop,
      ← List.getD_eq_getElem?_getD]
  have hslice : (((List.range cols).map fun c => product (columnAt toNat db rows c)).drop
      c).take 1 = [product (columnAt toNat db rows c)] := by
    have hslice := slice_values (fun c => product (columnAt toNat db rows c)) 1 hc
    simpa using hslice
  rw [one_mul, mul_one, hdot _ hcolumn, hvalue, hslice]
  rfl

/-- Band by band. -/
theorem scanDatabase_bands [Zero T] (hrows : 0 < rows) {toNat : T → ℕ} {product : (ℕ → ℕ) → ℕ}
    (hproduct : ∀ x y, (∀ r < rows, x r = y r) → product x = product y)
    {multiply : List T → ℕ → Result (List ℕ)} {dot : List T → Result ℕ}
    {interleave : List T → ℕ → Result (List T)}
    (hband : ∀ band tiles : List T, band.length = rows * 16 → interleave band rows = .ok tiles →
      tiles.length = rows * 16 ∧ multiply tiles 16 =
        .ok ((List.range 16).map fun c => product (columnAt toNat band rows c)))
    {count : ℕ} (hcols : cols = count * 16) {db : List T} (hlen : db.length = rows * cols)
    {bands : List (List T)}
    (hbands : (chunks (rows * 16) db).mapM (fun band => interleave band rows) = .ok bands) :
    scanDatabase true rows cols multiply dot bands.flatten =
      .ok ((List.range cols).map fun c => product (columnAt toNat db rows c)) := by
  have hlen' : db.length = count * (rows * 16) := by
    rw [hlen, hcols]
    ring
  rw [chunks_exact (by omega) hlen', List.mapM_map] at hbands
  have hall := forall₂_of_mapM_eq_ok hbands
  have hcount : bands.length = count := by rw [← hall.length_eq, List.length_range]
  -- band `i` and its tiles
  have hget (i : ℕ) (hi : i < count) : bands[i].length = rows * 16 ∧ multiply bands[i] 16 =
      .ok ((List.range 16).map fun c => product (columnAt toNat (bandAt db rows i) rows c)) := by
    have htiles := hall.get (i := i) (by rwa [List.length_range]) (hcount ▸ hi)
    rw [List.get_eq_getElem, List.get_eq_getElem, List.getElem_range] at htiles
    exact hband _ _ (length_bandAt hlen' hi) htiles
  have hsizes : ∀ band ∈ bands, band.length = rows * 16 := by
    intro band hmem
    obtain ⟨i, hi, rfl⟩ := List.getElem_of_mem hmem
    exact (hget i (hcount ▸ hi)).1
  have htotal : bands.flatten.length = cols * rows := by
    rw [List.length_flatten, List.map_congr_left hsizes, List.map_const', List.sum_replicate,
      hcount, hcols, smul_eq_mul]
    ring
  rw [scanDatabase, if_pos rfl]
  refine scanSlices_ok (by decide) hrows hcols htotal fun i hi => ?_
  have hvalues := slice_values (fun c => product (columnAt toNat db rows c)) 16 hi
  rw [← hcols] at hvalues
  rw [mul_comm 16, take_drop_flatten hsizes (hcount ▸ hi), (hget i hi).2, hvalues]
  refine congrArg Except.ok (List.map_congr_left fun c hc => hproduct _ _ fun r hr => ?_)
  have hcolumn := bandElement_bandAt db i ⟨c, List.mem_range.mp hc⟩ hr
  exact congrArg toNat hcolumn

end Scan

section Servers

variable {lib : NumberTheory} {host : Host} {S : NativeServer P} {words : List ℕ}

/-- What a server stores is scanned column by column or band by band. -/
theorem BuiltFrom.scanDatabase_ok [Zero T] [DatabaseEntry T] {records : List T}
    (hS : BuiltFrom lib host records S) (hrows : 0 < S.setup.profile.rows) (product : (ℕ → ℕ) → ℕ)
    (hproduct : ∀ x y, (∀ r < S.setup.profile.rows, x r = y r) → product x = product y)
    {multiply : List T → ℕ → Result (List ℕ)} {dot : List T → Result ℕ}
    (hdot : ∀ column : List T, column.length = S.setup.profile.rows →
      dot column = .ok (product fun r => DatabaseEntry.toU64 (column.getD r 0)))
    (hband : S.setup.profile.rows % 4 = 0 → ∀ band tiles : List T,
      band.length = S.setup.profile.rows * 16 →
      DatabaseEntry.interleave band S.setup.profile.rows = .ok tiles →
      tiles.length = S.setup.profile.rows * 16 ∧ multiply tiles 16 = .ok ((List.range 16).map
        fun c => product (columnAt DatabaseEntry.toU64 band S.setup.profile.rows c))) :
    ∃ db, S.db = DatabaseEntry.wrap db ∧
      scanDatabase S.interleaved S.setup.profile.rows S.setup.profile.cols multiply dot db =
        .ok ((List.range S.setup.profile.cols).map fun c =>
          product (columnAt DatabaseEntry.toU64 records S.setup.profile.rows c)) := by
  obtain ⟨db, hdb, hstored⟩ := hS.stored
  refine ⟨db, hdb, ?_⟩
  cases hinterleaved : S.interleaved with
  | false =>
      rw [hinterleaved, if_neg Bool.false_ne_true] at hstored
      rw [hstored]
      exact scanDatabase_columns hrows hproduct hdot hS.length_eq
  | true =>
      rw [hinterleaved, if_pos rfl] at hstored
      obtain ⟨hfour, hcols, htiles⟩ := hstored
      unfold interleaveDatabase at htiles
      obtain ⟨bands, hbands, htiles⟩ := bind_eq_ok htiles
      obtain rfl := Except.ok.inj htiles
      exact scanDatabase_bands hrows hproduct (hband hfour)
        (Nat.div_mul_cancel (Nat.dvd_of_mod_eq_zero hcols)).symm hS.length_eq hbands

variable (hrows : 0 < S.setup.profile.rows) (host' : Host) (lanes : Overflow)
  {Q : PreparedU16Query} (hQ : Q.Prepares q words) (hlen : words.length = S.setup.profile.rows)

theorem columnProduct_congr {x y : ℕ → ℕ} (h : ∀ r < words.length, x r = y r) :
    columnProduct q x words = columnProduct q y words :=
  congrArg (· % q) (Finset.sum_congr rfl fun r hr =>
    congrArg (· * words.getD r 0) (h r (Finset.mem_range.mp hr)))

include hrows hQ hlen

/-- **The scan of a server of bytes.** -/
theorem scan_u8 {records : List UInt8} (hS : BuiltFrom lib host records S) :
    scan host' lanes S Q = .ok ((List.range S.setup.profile.cols).map fun c =>
      columnProduct q (columnAt UInt8.toNat records S.setup.profile.rows c) words) := by
  obtain ⟨db, hdb, hscan⟩ := hS.scanDatabase_ok hrows (fun x => columnProduct q x words)
    (fun x y h => columnProduct_congr (by rwa [hlen]))
    (fun column hcolumn => hQ.dotU8_eq host' (hcolumn.trans hlen.symm))
    (fun hfour band tiles hband htiles => by
      have htiles' : interleaveU8Columns band words.length = .ok tiles := by rwa [hlen]
      have hone : band.length = 1 * (words.length * 16) := by rw [hband, hlen, one_mul]
      have hmultiply := hQ.multiplyInterleavedU8_eq lanes ⟨by rwa [hlen], by rwa [hlen]⟩
        hone htiles'
      rw [one_mul, hlen] at hmultiply
      exact ⟨(length_of_interleaveBands htiles).trans hband, hmultiply⟩)
  unfold scan
  rw [hdb]
  exact hscan

/-- **The scan of a server of words.** -/
theorem scan_u16 {records : List UInt16} (hS : BuiltFrom lib host records S) :
    scan host' lanes S Q = .ok ((List.range S.setup.profile.cols).map fun c =>
      columnProduct q (columnAt UInt16.toNat records S.setup.profile.rows c) words) := by
  obtain ⟨db, hdb, hscan⟩ := hS.scanDatabase_ok hrows (fun x => columnProduct q x words)
    (fun x y h => columnProduct_congr (by rwa [hlen]))
    (fun column hcolumn => hQ.dot_eq host' lanes (hcolumn.trans hlen.symm))
    (fun hfour band tiles hband htiles => by
      have htiles' : interleaveColumns band words.length = .ok tiles := by rwa [hlen]
      have hone : band.length = 1 * (words.length * 16) := by rw [hband, hlen, one_mul]
      have hmultiply := hQ.multiplyInterleaved_eq lanes ⟨by rwa [hlen], by rwa [hlen]⟩ hone htiles'
      rw [one_mul, hlen] at hmultiply
      exact ⟨(length_of_interleaveBands htiles).trans hband, hmultiply⟩)
  unfold scan
  rw [hdb]
  exact hscan

end Servers

/-! ## Answers -/

section Answers

variable {lib : NumberTheory} {host host' : Host} {S S' : NativeServer P}

/-- The query of a parsed request has a word for every row, and they are prepared. -/
theorem query_of_parseRequest {o : Overflow} {setup : NativePublicSetup P}
    (hprofile : setup.profile.Valid) {bytes : List UInt8} {keys : NativeKeys d} {query : List ℕ}
    (h : parseRequest o setup bytes = .ok (keys, query)) :
    query.length = setup.profile.rows ∧
      ∀ host, (PreparedU16Query.ofWords host query q).Prepares q query := by
  rw [parseRequest_eq o hprofile, parseFields] at h
  split at h; · cases h
  obtain ⟨words, -, h⟩ := bind_eq_ok h
  obtain ⟨keys', -, h⟩ := bind_eq_ok h
  obtain ⟨codes, hcodes, h⟩ := bind_eq_ok h
  obtain ⟨prepared, hprepared, h⟩ := bind_eq_ok h
  obtain ⟨rfl, rfl⟩ := Prod.mk.inj (Except.ok.inj h)
  have hwords : prepared = up codes q setup.profile.queryBits := by
    unfold preparedU16Query at hprepared
    split at hprepared
    · cases hprepared
    · exact (Except.ok.inj hprepared).symm
  constructor
  · rw [hwords, up, List.length_map]
    have hrows := Valid.rows_le hprofile
    have hbits := hprofile.queryBits_le.trans (min_le_left _ _)
    exact (decode_ok (fields_fit (by omega) (by omega)) hcodes).1
  · intro host
    rw [← hwords] at hprepared
    have hnew : PreparedU16Query.new host prepared q =
        .ok (PreparedU16Query.ofWords host prepared q) := by
      rw [preparedQuery_new, hprepared]
      rfl
    exact prepares_of_new host hnew

/-- Blocks that differ in their storage only make the same bodies. -/
theorem packBody_congr {B B' : NativePreprocessed P} (h : SameBlock B B') (hrows : B.h.rows = d)
    (twoMask : Bool) (keys : PreparedNativeKeys d q) (b : Poly d) :
    packBody twoMask keys B' b = packBody twoMask keys B b := by
  unfold packBody
  rw [h.finish_eq hrows, h.finishTwoMask_eq hrows]

/-- **Servers whose scans and blocks agree** answer alike. -/
theorem respond_of_scan (hvalid : S.setup.profile.Valid) (hsetup : S'.setup = S.setup)
    (prim : Primitives) (o o' : Overflow) {lanes lanes' : Overflow}
    (hpre : List.Forall₂ (fun B B' => SameBlock B B' ∧ B.BuiltFor lib S.setup.packing) S.pre S'.pre)
    (hscan : ∀ query : List ℕ, query.length = S.setup.profile.rows →
      (∀ host, (PreparedU16Query.ofWords host query q).Prepares q query) →
      scan host' lanes' S' (PreparedU16Query.ofWords host' query q) =
        scan host lanes S (PreparedU16Query.ofWords host query q)) (bytes : List UInt8) :
    respond prim host' o' lanes' S' bytes = respond prim host o lanes S bytes := by
  unfold respond
  rw [hsetup, parseRequest_congr o' o hvalid]
  rcases hparse : parseRequest o S.setup bytes with e | ⟨keys, query⟩
  · rfl
  obtain ⟨hlen, hprepares⟩ := query_of_parseRequest hvalid hparse
  rw [ok_bind, ok_bind]
  dsimp only
  rw [hscan query hlen hprepares]
  refine congrArg _ (funext fun intermediate => ?_)
  have hbodies (twoMask : Bool) (keys : PreparedNativeKeys d q) :
      ((S'.pre.zip (chunksExact d intermediate)).mapM fun (B, b) => packBody twoMask keys B b) =
        (S.pre.zip (chunksExact d intermediate)).mapM fun (B, b) => packBody twoMask keys B b := by
    refine mapM_eq_mapM _ _ ?_ fun i hi hi' => ?_
    · rw [List.length_zip, List.length_zip, hpre.length_eq]
    · rw [List.getElem_zip, List.getElem_zip]
      have hi' : i < S.pre.length := by
        rw [List.length_zip] at hi'
        omega
      obtain ⟨hsame, hbuilt⟩ := hpre.get hi' (hpre.length_eq ▸ hi')
      exact packBody_congr hsame hbuilt.rows_eq _ _ _
  generalize S.pre = pre at hpre hbodies
  generalize S'.pre = pre' at hpre hbodies
  cases hpre with
  | nil => rfl
  | cons hfirst _ =>
      dsimp only
      rw [hfirst.1.prepareKeys_eq]
      refine congrArg _ (funext fun prepared => ?_)
      rw [hbodies]

/-- **Bytes or words**: servers of the same records answer every request alike, whatever host built
and serves them. -/
theorem respond_u8_eq_u16 (hvalid : S.setup.profile.Valid) (hsetup : S'.setup = S.setup)
    {records : List UInt8} (hS : BuiltFrom lib host records S) {host₁ : Host}
    (hS' : BuiltFrom lib host₁ (records.map UInt8.toUInt16) S') (prim : Primitives)
    (o o' lanes lanes' : Overflow) (server server' : Host) (bytes : List UInt8) :
    respond prim server' o' lanes' S' bytes = respond prim server o lanes S bytes := by
  have hvalues : (records.map UInt8.toUInt16).map DatabaseEntry.toU64 =
      records.map DatabaseEntry.toU64 := by
    rw [List.map_map]
    exact List.map_congr_left fun x _ => UInt8.toNat_toUInt16 x
  refine respond_of_scan hvalid hsetup prim o o' (forall₂_sameBlock hS hS' hsetup hvalues)
    (fun query hlen hQ => ?_) bytes
  have hrows := hvalid.rows_pos
  have hcolumns := scan_u16 (S := S') (by rwa [hsetup]) server' lanes' (hQ server')
    (by rw [hsetup, hlen]) hS'
  rw [hcolumns, scan_u8 hrows server lanes (hQ server) hlen hS, hsetup]
  refine congrArg Except.ok (List.map_congr_left fun c _ => columnProduct_congr fun r _ => ?_)
  rw [columnAt, columnAt, ← UInt8.toNat_toUInt16, List.getD_eq_getElem?_getD,
    List.getD_eq_getElem?_getD, List.getElem?_map]
  rcases records[c * S.setup.profile.rows + r]? with _ | x <;> rfl

end Answers

/-! ## All scans -/

/-- All products of one prepared query, on every host and for every behaviour of overflowing
lanes. -/
structure ComputesProducts (Q : PreparedU16Query) (q : ℕ) (words : List ℕ) : Prop where
  dot_u8 : ∀ (host : Host) (column : List UInt8), column.length = words.length →
    Q.dotU8 host column = .ok (columnProduct q (fun r => (column.getD r 0).toNat) words)
  dot : ∀ (host : Host) (lanes : Overflow) (column : List UInt16), column.length = words.length →
    Q.dot host lanes column = .ok (columnProduct q (fun r => (column.getD r 0).toNat) words)
  interleaved_u8 : 0 < words.length → words.length % 4 = 0 → ∀ (lanes : Overflow) (count : ℕ)
    (db : List UInt8), db.length = words.length * (count * 16) →
    ∃ tiles, interleaveU8Columns db words.length = .ok tiles ∧
      Q.multiplyInterleavedU8 lanes tiles (count * 16) = .ok ((List.range (count * 16)).map fun c =>
        columnProduct q (columnAt UInt8.toNat db words.length c) words)
  interleaved : 0 < words.length → words.length % 4 = 0 → ∀ (lanes : Overflow) (count : ℕ)
    (db : List UInt16), db.length = words.length * (count * 16) →
    ∃ tiles, interleaveColumns db words.length = .ok tiles ∧
      Q.multiplyInterleaved lanes tiles (count * 16) = .ok ((List.range (count * 16)).map fun c =>
        columnProduct q (columnAt UInt16.toNat db words.length c) words)

theorem computesProducts {Q : PreparedU16Query} {words : List ℕ} (hQ : Q.Prepares q words) :
    ComputesProducts Q q words := by
  have hlen {α : Type} {db : List α} {count : ℕ} (h : db.length = words.length * (count * 16)) :
      db.length = count * (words.length * 16) := by
    rw [h]
    ring
  refine ⟨fun host _ h => hQ.dotU8_eq host h, fun host lanes _ h => hQ.dot_eq host lanes h,
    fun hpos hfour lanes count db h => ?_, fun hpos hfour lanes count db h => ?_⟩
  · have htiles := interleaveBands_ok u8Writes ⟨hpos, hfour⟩ (hlen h)
    exact ⟨_, htiles, hQ.multiplyInterleavedU8_eq lanes ⟨hpos, hfour⟩ (hlen h) htiles⟩
  · have htiles := interleaveBands_ok u16Writes ⟨hpos, hfour⟩ (hlen h)
    exact ⟨_, htiles, hQ.multiplyInterleaved_eq lanes ⟨hpos, hfour⟩ (hlen h) htiles⟩

/-- **All scans compute the same product.**  A canonical query of an admitted modulus is prepared on
every host, and every kernel then returns the products of the columns modulo `q`, whatever a lane
does on overflow.  Servers that were built from the same records, one of bytes and one of words, on
any hosts and with any number of blocks at a time, answer every request with the same bytes. -/
theorem scans_agree :
    (∀ k : ℕ, 1 ≤ k → k ≤ 56 → ∀ words : List ℕ, (∀ x ∈ words, x < 2 ^ k) → ∀ host : Host,
      ∃ Q, PreparedU16Query.new host words (2 ^ k) = .ok Q ∧ ComputesProducts Q (2 ^ k) words) ∧
    ∀ (d q : ℕ) (P : NativeParams d q) (setup : NativePublicSetup P), setup.profile.Reachable →
      ∀ (lib : NumberTheory) (host host' : Host) (n n' : ℕ) (records : List UInt8)
        (S S' : NativeServer P), buildU8WithConcurrency lib host setup records n = .ok S →
        buildWithConcurrency lib host' setup (records.map UInt8.toUInt16) n' = .ok S' →
        ∀ (prim : Primitives) (server server' : Host) (o o' lanes lanes' : Overflow)
          (bytes : List UInt8),
          respond prim server' o' lanes' S' bytes = respond prim server o lanes S bytes := by
  constructor
  · intro k hk hle words hwords host
    have hpow : IsPowerOfTwo (2 ^ k) := by rw [IsPowerOfTwo, Nat.log2_two_pow]
    have htwo : 2 ≤ 2 ^ k := Nat.le_self_pow (by omega) 2
    have hmodulus : 2 ^ k ≤ 2 ^ 56 := Nat.pow_le_pow_right two_pos hle
    have hcheck : ¬(¬IsPowerOfTwo (2 ^ k) ∨ ¬(2 ≤ 2 ^ k ∧ 2 ^ k ≤ 2 ^ 56) ∨
        ∃ x ∈ words, x ≥ 2 ^ k) := by
      rintro (hne | hne | ⟨x, hx, hge⟩)
      · exact hne hpow
      · exact hne ⟨htwo, hmodulus⟩
      · exact absurd (hwords x hx) (not_lt.mpr hge)
    have hnew : PreparedU16Query.new host words (2 ^ k) =
        .ok (PreparedU16Query.ofWords host words (2 ^ k)) := if_neg hcheck
    exact ⟨_, hnew, computesProducts (prepares_of_new host hnew)⟩
  · intro d q P setup hprofile lib host host' n n' records S S' hS hS' prim server server' o o'
      lanes lanes' bytes
    obtain ⟨rfl, hbuilt⟩ := builtFrom_of_buildU8 hS
    obtain ⟨hsetup, hbuilt'⟩ := builtFrom_of_build hS'
    exact respond_u8_eq_u16 hprofile.valid hsetup hbuilt hbuilt' prim o o' lanes lanes' server
      server' bytes

/-- The largest words of the largest modulus, and a server of each kind. -/
theorem scans_agree_small :
    (∃ Q, PreparedU16Query.new ⟨true, true, true, true, true⟩ [2 ^ 56 - 1, 2 ^ 55] (2 ^ 56) =
      .ok Q ∧ Q.dot ⟨true, true, true, true, true⟩ .traps [65535, 1] = .ok (2 ^ 55 - 65535)) ∧
    ∃ S S', buildU8WithConcurrency nativeNumberTheory ⟨true, true, true, true, true⟩ ditherSetup
        (List.replicate 32 255) 1 = .ok S ∧
      buildWithConcurrency nativeNumberTheory ⟨false, false, false, false, false⟩ ditherSetup
        ((List.replicate 32 255).map UInt8.toUInt16) 3 = .ok S' ∧
      ∀ bytes, respond smallPrimitives ⟨true, true, true, true, true⟩ .traps .traps S' bytes =
        respond smallPrimitives ⟨false, false, false, false, false⟩ .wraps .wraps S bytes := by
  obtain ⟨hproducts, hservers⟩ := scans_agree
  obtain ⟨lift, hlift⟩ := liftContext_new_dither
  have hvalid : ditherSetup.profile.Valid := ditherProfile_reachable.valid
  constructor
  · obtain ⟨Q, hQ, hcomputes⟩ := hproducts 56 (by decide) le_rfl [2 ^ 56 - 1, 2 ^ 55]
      (by decide) ⟨true, true, true, true, true⟩
    refine ⟨Q, hQ, (hcomputes.dot _ .traps [65535, 1] rfl).trans (congrArg Except.ok ?_)⟩
    decide
  · have hbytes : ∀ x ∈ List.replicate 32 (255 : UInt8), DatabaseEntry.toU64 x < 2 ^ 8 := by
      intro x hx
      rw [List.eq_of_mem_replicate hx]
      decide
    have hhalves : ∀ x ∈ List.replicate 32 (255 : UInt16), DatabaseEntry.toU64 x < 2 ^ 8 := by
      intro x hx
      rw [List.eq_of_mem_replicate hx]
      decide
    obtain ⟨S, hS⟩ := exists_buildInternal ⟨true, true, true, true, true⟩ hlift
      invertsOdd_native hvalid (List.length_replicate (n := 32) (a := (255 : UInt8)))
      hbytes one_ne_zero fun _ hcols => absurd hcols (by decide)
    obtain ⟨S', hS'⟩ := exists_buildInternal ⟨false, false, false, false, false⟩ hlift
      invertsOdd_native hvalid (List.length_replicate (n := 32) (a := (255 : UInt16)))
      hhalves three_ne_zero fun _ hcols => absurd hcols (by decide)
    have hbuild : buildU8WithConcurrency nativeNumberTheory ⟨true, true, true, true, true⟩
        ditherSetup (List.replicate 32 255) 1 = .ok S := by
      rw [buildU8WithConcurrency, if_neg (by decide), hS]
    have hbuild' : buildWithConcurrency nativeNumberTheory ⟨false, false, false, false, false⟩
        ditherSetup ((List.replicate 32 255).map UInt8.toUInt16) 3 = .ok S' := by
      rw [buildWithConcurrency, if_neg (by decide), List.map_replicate]
      exact hS'
    exact ⟨S, S', hbuild, hbuild', hservers _ _ _ ditherSetup ditherProfile_reachable _
      _ _ _ _ _ _ _ hbuild hbuild' _ _ _ _ _ _ _⟩

/-- **The sums of a kernel wrap**: the word before the mask is not the exact sum. -/
theorem u64_lane_overflows : ¬∀ (host : Host) (column : List UInt16) (words : List ℕ),
    column.length = words.length → (∀ x ∈ words, x < 2 ^ 56) →
    dotU16 host column words =
      ∑ r ∈ Finset.range words.length, (column.getD r 0).toNat * words.getD r 0 := by
  intro h
  have hexact := h ⟨false, false, false, false, false⟩ [65535] [2 ^ 56 - 1] rfl (by decide)
  revert hexact
  decide

end NativeServer
