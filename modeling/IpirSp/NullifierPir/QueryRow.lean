import IpirSp.NullifierPir.Backend

/-!
# Querying a nullifier

A query looks a nullifier up in its own copy of the snapshot and then checks it through the server:
the row of the nullifier is retrieved and the slot is compared.  An absent nullifier is checked
against all slots of one row.

`queryRow_ok` is one retrieval against a prepared backend, over the three routes that a client
calls.  `query_verifies` puts the lookup, the retrieval and the comparison together.
-/

namespace NullifierPir

open Negacyclic Codec Loops SpiralRs Inspiring MachineWord SimplePir SimplePirKernel

/-! ## Lookup -/

/-- The loop of `find_nullifier`. -/
def findFrom (needle : List UInt8) : ℕ → ℕ → List UInt8 → Result (Option ℕ)
  | 0, _, _ => .ok none
  | remaining + 1, index, reader => do
      let (current, reader) ← readExact reader nullifierBytes
      if current = needle then .ok (some index) else findFrom needle remaining (index + 1) reader

/-- `find_nullifier`. -/
def NullifierSnapshot.findNullifier (snapshot : NullifierSnapshot) (needle : List UInt8) :
    Result (Option ℕ) := findFrom needle snapshot.recordCount 0 snapshot.file

/-- The bytes of a record. -/
def recordAt (file : List UInt8) (index : ℕ) : List UInt8 := (file.drop (index * 32)).take 32

section Lookup

variable {file : List UInt8} {snapshot : NullifierSnapshot}

theorem findFrom_ok (needle : List UInt8) {remaining index : ℕ}
    (hroom : (index + remaining) * 32 ≤ file.length) :
    findFrom needle remaining index (file.drop (index * 32)) =
      .ok ((List.range' index remaining).find? fun i => recordAt file i = needle) := by
  induction remaining generalizing index with
  | zero => rfl
  | succ remaining ih =>
      have hread : readExact (file.drop (index * 32)) nullifierBytes =
          .ok (recordAt file index, file.drop ((index + 1) * 32)) := by
        rw [nullifierBytes_eq, readExact, if_neg (by rw [List.length_drop]; omega), List.drop_drop,
          Nat.succ_mul]
        rfl
      rw [findFrom, hread, ok_bind, List.range'_succ, List.find?_cons]
      dsimp only
      by_cases hfound : recordAt file index = needle
      · rw [if_pos hfound, decide_eq_true hfound]
      · rw [if_neg hfound, decide_eq_false hfound]
        exact ih (by omega)

/-- **The first record that is equal** is found, and nothing when there is none. -/
theorem findNullifier_ok (hopen : NullifierSnapshot.open file = .ok snapshot)
    (needle : List UInt8) : snapshot.findNullifier needle =
      .ok ((List.range snapshot.recordCount).find? fun i => recordAt file i = needle) := by
  obtain ⟨hcontent, -, hfile⟩ := NullifierSnapshot.open_ok hopen
  have hroom : (0 + snapshot.recordCount) * 32 ≤ file.length := by rw [hfile, Nat.zero_add]
  have hrun := findFrom_ok needle hroom
  rw [Nat.zero_mul, List.drop_zero] at hrun
  rw [NullifierSnapshot.findNullifier, hcontent, hrun, List.range_eq_range']

/-- A record that is found is one of the snapshot and equal to the target. -/
theorem recordAt_of_find {needle : List UInt8} {index : ℕ}
    (hopen : NullifierSnapshot.open file = .ok snapshot)
    (hfind : snapshot.findNullifier needle = .ok (some index)) :
    index < snapshot.recordCount ∧ recordAt file index = needle := by
  rw [findNullifier_ok hopen] at hfind
  have hsome := Except.ok.inj hfind
  have hequal := List.find?_some hsome
  exact ⟨List.mem_range.mp (List.mem_of_find?_eq_some hsome), of_decide_eq_true hequal⟩

theorem recordAt_ne_of_find {needle : List UInt8}
    (hopen : NullifierSnapshot.open file = .ok snapshot)
    (hfind : snapshot.findNullifier needle = .ok none) {index : ℕ}
    (hindex : index < snapshot.recordCount) : recordAt file index ≠ needle := by
  rw [findNullifier_ok hopen] at hfind
  have hnone := List.find?_eq_none.mp (Except.ok.inj hfind) index (List.mem_range.mpr hindex)
  exact fun heq => hnone (decide_eq_true heq)

end Lookup

/-! ## The client -/

/-- The routes of the server that a client calls; `query` is `none` where the handler panics. -/
structure Service where
  metadata : BackendMetadata
  publicParams : List UInt8
  query : List UInt8 → Option (ℕ × List UInt8)

/-- The routes of a backend. -/
def LocalIpirBackend.service {P : RlweParams} {K : Type} (host : Host K)
    (validateProfileParts : RlweParams → DatabaseShape → SimplePirProfile → Outcome Unit)
    (workers : ℕ → Scheduler (CollapseTerm P)) (backend : LocalIpirBackend P K) : Service where
  metadata := backend.metadata
  publicParams := backend.publishedC1
  query body := (backend.query host validateProfileParts workers body).toOption

/-- The errors of a client: a text, or the status of a response. -/
inductive QueryError
  | text (msg : String)
  | status (code : ℕ)

/-- The outcome of a client. -/
abbrev Query (α : Type) := Except (Failure QueryError) α

/-- `bail!`. -/
def bail {α : Type} (msg : String) : Query α := .error (.err (.text msg))

/-- A call of the snapshot or of the encoding. -/
def asQuery {α : Type} : Result α → Query α
  | .ok a => .ok a
  | .error (.err msg) => bail msg
  | .error (.panic msg) => .error (.panic msg)

/-- `post_query`, without the measurements. -/
def Service.postQuery (service : Service) (queryBody : List UInt8) : Query (List UInt8) :=
  match service.query queryBody with
  | none => bail "POST /query"
  | some (status, response) => if status = 200 then .ok response else .error (.err (.status status))

/-- `row_contains_nullifier`. -/
def rowContainsNullifier (row target : List UInt8) : Bool :=
  (List.range (row.length / nullifierBytes)).any fun i =>
    (row.drop (i * nullifierBytes)).take nullifierBytes = target

/-- `local_ipir_client`. -/
def localIpirClient (fromDbSz : ℕ → ℕ → Outcome (RlweParams × SchemeParams))
    (pirItemCount row : ℕ) : Query (RlweParams × SchemeParams) :=
  match fromDbSz pirItemCount itemSizeBits with
  | .ok (P, ypir) =>
      if ¬row < ypir.dbRows then bail s!"row {row} is out of range for {ypir.dbRows} db rows"
      else .ok (P, ypir)
  | .error (.err _) => bail s!"server reported an unsupported pir_item_count of {pirItemCount}"
  | .error (.panic msg) => .error (.panic msg)

/-- The comparison at the end of `query_row`. -/
def checkOffset (rowBytes target : List UInt8) : Option ℕ → Query Unit
  | none => .ok ()
  | some offset =>
      match extractNullifier rowBytes offset with
      | none => bail "decoded row did not contain expected nullifier offset"
      | some returned =>
          if returned ≠ target then
            bail "server response decoded, but expected offset did not match target"
          else .ok ()

section Client

variable {R : Type} (o : Overflow) (service : Service)

/-- The part of `query_row` between the client that is built and the row that is decoded. -/
def retrieveRow {P : RlweParams} (gen : ClientRng P R) (rng : PublicRng P) (ypir : SchemeParams)
    (clientSeed : Seed) (setupSeed row : ℕ) : Query (List UInt8) := do
  let blocks := ypir.dbCols / P.d
  let publishedC1 ← unwrapped (recoverPublishedC1 service.publicParams P.d blocks P.q)
  let offlineQueryPolys ←
    unwrapped (generatePublicQuerySetupSimplepirFromSeed rng ypir (seedFromU64 setupSeed))
  let (query, packingKeys, clientSeed) ←
    unwrapped (generateFreshQuerySimplepir gen o ypir offlineQueryPolys row clientSeed)
  let packingKeysBody ←
    match serializePackingKeys P packingKeys with
    | .ok bytes => .ok bytes
    | .error (.err _) => bail "serialize local ipir packing keys"
    | .error (.panic msg) => .error (.panic msg)
  let onlineQueryPacked := query.toSwitchedBytes P.q ypir.queryBits
  let response ← service.postQuery (packingKeysBody ++ onlineQueryPacked)
  let decodedCoeffs ←
    unwrapped (decodeResponseSimplepirRaw gen o ypir clientSeed publishedC1 response)
  asQuery (decodeItemCoefficients decodedCoeffs)

variable (fromDbSz : ℕ → ℕ → Outcome (RlweParams × SchemeParams)) (gen : ∀ P, ClientRng P R)
  (rng : ∀ P, PublicRng P)

/-- `query_row`, without the printing. -/
def queryRow (clientSeed : Seed) (setupSeed row : ℕ) (target : List UInt8)
    (expectedOffset : Option ℕ) : Query (List UInt8) :=
  if service.metadata.setupSeed ≠ setupSeed then
    bail (s!"setup seed mismatch: server reports {service.metadata.setupSeed}, " ++
      s!"client used {setupSeed}")
  else do
    let (P, ypir) ← localIpirClient fromDbSz service.metadata.pirItemCount row
    let rowBytes ← retrieveRow o service (gen P) (rng P) ypir clientSeed setupSeed row
    checkOffset rowBytes target expectedOffset
    .ok rowBytes

/-- `Command::Query` for a nullifier that is expected: its index, its row and its offset. -/
def queryExisting (clientSeed : Seed) (setupSeed : ℕ) (snapshot : NullifierSnapshot)
    (target : List UInt8) : Query (ℕ × ℕ × ℕ) := do
  let found ← asQuery (snapshot.findNullifier target)
  match found with
  | none => bail "nullifier was not found in the snapshot"
  | some index => do
      let (row, offset) := nullifierOffset index
      let rowBytes ← queryRow o service fromDbSz gen rng clientSeed setupSeed row target
        (some offset)
      match extractNullifier rowBytes offset with
      | none => bail "decoded row did not contain expected offset"
      | some returned =>
          if returned ≠ target then bail s!"decoded nullifier did not match target at row {row}"
          else .ok (index, row, offset)

/-- `Command::Query` with `--expect-absent`. -/
def queryAbsent (clientSeed : Seed) (setupSeed : ℕ) (snapshot : NullifierSnapshot)
    (target : List UInt8) (absentProbeRow : ℕ) : Query Unit := do
  let found ← asQuery (snapshot.findNullifier target)
  match found with
  | some index => bail s!"expected absent nullifier, but found it at global index {index}"
  | none => do
      let rowBytes ← queryRow o service fromDbSz gen rng clientSeed setupSeed
        absentProbeRow target none
      if rowContainsNullifier rowBytes target then
        bail s!"absent nullifier unexpectedly appeared in decoded row {absentProbeRow}"
      else .ok ()

end Client

/-! ## Slots of a decoded row -/

/-- What the slot of a row holds: a record, or zeros past the last record. -/
def slotBytes (file : List UInt8) (recordCount row slot : ℕ) : List UInt8 :=
  if row * nullifiersPerItem + slot < recordCount then
    recordAt file (row * nullifiersPerItem + slot)
  else List.replicate nullifierBytes 0

section Slots

variable {file : List UInt8} {recordCount row slot : ℕ} {out : List UInt8}

/-- The slot of a whole row. -/
theorem extractNullifier_ok (hlen : out.length = itemBytes) (hslot : slot < nullifiersPerItem) :
    extractNullifier out slot = some ((out.drop (slot * 32)).take 32) := by
  have hstop : slot * nullifierBytes + nullifierBytes ≤ out.length := by
    rw [nullifiersPerItem_eq] at hslot
    rw [hlen, nullifierBytes_eq, itemBytes_eq]
    omega
  rw [extractNullifier, if_neg (not_le.mpr hslot)]
  dsimp only
  rw [if_pos hstop, List.drop_take, Nat.add_sub_cancel_left, nullifierBytes_eq]

/-- The columns that the bits of a slot lie in. -/
def Touches (slot col : ℕ) : Prop := 256 * slot / 14 ≤ col ∧ col ≤ (256 * slot + 255) / 14

/-- **A slot is decoded** when the columns that it touches are. -/
theorem decode_slot (hfile : file.length = recordCount * 32) (row : ℕ) {decoded : List ℕ}
    (hlen : decoded.length = simplepirCoeffsPerItem) (hslot : slot < nullifiersPerItem)
    (hcols : ∀ col < simplepirCoeffsPerItem, Touches slot col →
      decoded.getD col 0 = (encodeItem (rowBytes file row)).getD col 0) :
    ∃ out, decodeItemCoefficients decoded = .ok out ∧ out.length = itemBytes ∧
      extractNullifier out slot = some (slotBytes file recordCount row slot) := by
  obtain ⟨out, hdecode, hout, hbits⟩ := decodeItemCoefficients_ok hlen.ge
  refine ⟨out, hdecode, hout, ?_⟩
  have hle := length_rowBytes_le file row
  have hslot' : slot < 1792 := hslot
  have hpadded := padded_slot hfile row hslot'
  rw [extractNullifier_ok hout hslot, slotBytes, recordAt, nullifiersPerItem_eq, nullifierBytes_eq,
    ← hpadded]
  set padded := rowBytes file row ++ List.replicate (itemBytes - (rowBytes file row).length) 0
    with hpad
  have hpaddedLen : padded.length = itemBytes := by
    rw [hpad, List.length_append, List.length_replicate]
    omega
  rw [itemBytes_eq] at hout hpaddedLen hbits
  refine congrArg some (ext_streamBit ?_ fun k hk => ?_)
  · rw [List.length_take, List.length_take, List.length_drop, List.length_drop, hout, hpaddedLen]
  · rw [List.length_take, List.length_drop, hout] at hk
    rw [streamBit_take, streamBit_take, streamBit_drop, streamBit_drop]
    have hplace : 8 * (slot * 32) + k < 8 * 57344 := by omega
    have hcol : (8 * (slot * 32) + k) / 14 < simplepirCoeffsPerItem := by
      rw [simplepirCoeffsPerItem_eq]
      omega
    have htouch : Touches slot ((8 * (slot * 32) + k) / 14) := by
      constructor
      · omega
      · omega
    rw [hbits _ hplace, hcols _ hcol htouch, encodeItem_bit _ hplace, hpad, streamBit_append,
      streamBit_replicate]
    split
    · rfl
    · next hpast => rw [streamBit_of_le (not_lt.mp hpast)]

/-- **All slots of a row** are searched. -/
theorem rowContainsNullifier_iff (hlen : out.length = itemBytes)
    (hall : ∀ slot < nullifiersPerItem,
      extractNullifier out slot = some (slotBytes file recordCount row slot))
    (target : List UInt8) :
    rowContainsNullifier out target = true ↔
      ∃ slot < nullifiersPerItem, slotBytes file recordCount row slot = target := by
  have hcount : out.length / nullifierBytes = nullifiersPerItem := by rw [hlen]; rfl
  rw [rowContainsNullifier, hcount, List.any_eq_true]
  constructor
  · rintro ⟨slot, hslot, hfound⟩
    have hlt := List.mem_range.mp hslot
    have hextract := (extractNullifier_ok hlen hlt).symm.trans (hall slot hlt)
    rw [decide_eq_true_eq, nullifierBytes_eq] at hfound
    exact ⟨slot, hlt, (Option.some.inj hextract).symm.trans hfound⟩
  · rintro ⟨slot, hlt, hfound⟩
    have hextract := (extractNullifier_ok hlen hlt).symm.trans (hall slot hlt)
    refine ⟨slot, List.mem_range.mpr hlt, ?_⟩
    rw [decide_eq_true_eq, nullifierBytes_eq]
    exact (Option.some.inj hextract).trans hfound

/-- A target that the snapshot does not have is in a row exactly if it is zero and the row is not
full. -/
theorem exists_slot_iff (row : ℕ) {target : List UInt8}
    (habsent : ∀ index < recordCount, recordAt file index ≠ target) :
    (∃ slot < nullifiersPerItem, slotBytes file recordCount row slot = target) ↔
      target = List.replicate nullifierBytes 0 ∧ recordCount < (row + 1) * nullifiersPerItem := by
  constructor
  · rintro ⟨slot, hslot, hfound⟩
    unfold slotBytes at hfound
    split at hfound
    · next hrecord => exact absurd hfound (habsent _ hrecord)
    · next hpast =>
      refine ⟨hfound.symm, ?_⟩
      rw [nullifiersPerItem_eq] at hslot hpast ⊢
      omega
  · rintro ⟨rfl, hroom⟩
    have hlast : nullifiersPerItem - 1 < nullifiersPerItem := by decide
    refine ⟨nullifiersPerItem - 1, hlast, if_neg ?_⟩
    rw [nullifiersPerItem_eq] at hroom ⊢
    omega

end Slots

/-! ## A retrieval against a prepared backend -/

section Retrieval

variable {K R : Type} {host : Host K} {file : List UInt8} {snapshot : NullifierSnapshot}
  {P : RlweParams} {profile : Option SimplePirProfile} {setupSeed : ℕ} {rng : PublicRng P}
  {validateProfileParts : RlweParams → DatabaseShape → SimplePirProfile → Outcome Unit}
  {backend : LocalIpirBackend P K}

/-- The noise of a column is below half a step of the plaintext. -/
def Quiet {T : Type} [ToU64 T] (t : Transcript P) (server : YServer T K) (ypir : SchemeParams)
    (gen : ClientRng P R) (clientSeed : Seed) (col : ℕ) : Prop :=
  2 * |(t.noise server ypir gen clientSeed col).valMinAbs| < P.delta

/-- A transcript with a backend: the steps ran on what the backend has prepared, and the columns
that are quiet are those of the snapshot. -/
structure IsExchange (host : Host K)
    (validateProfileParts : RlweParams → DatabaseShape → SimplePirProfile → Outcome Unit)
    (file : List UInt8) (setup : PublicQuerySetup P backend.ypir.dbRows) (gen : ClientRng P R)
    (o : Overflow) (workers : ℕ → Scheduler (CollapseTerm P)) (clientSeed : Seed) (row : ℕ)
    (t : Transcript P) : Prop where
  runs : t.Runs host.tryMultiplyQuery validateProfileParts backend.server backend.ypir setup gen o
    workers clientSeed row
  preprocessed : t.preprocessed = backend.packPreprocessed
  images : t.topKeyImages = backend.topKeyImages
  length : t.decoded.length = backend.ypir.dbCols
  decoded : ∀ col < backend.ypir.dbCols, Quiet t backend.server backend.ypir gen clientSeed col →
    t.decoded.getD col 0 = (encodeItem (rowBytes file row)).getD col 0

/-- **A retrieval with a prepared backend.** -/
theorem LocalIpirBackend.IsPrepared.exists_exchange
    (h : backend.IsPrepared validateProfileParts file snapshot setupSeed rng profile)
    (hkernel : host.tryMultiplyQuery.Exact) (gen : ClientRng P R) (o : Overflow)
    (workers : ℕ → Scheduler (CollapseTerm P)) (clientSeed : Seed) {row : ℕ}
    (hrow : row < backend.ypir.dbRows) :
    ∃ t, IsExchange host validateProfileParts file
      (rng.setup backend.ypir (seedFromU64 setupSeed)) gen o workers clientSeed row t := by
  obtain ⟨t, hruns, hlen, hvalue⟩ :=
    h.deployed.exists_transcript hkernel gen o workers clientSeed hrow
  obtain ⟨values, hoffline, hbuild⟩ := h.preprocess
  -- the offline phase and the images depend on nothing but the snapshot and the seed
  have hvalues : t.values = values := Except.ok.inj (hruns.offline.symm.trans hoffline)
  have hbuild' := hruns.preprocess
  rw [hvalues] at hbuild'
  refine ⟨t, hruns, Except.ok.inj (hbuild'.symm.trans hbuild),
    Except.ok.inj (hruns.images.symm.trans h.images), hlen, fun col hcol hquiet => ?_⟩
  obtain ⟨phase, hphase, hcast, hdecoded⟩ := hvalue col hcol
  rw [hdecoded, h.deployed.fits.round_phase hphase (h.deployed.dbAt_lt _) hcast hquiet]
  exact h.holds.cell row hrow col hcol

/-- A request that is parsed has its length. -/
theorem length_of_parseFreshQuery {ypir : YpirSchemeParams} {query : List UInt8}
    {parts : PackingKeys P × List UInt8} (h : parseFreshQuery P ypir query = .ok parts) :
    query.length = serializedFreshQueryLen P ypir := by
  unfold parseFreshQuery at h
  dsimp only at h
  split at h
  · cases h
  next hlen => exact not_not.mp hlen

section Exchange

variable {setup : PublicQuerySetup P backend.ypir.dbRows} {gen : ClientRng P R} {o : Overflow}
  {workers : ℕ → Scheduler (CollapseTerm P)} {clientSeed : Seed} {row : ℕ} {t : Transcript P}

/-- **The route answers**, behind its limit. -/
theorem IsExchange.query_ok
    (h : IsExchange host validateProfileParts file setup gen o workers clientSeed row t) :
    backend.query host validateProfileParts workers (t.keyBytes ++ t.queryBytes backend.ypir) =
      .ok (200, t.response) := by
  have hparse := h.runs.parse
  have hanswer := h.runs.answer
  rw [h.preprocessed, h.images] at hanswer
  have hlen : (t.keyBytes ++ t.queryBytes backend.ypir).length = backend.queryLen :=
    length_of_parseFreshQuery hparse
  have hlimit : ¬(t.keyBytes ++ t.queryBytes backend.ypir).length >
      backend.queryLen + queryBodySlackBytes := by
    rw [hlen]
    exact not_lt.mpr (Nat.le_add_right _ _)
  rw [LocalIpirBackend.query, if_neg hlimit, LocalIpirBackend.answerQuery, hparse]
  dsimp only
  rw [hanswer]

/-- **The client decodes what the transcript decodes.** -/
theorem retrieveRow_ok
    (hprepared : backend.IsPrepared validateProfileParts file snapshot setupSeed rng profile)
    (h : IsExchange host validateProfileParts file
      (rng.setup backend.ypir (seedFromU64 setupSeed)) gen o workers clientSeed row t) :
    retrieveRow o (backend.service host validateProfileParts workers) gen rng
      backend.ypir clientSeed
        setupSeed row = asQuery (decodeItemCoefficients t.decoded) := by
  have hpublished := h.runs.publish
  rw [h.preprocessed, ← hprepared.publishedC1] at hpublished
  have hsetup : generatePublicQuerySetupSimplepirFromSeed rng backend.ypir (seedFromU64 setupSeed) =
      .ok (rng.setup backend.ypir (seedFromU64 setupSeed)) :=
    if_neg (not_not.mpr hprepared.deployed.fits.dbRows_mod)
  have hpost : (backend.service host validateProfileParts workers).postQuery
      (t.keyBytes ++ t.query.toSwitchedBytes P.q backend.ypir.queryBits) = .ok t.response := by
    have hroute := h.query_ok
    rw [Transcript.queryBytes] at hroute
    show (match (backend.query host validateProfileParts workers _).toOption with
      | none => bail "POST /query"
      | some (status, response) =>
          if status = 200 then .ok response else .error (.err (.status status))) = _
    rw [hroute]
    rfl
  show ((unwrapped (recoverPublishedC1 backend.publishedC1 P.d (backend.ypir.dbCols / P.d) P.q) :
    Query _) >>= _) = _
  rw [hpublished]
  simp only [unwrapped, ok_bind, hsetup, h.runs.generate, h.runs.serialize, hpost, h.runs.decode]

end Exchange

end Retrieval

/-! ## A query -/

/-- A snapshot that a host can serve: parameters that are derived for it and match it, and masks
that pass their checks. -/
structure Deployable {K : Type} (host : Host K)
    (validateProfileParts : RlweParams → DatabaseShape → SimplePirProfile → Outcome Unit)
    (fromDbSz : ℕ → ℕ → Outcome (RlweParams × SchemeParams)) (rng : ∀ P, PublicRng P)
    (profile : Option SimplePirProfile) (snapshot : NullifierSnapshot) (setupSeed : ℕ)
    (P : RlweParams) (ypir : SchemeParams) : Prop where
  derived : fromDbSz snapshot.pirRowCount itemSizeBits = .ok (P, ypir)
  fits : Matches snapshot P ypir
  works : host.Works
  accepted : ∀ p ∈ profile, validateProfileParts P ypir.shape p = .ok ()
  separate : ProbesSeparate P
  masks : verifyQueryMasksDistinctFromKeyMasks P
    ((rng P).setup ypir (seedFromU64 setupSeed)).polys = .ok ()

section Queries

variable {K R : Type} {host : Host K} {file : List UInt8} {snapshot : NullifierSnapshot}
  {profile : Option SimplePirProfile} {setupSeed : ℕ} {rng : ∀ P, PublicRng P}
  {validateProfileParts : RlweParams → DatabaseShape → SimplePirProfile → Outcome Unit}
  {fromDbSz : ℕ → ℕ → Outcome (RlweParams × SchemeParams)} {P : RlweParams} {ypir : SchemeParams}

/-- **A deployable snapshot is prepared.** -/
theorem Deployable.prepare_ok (hopen : NullifierSnapshot.open file = .ok snapshot)
    (h : Deployable host validateProfileParts fromDbSz rng profile snapshot setupSeed P ypir) :
    ∃ backend, LocalIpirBackend.prepare host validateProfileParts fromDbSz rng profile snapshot
        setupSeed = .ok ⟨P, backend⟩ ∧ backend.ypir = ypir ∧
      backend.IsPrepared validateProfileParts file snapshot setupSeed (rng P) profile := by
  obtain ⟨backend, hprepare, hypir, hprepared⟩ :=
    prepareInner_ok hopen h.fits h.works h.separate h.accepted (rng P) h.masks
  refine ⟨backend, ?_, hypir, hprepared⟩
  simp only [LocalIpirBackend.prepare, h.derived, withContext, ok_bind, hprepare]

variable {backend : LocalIpirBackend P K} {gen : ∀ P, ClientRng P R} {o : Overflow}
  {workers : ℕ → Scheduler (CollapseTerm P)} {clientSeed : Seed} {row : ℕ} {t : Transcript P}
  {clientFile : List UInt8} {clientSnapshot : NullifierSnapshot} {target : List UInt8}

/-- A query reaches the row that the transcript decodes. -/
theorem queryRow_ok
    (hprepared : backend.IsPrepared validateProfileParts file snapshot setupSeed (rng P) profile)
    (hderived : fromDbSz snapshot.pirRowCount itemSizeBits = .ok (P, backend.ypir))
    (hrow : row < backend.ypir.dbRows)
    (h : IsExchange host validateProfileParts file
      ((rng P).setup backend.ypir (seedFromU64 setupSeed)) (gen P) o workers clientSeed row t)
    {out : List UInt8} (hdecode : decodeItemCoefficients t.decoded = .ok out)
    (target : List UInt8) (expectedOffset : Option ℕ) :
    queryRow o (backend.service host validateProfileParts workers) fromDbSz gen rng
      clientSeed setupSeed
        row target expectedOffset = (do
      checkOffset out target expectedOffset
      .ok out) := by
  have hseed : ¬(backend.service host validateProfileParts workers).metadata.setupSeed ≠
      setupSeed :=
    not_not.mpr hprepared.seed
  have hclient : localIpirClient fromDbSz
      (backend.service host validateProfileParts workers).metadata.pirItemCount row =
        .ok (P, backend.ypir) := by
    show localIpirClient fromDbSz backend.pirItemCount row = _
    rw [localIpirClient, hprepared.pirItemCount, hderived]
    dsimp only
    rw [if_neg (not_not.mpr hrow)]
  have hretrieve := retrieveRow_ok hprepared h
  rw [hdecode] at hretrieve
  rw [queryRow, if_neg hseed, hclient, ok_bind]
  dsimp only
  rw [hretrieve]
  rfl

/-- A row that the server does not have is not asked for. -/
theorem queryRow_outside
    (hprepared : backend.IsPrepared validateProfileParts file snapshot setupSeed (rng P) profile)
    (hderived : fromDbSz snapshot.pirRowCount itemSizeBits = .ok (P, backend.ypir))
    (hrow : backend.ypir.dbRows ≤ row) (target : List UInt8) (expectedOffset : Option ℕ) :
    queryRow o (backend.service host validateProfileParts workers) fromDbSz gen rng clientSeed
        setupSeed row target expectedOffset =
      bail s!"row {row} is out of range for {backend.ypir.dbRows} db rows" := by
  have hseed : ¬(backend.service host validateProfileParts workers).metadata.setupSeed ≠
      setupSeed :=
    not_not.mpr hprepared.seed
  have hclient : localIpirClient fromDbSz
      (backend.service host validateProfileParts workers).metadata.pirItemCount row =
        bail s!"row {row} is out of range for {backend.ypir.dbRows} db rows" := by
    show localIpirClient fromDbSz backend.pirItemCount row = _
    rw [localIpirClient, hprepared.pirItemCount, hderived]
    exact if_pos (not_lt.mpr hrow)
  rw [queryRow, if_neg hseed, hclient]
  rfl

/-- **An expected nullifier** is verified exactly if the slot of the server holds it. -/
theorem queryExisting_iff
    (hprepared : backend.IsPrepared validateProfileParts file snapshot setupSeed (rng P) profile)
    (hopen : NullifierSnapshot.open file = .ok snapshot)
    (hcols : backend.ypir.dbCols = simplepirCoeffsPerItem)
    (hderived : fromDbSz snapshot.pirRowCount itemSizeBits = .ok (P, backend.ypir)) {index : ℕ}
    (hfind : clientSnapshot.findNullifier target = .ok (some index))
    (hrow : (nullifierOffset index).1 < backend.ypir.dbRows)
    (h : IsExchange host validateProfileParts file
      ((rng P).setup backend.ypir (seedFromU64 setupSeed)) (gen P) o workers clientSeed
      (nullifierOffset index).1 t)
    (hquiet : ∀ col < backend.ypir.dbCols, Touches (nullifierOffset index).2 col →
      Quiet t backend.server backend.ypir (gen P) clientSeed col) :
    queryExisting o (backend.service host validateProfileParts workers) fromDbSz gen rng clientSeed
        setupSeed clientSnapshot target = .ok (index, nullifierOffset index) ↔
      slotBytes file snapshot.recordCount (nullifierOffset index).1 (nullifierOffset index).2 =
        target := by
  obtain ⟨-, -, hfile⟩ := NullifierSnapshot.open_ok hopen
  have hslot : (nullifierOffset index).2 < nullifiersPerItem := Nat.mod_lt _ (by decide)
  obtain ⟨out, hdecode, hlen, hextract⟩ := decode_slot hfile (nullifierOffset index).1
    (h.length.trans hcols) hslot fun col hcol htouch =>
      h.decoded col (hcols ▸ hcol) (hquiet col (hcols ▸ hcol) htouch)
  have hrun := queryRow_ok hprepared hderived hrow h hdecode target (some (nullifierOffset index).2)
  simp only [checkOffset, hextract] at hrun
  simp only [queryExisting, hfind, asQuery, ok_bind, hrun]
  by_cases hfound : slotBytes file snapshot.recordCount (nullifierOffset index).1
      (nullifierOffset index).2 = target
  · simp [hfound, hextract, ok_bind]
  · simp [hfound, bail, error_bind]

/-- **An absent nullifier** passes exactly if no slot of the row holds it. -/
theorem queryAbsent_iff
    (hprepared : backend.IsPrepared validateProfileParts file snapshot setupSeed (rng P) profile)
    (hopen : NullifierSnapshot.open file = .ok snapshot)
    (hcols : backend.ypir.dbCols = simplepirCoeffsPerItem)
    (hderived : fromDbSz snapshot.pirRowCount itemSizeBits = .ok (P, backend.ypir))
    (hfind : clientSnapshot.findNullifier target = .ok none)
    (hrow : row < backend.ypir.dbRows)
    (h : IsExchange host validateProfileParts file
      ((rng P).setup backend.ypir (seedFromU64 setupSeed)) (gen P) o workers clientSeed row t)
    (hquiet : ∀ col < backend.ypir.dbCols,
      Quiet t backend.server backend.ypir (gen P) clientSeed col) :
    queryAbsent o (backend.service host validateProfileParts workers) fromDbSz gen rng clientSeed
        setupSeed clientSnapshot target row = .ok () ↔
      ∀ slot < nullifiersPerItem, slotBytes file snapshot.recordCount row slot ≠ target := by
  obtain ⟨-, -, hfile⟩ := NullifierSnapshot.open_ok hopen
  have hslots : ∀ slot < nullifiersPerItem, ∃ out, decodeItemCoefficients t.decoded = .ok out ∧
      out.length = itemBytes ∧
        extractNullifier out slot = some (slotBytes file snapshot.recordCount row slot) :=
    fun slot hslot => decode_slot hfile row (h.length.trans hcols) hslot fun col hcol _ =>
      h.decoded col (hcols ▸ hcol) (hquiet col (hcols ▸ hcol))
  obtain ⟨out, hdecode, hlen, -⟩ := hslots 0 (by decide)
  have hall : ∀ slot < nullifiersPerItem,
      extractNullifier out slot = some (slotBytes file snapshot.recordCount row slot) := by
    intro slot hslot
    obtain ⟨out', hdecode', -, hextract⟩ := hslots slot hslot
    obtain rfl := Except.ok.inj (hdecode.symm.trans hdecode')
    exact hextract
  have hcontains := rowContainsNullifier_iff hlen hall target
  have hrun := queryRow_ok hprepared hderived hrow h hdecode target none
  simp only [queryAbsent, hfind, asQuery, ok_bind, hrun, checkOffset]
  by_cases hfound : rowContainsNullifier out target = true
  · obtain ⟨slot, hslot, heq⟩ := hcontains.mp hfound
    rw [if_pos hfound]
    constructor
    · intro h
      cases h
    · intro hnone
      exact absurd heq (hnone slot hslot)
  · rw [if_neg hfound]
    exact ⟨fun _ slot hslot heq => hfound (hcontains.mpr ⟨slot, hslot, heq⟩), fun _ => rfl⟩

end Queries

/-- The slot of a record that the snapshot has. -/
theorem slotBytes_offset {file : List UInt8} {recordCount index : ℕ}
    (hindex : index < recordCount) :
    slotBytes file recordCount (nullifierOffset index).1 (nullifierOffset index).2 =
      recordAt file index := by
  have hsplit : (nullifierOffset index).1 * nullifiersPerItem + (nullifierOffset index).2 = index :=
    Nat.div_add_mod' index nullifiersPerItem
  rw [slotBytes, hsplit, if_pos hindex]

/-- **A query is answered by the snapshot of the server.**  A deployable snapshot is prepared.  A
client with any copy of a snapshot then verifies a nullifier of its copy exactly if the slot of the
server holds it, as soon as the columns that the slot touches are quiet, and passes an absent one
exactly if no slot of the row that it asks for holds it, as soon as the row is quiet; it bails where
the server does not have the row.  For a copy of the same snapshot the first always holds, and the
second fails for nothing but the zero nullifier on a row that is not full. -/
theorem query_verifies {K R : Type} (host : Host K)
    (validateProfileParts : RlweParams → DatabaseShape → SimplePirProfile → Outcome Unit)
    (fromDbSz : ℕ → ℕ → Outcome (RlweParams × SchemeParams)) (rng : ∀ P, PublicRng P)
    (profile : Option SimplePirProfile) (file : List UInt8) (snapshot : NullifierSnapshot)
    (hopen : NullifierSnapshot.open file = .ok snapshot) (setupSeed : ℕ) (P : RlweParams)
    (ypir : SchemeParams)
    (h : Deployable host validateProfileParts fromDbSz rng profile snapshot setupSeed P ypir) :
    ∃ backend : LocalIpirBackend P K,
      LocalIpirBackend.prepare host validateProfileParts fromDbSz rng profile snapshot setupSeed =
        .ok ⟨P, backend⟩ ∧ backend.ypir = ypir ∧
      (∀ (gen : ∀ P, ClientRng P R) (o : Overflow) (workers : ℕ → Scheduler (CollapseTerm P))
        (clientSeed : Seed) (clientSnapshot : NullifierSnapshot) (target : List UInt8),
        (∀ index, clientSnapshot.findNullifier target = .ok (some index) →
          (nullifierOffset index).1 < backend.ypir.dbRows →
          ∃ t, IsExchange host validateProfileParts file
              ((rng P).setup backend.ypir (seedFromU64 setupSeed)) (gen P) o workers clientSeed
              (nullifierOffset index).1 t ∧
            ((∀ col < backend.ypir.dbCols, Touches (nullifierOffset index).2 col →
                Quiet t backend.server backend.ypir (gen P) clientSeed col) →
              (queryExisting o (backend.service host validateProfileParts workers) fromDbSz gen rng
                  clientSeed setupSeed clientSnapshot target = .ok (index, nullifierOffset index) ↔
                slotBytes file snapshot.recordCount (nullifierOffset index).1
                  (nullifierOffset index).2 = target))) ∧
        (clientSnapshot.findNullifier target = .ok none → ∀ row < backend.ypir.dbRows,
          ∃ t, IsExchange host validateProfileParts file
              ((rng P).setup backend.ypir (seedFromU64 setupSeed)) (gen P) o workers clientSeed
              row t ∧
            ((∀ col < backend.ypir.dbCols,
                Quiet t backend.server backend.ypir (gen P) clientSeed col) →
              (queryAbsent o (backend.service host validateProfileParts workers) fromDbSz gen rng
                  clientSeed setupSeed clientSnapshot target row = .ok () ↔
                ∀ slot < nullifiersPerItem,
                  slotBytes file snapshot.recordCount row slot ≠ target))) ∧
        (∀ index row offset, clientSnapshot.findNullifier target = .ok (some index) →
          nullifierOffset index = (row, offset) → backend.ypir.dbRows ≤ row →
          queryExisting o (backend.service host validateProfileParts workers) fromDbSz gen rng
              clientSeed setupSeed clientSnapshot target =
            bail s!"row {row} is out of range for {backend.ypir.dbRows} db rows") ∧
        (clientSnapshot.findNullifier target = .ok none → ∀ row, backend.ypir.dbRows ≤ row →
          queryAbsent o (backend.service host validateProfileParts workers) fromDbSz gen rng
              clientSeed setupSeed clientSnapshot target row =
            bail s!"row {row} is out of range for {backend.ypir.dbRows} db rows")) ∧
      ∀ target : List UInt8,
        (∀ index, snapshot.findNullifier target = .ok (some index) →
          (nullifierOffset index).1 < backend.ypir.dbRows ∧
            slotBytes file snapshot.recordCount (nullifierOffset index).1
              (nullifierOffset index).2 = target) ∧
        (snapshot.findNullifier target = .ok none → ∀ row,
          (∀ slot < nullifiersPerItem, slotBytes file snapshot.recordCount row slot ≠ target) ↔
            ¬(target = List.replicate nullifierBytes 0 ∧
              snapshot.recordCount < (row + 1) * nullifiersPerItem)) := by
  obtain ⟨backend, hprepare, rfl, hprepared⟩ := h.prepare_ok hopen
  have hkernel := h.works.exact
  have hcols := h.fits.dbCols_eq
  refine ⟨backend, hprepare, rfl, fun gen o workers clientSeed clientSnapshot target =>
    ⟨fun index hfind hrow => ?_, fun hfind row hrow => ?_,
      fun index row offset hfind hoffset hrow => ?_, fun hfind row hrow => ?_⟩, fun target =>
        ⟨fun index hfind => ⟨?_, ?_⟩, fun hfind row => ?_⟩⟩
  · obtain ⟨t, ht⟩ := hprepared.exists_exchange hkernel (gen P) o workers clientSeed hrow
    exact ⟨t, ht, queryExisting_iff hprepared hopen hcols h.derived hfind hrow ht⟩
  · obtain ⟨t, ht⟩ := hprepared.exists_exchange hkernel (gen P) o workers clientSeed hrow
    exact ⟨t, ht, queryAbsent_iff hprepared hopen hcols h.derived hfind hrow ht⟩
  · simp only [queryExisting, hfind, hoffset, asQuery, ok_bind,
      queryRow_outside hprepared h.derived hrow]
    rfl
  · simp only [queryAbsent, hfind, asQuery, ok_bind, queryRow_outside hprepared h.derived hrow]
    rfl
  · obtain ⟨hindex, -⟩ := recordAt_of_find hopen hfind
    refine lt_of_lt_of_le ?_ h.fits.rows_le
    rw [NullifierSnapshot.pirRowCount, lt_pirRowCount_iff, nullifierOffset, nullifiersPerItem_eq]
    dsimp only
    omega
  · obtain ⟨hindex, hequal⟩ := recordAt_of_find hopen hfind
    rw [slotBytes_offset hindex, hequal]
  · have hslots := exists_slot_iff row fun index hindex => recordAt_ne_of_find hopen hfind hindex
    rw [← hslots]
    constructor
    · rintro hnone ⟨slot, hslot, heq⟩
      exact hnone slot hslot heq
    · intro hnone slot hslot heq
      exact hnone ⟨slot, hslot, heq⟩

/-! ## A small query -/

theorem one_lt_rowModulus : 1 < 65537 := by decide

theorem rowModulus_lt_word : 65537 < 2 ^ 64 := by decide

theorem rowDegree_eq : 4 = 2 ^ 2 := rfl

theorem rowRoot_pow : ((16 : ℕ) : ZMod 65537) ^ 4 = -1 := by decide

theorem rowInverse_mul_cast : ((49153 : ℕ) : ZMod 65537) * ((4 : ℕ) : ZMod 65537) = 1 := by decide

/-- A layer at the modulus `2 ^ 16 + 1`, which has room for coefficients of 14 bits. -/
def rowLayer : ReferenceData 4 65537 where
  logLen := 2
  d_eq := rowDegree_eq
  one_lt := one_lt_rowModulus
  lt_word := rowModulus_lt_word
  root := 16
  root_pow := rowRoot_pow
  exp := ![1, 5, 3, 7]
  odd_exp := odd_slotExp
  exp_lt := slotExp_lt
  exp_injective := slotExp_injective
  dInv := 49153
  dInv_mul := rowInverse_mul_cast
  bitsPer ell := 17 / ell + 1
  random seed k i := if seed = REFERENCE_V_SEED then k + 1 else k + 2 * i

theorem three_le_rowModulus : 3 ≤ 65537 := by decide

theorem odd_rowModulus : 65537 % 2 = 1 := by decide

theorem two_le_rowPlaintext : 2 ≤ 2 ^ 14 := by decide

theorem rowPlaintext_le : 2 ^ 14 ≤ 65537 := by decide

theorem rowSigma_pos : (F64.finite false 1 0).isPositive := by decide

theorem rowBits_pos : 0 < 9 := by decide

theorem rowBits_lt : 9 < 64 := by decide

theorem rowCoverage : 65537 ≤ 2 ^ (9 * 2) := by decide

theorem rowBits_eq : rowLayer.params.getBitsPer 2 = 9 := by decide

theorem rowDelta_eq : 4 = 65537 / 2 ^ 14 := by decide

theorem rowInverse_lt : 49153 < 65537 := by decide

theorem rowInverse_mul : 4 * 49153 ≡ 1 [MOD 65537] := by decide

/-- The parameters over it. -/
def rowParams : RlweParams where
  d := 4
  q := 65537
  p := 2 ^ 14
  sigmaChi := .finite false 1 0
  gadget := ⟨9, 2⟩
  delta := 4
  dInv := 49153
  spiral := rowLayer.params
  two_le_d := smallParams.two_le_d
  three_le_q := three_le_rowModulus
  q_odd := odd_rowModulus
  two_le_p := two_le_rowPlaintext
  p_le_q := rowPlaintext_le
  sigmaChi_pos := rowSigma_pos
  bitsPer_pos := rowBits_pos
  bitsPer_lt := rowBits_lt
  ell_pos := Nat.two_pos
  coverage := rowCoverage
  bitsPer_eq := rowBits_eq
  delta_eq := rowDelta_eq
  dInv_lt := rowInverse_lt
  dInv_mul := rowInverse_mul

/-- Four rows of a whole item each, with a query and an answer at the width of the modulus. -/
def rowScheme : SchemeParams where
  dbRows := 4
  queryBits := 17
  numItems := 4
  itemSizeBits := 458752
  polyLen := 4
  dbDim1 := 0
  dbDim2 := 1
  instances := 8192
  dbCols := 32768
  p := 2 ^ 14
  qPrime1 := 65537
  qPrime2 := 65537
  q2Bits := 17
  tExpLeft := 2
  tExpRight := 2

theorem rowScheme_fits : rowScheme.Fits rowParams where
  dbRows_mod := rfl
  dbCols_mod := rfl
  numItems_le := le_rfl
  itemSizeBits_le := by
    show 458752 ≤ 32768 * Nat.log 2 (2 ^ 14)
    rw [Nat.log_pow one_lt_two]
  q_lt := by decide
  gap_le := by decide
  digitsFit := by decide
  gadget_lt := by decide
  response_pos := by decide
  response_lt := by decide
  queryBits_pos := by decide
  queryBits_le := by decide

/-- A host of one thread. -/
def rowHost : Host ChunkedSplitKernel where
  kernel := smallChunkedServer.kernel
  tryReserveExact _ := .ok ()
  tryPrepare kernel _ _ _ := .ok kernel
  tryMultiplyQuery := defaultKernel UInt16 .traps 1

/-- Every public polynomial is `5 + 3 X ^ 3`. -/
def rowRng (P : RlweParams) : PublicRng P where
  uniformU64Below _ draw := [5, 0, 0, 3].getD (draw % 4) 0 % P.q
  uniformU64Below_lt _ _ := Nat.mod_lt _ P.q_pos

/-- A generator that counts its samples: a secret, and no error after it. -/
def rowGen (P : RlweParams) : ClientRng P ℕ where
  fromSeed _ := 0
  sample n := ((if n < 4 then n else 0) % P.q, n + 1)
  noise n := (fun _ _ => 0, n)
  sample_lt _ := Nat.mod_lt _ P.q_pos
  noise_lt _ _ _ := P.q_pos

/-- Two records of sevens. -/
def rowFile : List UInt8 := List.replicate 64 7

theorem deployable_row :
    Deployable rowHost (fun _ _ _ => .ok ()) (fun _ _ => .ok (rowParams, rowScheme))
    rowRng none ⟨rowFile, 2⟩ 7 rowParams rowScheme where
  derived := rfl
  fits := ⟨rowScheme_fits, rfl, by decide, by decide, by decide⟩
  works := ⟨fun _ => rfl, fun kernel _ _ _ => ⟨kernel, rfl⟩, defaultKernel_exact .traps 1⟩
  accepted p hp := by cases hp
  separate := by decide
  masks := rfl

theorem rowError_rowGen (P : RlweParams) (hd : 4 ≤ P.d) (seed : Seed) (row : ℕ) :
    (rowGen P).rowError seed row = 0 := by
  have hstate (turns : ℕ) : Nat.succ^[turns] P.d = P.d + turns := Nat.succ_iterate P.d turns
  have hstart : Nat.succ^[P.d] 0 = P.d := by rw [Nat.succ_iterate, Nat.zero_add]
  show (if Nat.succ^[row] (Nat.succ^[P.d] 0) < 4 then Nat.succ^[row] (Nat.succ^[P.d] 0) else 0) %
    P.q = 0
  rw [hstart, hstate, if_neg (by omega), Nat.zero_mod]

/-- Without errors and at the width of the modulus only the switch of the answer is left. -/
theorem quiet_row (t : Transcript rowParams) (server : YServer UInt16 ChunkedSplitKernel)
    (seed : Seed) (col : ℕ) : Quiet t server rowScheme (rowGen rowParams) seed col := by
  have hzero : (fun _ => Poly.ring rowParams.q 0 : Fin rowParams.gadget.ell →
      NegRing rowParams.d (ZMod rowParams.q)) = 0 := funext fun _ => Poly.ring_zero ..
  have hkg : (fun k : Fin rowParams.gadget.ell => Poly.ring rowParams.q
      (((rowGen rowParams).kgNoise seed).1 k)) = 0 := hzero
  have hkh : (fun k : Fin rowParams.gadget.ell => Poly.ring rowParams.q
      (((rowGen rowParams).khNoise seed).1 k)) = 0 := hzero
  have hkeys := keyError_zero (P := rowParams) (t.digits (col / rowParams.d))
  have herror := rowError_rowGen rowParams le_rfl seed
  have hswitched (v : ℕ) : switched rowParams.q rowScheme.queryBits v = v := rfl
  have hq : Switchable rowParams.q := ⟨by decide, by decide⟩
  have hq₁ : Switchable rowScheme.qPrime1 := ⟨by decide, by decide⟩
  have hback := two_mul_abs_rescale_back_le hq hq₁ (t.body_lt col)
  have hwidth : (rowScheme.qPrime1 : ℤ) = 65537 := rfl
  have hwidth' : (rowParams.q : ℤ) = 65537 := rfl
  have hdelta : (rowParams.delta : ℤ) = 4 := rfl
  rw [hwidth, hwidth'] at hback
  rw [Quiet, hdelta]
  simp only [Transcript.noise, herror, hswitched, hkg, hkh, hkeys, sub_self,
    Nat.cast_zero, mul_zero, Finset.sum_const_zero, add_zero, coeff_zero, zero_add]
  omega

/-- A record of sevens is found in the first slot and verified.  Eights are absent, and so are
zeros, but the row is not full; and there are four rows. -/
theorem query_verifies_row : ∃ backend : LocalIpirBackend rowParams ChunkedSplitKernel,
    LocalIpirBackend.prepare rowHost (fun _ _ _ => .ok ()) (fun _ _ => .ok (rowParams, rowScheme))
        rowRng none ⟨rowFile, 2⟩ 7 = .ok ⟨rowParams, backend⟩ ∧
      queryExisting .traps (backend.service rowHost (fun _ _ _ => .ok ())
          (fun _ => Scheduler.perItem _)) (fun _ _ => .ok (rowParams, rowScheme)) rowGen rowRng
          REFERENCE_W_SEED 7 ⟨rowFile, 2⟩ (List.replicate 32 7) = .ok (0, 0, 0) ∧
      queryAbsent .traps (backend.service rowHost (fun _ _ _ => .ok ())
          (fun _ => Scheduler.perItem _)) (fun _ _ => .ok (rowParams, rowScheme)) rowGen rowRng
          REFERENCE_W_SEED 7 ⟨rowFile, 2⟩ (List.replicate 32 8) 0 = .ok () ∧
      queryAbsent .traps (backend.service rowHost (fun _ _ _ => .ok ())
          (fun _ => Scheduler.perItem _)) (fun _ _ => .ok (rowParams, rowScheme)) rowGen rowRng
          REFERENCE_W_SEED 7 ⟨rowFile, 2⟩ (List.replicate 32 0) 0 ≠ .ok () ∧
      queryAbsent .traps (backend.service rowHost (fun _ _ _ => .ok ())
          (fun _ => Scheduler.perItem _)) (fun _ _ => .ok (rowParams, rowScheme)) rowGen rowRng
          REFERENCE_W_SEED 7 ⟨rowFile, 2⟩ (List.replicate 32 8) 4 =
        bail "row 4 is out of range for 4 db rows" := by
  obtain ⟨backend, hprepare, hypir, hquery, hown⟩ := query_verifies rowHost (fun _ _ _ => .ok ())
    (fun _ _ => .ok (rowParams, rowScheme)) rowRng none rowFile ⟨rowFile, 2⟩ rfl 7
      rowParams rowScheme
    deployable_row
  have hclient := fun target => hquery rowGen .traps (fun _ => Scheduler.perItem _)
    REFERENCE_W_SEED ⟨rowFile, 2⟩ target
  have hseven : NullifierSnapshot.findNullifier ⟨rowFile, 2⟩ (List.replicate 32 7) =
      .ok (some 0) := rfl
  have height : NullifierSnapshot.findNullifier ⟨rowFile, 2⟩ (List.replicate 32 8) =
      .ok none := rfl
  have hzero : NullifierSnapshot.findNullifier ⟨rowFile, 2⟩ (List.replicate 32 0) =
      .ok none := rfl
  have hrows : 0 < backend.ypir.dbRows := by
    rw [hypir]
    decide
  have hquiet : ∀ t col, Quiet t backend.server backend.ypir (rowGen rowParams)
      REFERENCE_W_SEED col := by
    intro t col
    rw [hypir]
    exact quiet_row t backend.server REFERENCE_W_SEED col
  obtain ⟨hrow, hslot⟩ := (hown _).1 0 hseven
  obtain ⟨t, -, hexisting⟩ := (hclient _).1 0 hseven hrow
  obtain ⟨t', -, habsent⟩ := (hclient _).2.1 height 0 hrows
  obtain ⟨t'', -, hpadded⟩ := (hclient _).2.1 hzero 0 hrows
  refine ⟨backend, hprepare, (hexisting fun col _ _ => hquiet t col).mpr hslot,
    (habsent fun col _ => hquiet t' col).mpr (((hown _).2 height 0).mpr fun hboth => ?_),
    fun hpass => ?_, ?_⟩
  · exact absurd hboth.1 (by decide)
  · exact ((hown _).2 hzero 0).mp ((hpadded fun col _ => hquiet t'' col).mp hpass)
      ⟨rfl, by decide⟩
  · have houtside := (hclient _).2.2.2 height 4
    rw [hypir] at houtside
    exact houtside (le_refl 4)

end NullifierPir
