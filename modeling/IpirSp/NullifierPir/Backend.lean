import IpirSp.NullifierPir.Snapshot
import IpirSp.SimplePir.Retrieval

/-!
# The backend of the nullifier server

The backend is built once from a snapshot: the records become the database of a SimplePIR server,
the public query is expanded from a seed, the blocks are preprocessed and their first rows are
published.  After that it answers requests and never changes.

`prepareInner_ok` is that the backend is built and that its server is deployed: the cell of row
`row` and column `col` is coefficient `col` of that row of the snapshot.
-/

namespace NullifierPir

open Codec Loops SpiralRs Inspiring MachineWord SimplePir SimplePirKernel

/-! ## Building -/

/-- `ITEM_SIZE_BITS`. -/
def itemSizeBits : ℕ := itemBytes * 8

/-- `seed_from_u64`. -/
def seedFromU64 (value : ℕ) : Seed :=
  .bytes ((leBytes 8 value).map UInt8.toNat ++ List.replicate 24 0)

/-- `next`, with the scalar type of the database. -/
def SnapshotCoeffIter.nextU16 (iter : SnapshotCoeffIter) :
    SimplePirKernel.Result (Option UInt16 × SnapshotCoeffIter) := do
  let (value, iter) ← iter.next
  .ok (value.map UInt16.ofNat, iter)

/-- The expansion of a seed into residues, draw by draw. -/
structure PublicRng (P : RlweParams) where
  uniformU64Below : Seed → ℕ → ℕ
  uniformU64Below_lt : ∀ seed draw, uniformU64Below seed draw < P.q

/-- The polynomials that a seed is expanded into. -/
def PublicRng.polys {P : RlweParams} (rng : PublicRng P) (seed : Seed) (blocks : ℕ) :
    List (List ℕ) :=
  (List.range blocks).map fun block => (List.range P.d).map fun i =>
    rng.uniformU64Below seed (block * P.d + i)

theorem PublicRng.length_polys {P : RlweParams} (rng : PublicRng P) (seed : Seed) (blocks : ℕ) :
    (rng.polys seed blocks).length = blocks := by
  rw [PublicRng.polys, List.length_map, List.length_range]

theorem PublicRng.length_poly {P : RlweParams} (rng : PublicRng P) (seed : Seed) (blocks : ℕ) :
    ∀ poly ∈ rng.polys seed blocks, poly.length = P.d := by
  intro poly hpoly
  obtain ⟨block, -, rfl⟩ := List.mem_map.mp hpoly
  rw [List.length_map, List.length_range]

theorem PublicRng.poly_lt {P : RlweParams} (rng : PublicRng P) (seed : Seed) (blocks : ℕ) :
    ∀ poly ∈ rng.polys seed blocks, ∀ c ∈ poly, c < P.q := by
  intro poly hpoly c hc
  obtain ⟨block, -, rfl⟩ := List.mem_map.mp hpoly
  obtain ⟨i, -, rfl⟩ := List.mem_map.mp hc
  exact rng.uniformU64Below_lt _ _

/-- The public query of a seed. -/
def PublicRng.setup {P : RlweParams} (rng : PublicRng P) (ypir : SchemeParams) (setupSeed : Seed) :
    PublicQuerySetup P ypir.dbRows where
  polys := rng.polys setupSeed (ypir.dbRows / P.d)
  length_polys := rng.length_polys setupSeed _
  length_poly := rng.length_poly setupSeed _
  poly_lt := rng.poly_lt setupSeed _

/-- `generate_public_query_setup_simplepir_from_seed`. -/
def generatePublicQuerySetupSimplepirFromSeed {P : RlweParams} (rng : PublicRng P)
    (ypir : SchemeParams) (setupSeed : Seed) : Outcome (PublicQuerySetup P ypir.dbRows) :=
  if ypir.dbRows % P.d ≠ 0 then .error (.panic "db rows must split into d-row blocks")
  else .ok (rng.setup ypir setupSeed)

/-- A call with a context for its error. -/
def withContext {α : Type} (msg : String) : Outcome α → Except (Failure BackendError) α
  | .ok a => .ok a
  | .error (.err e) => .error (.err (.context msg (.err e)))
  | .error (.panic msg) => .error (.panic msg)

/-- A call that returns or panics. -/
def unwrapped {ε α : Type} : Outcome α → Except (Failure ε) α
  | .ok a => .ok a
  | .error (.err e) => .error (.panic e.display)
  | .error (.panic msg) => .error (.panic msg)

/-- What a host brings: its memory, its first-dimension kernel and how the kernel is prepared. -/
structure Host (K : Type) where
  kernel : K
  tryReserveExact : ℕ → Except String Unit
  tryPrepare : K → List UInt16 → ℕ → ℕ → SimplePirKernel.Result K
  tryMultiplyQuery : TryMultiplyQuery UInt16 K

/-- `LocalIpirBackend`. -/
structure LocalIpirBackend (P : RlweParams) (K : Type) where
  ypir : SchemeParams
  pirItemCount : ℕ
  setupSeed : ℕ
  server : YServer UInt16 K
  publishedC1 : List UInt8
  packPreprocessed : List (QueryPackPreprocessed P)
  topKeyImages : TopKeyImages P

section Prepare

variable {K : Type}

/-- `with_kernel` on the coefficients of a snapshot, with the profile that is set afterwards. -/
def newServer (host : Host K) (ypir : SchemeParams) (db : SnapshotCoeffIter)
    (profile : Option SimplePirProfile) : Except (Failure BackendError) (YServer UInt16 K) :=
  match tryWithKernel SnapshotCoeffIter.nextU16 host.tryReserveExact host.tryPrepare ypir.shape db
      false true host.kernel with
  | .ok (server, _) => .ok { server with productionProfile := profile }
  | .error (.err e) => .error (.panic s!"matrix-vector backend preparation failed: {e}")
  | .error (.panic msg) => .error (.panic msg)

/-- `prepare_inner`. -/
def LocalIpirBackend.prepareInner (host : Host K)
    (validateProfileParts : RlweParams → DatabaseShape → SimplePirProfile → Outcome Unit)
    (snapshot : NullifierSnapshot) (setupSeed : ℕ) (P : RlweParams) (ypir : SchemeParams)
    (rng : PublicRng P) (profile : Option SimplePirProfile) :
    Except (Failure BackendError) (LocalIpirBackend P K) := do
  let db := snapshot.coeffIter ypir.dbRows
  let server ← newServer host ypir db profile
  let offlineQueryPolys ←
    unwrapped (generatePublicQuerySetupSimplepirFromSeed rng ypir (seedFromU64 setupSeed))
  withContext "setup seed collides with the fixed packing-key masks"
    (verifyQueryMasksDistinctFromKeyMasks P offlineQueryPolys.polys)
  let offline ← unwrapped
    (server.performOfflinePrecomputationSimplepir validateProfileParts P offlineQueryPolys.polys)
  let packPreprocessed ← withContext "build local ipir-sp pack preprocessing"
    (buildPackPreprocessedBlocks P offline.crsBlocks)
  let topKeyImages ← unwrapped (TopKeyImages.build P)
  .ok
    { ypir
      pirItemCount := snapshot.pirRowCount
      setupSeed
      server
      publishedC1 := publishedC1Rows packPreprocessed P.q
      packPreprocessed
      topKeyImages }

/-- `prepare`, with the parameters of a profile or any others. -/
def LocalIpirBackend.prepare (host : Host K)
    (validateProfileParts : RlweParams → DatabaseShape → SimplePirProfile → Outcome Unit)
    (fromDbSz : ℕ → ℕ → Outcome (RlweParams × SchemeParams))
    (rng : ∀ P, PublicRng P) (profile : Option SimplePirProfile) (snapshot : NullifierSnapshot)
    (setupSeed : ℕ) : Except (Failure BackendError) (Σ P, LocalIpirBackend P K) := do
  let (P, ypir) ← withContext "derive local ipir-sp SimplePIR parameters"
    (fromDbSz snapshot.pirRowCount itemSizeBits)
  let backend ← prepareInner host validateProfileParts snapshot setupSeed P ypir (rng P) profile
  .ok ⟨P, backend⟩

end Prepare

/-! ## Answering -/

/-- The errors of a request. -/
inductive ServiceError
  | parse (e : BackendError)
  | online (source : OnlineError)

section Answer

variable {P : RlweParams} {K : Type}

/-- `query_len`. -/
def LocalIpirBackend.queryLen (backend : LocalIpirBackend P K) : ℕ :=
  serializedFreshQueryLen P backend.ypir.toYpirSchemeParams

/-- `answer_query`, without the measurements. -/
def LocalIpirBackend.answerQuery (host : Host K)
    (validateProfileParts : RlweParams → DatabaseShape → SimplePirProfile → Outcome Unit)
    (workers : ℕ → Scheduler (CollapseTerm P)) (backend : LocalIpirBackend P K)
    (query : List UInt8) : Except (Failure ServiceError) (List UInt8) :=
  match parseFreshQuery P backend.ypir.toYpirSchemeParams query with
  | .error e => .error (.err (.parse e))
  | .ok (packingKeys, onlineQuery) =>
      match backend.server.performFullOnlineComputationSimplepirMeasured host.tryMultiplyQuery
        validateProfileParts backend.ypir workers onlineQuery packingKeys backend.topKeyImages
        backend.packPreprocessed with
      | .ok body => .ok body
      | .error (.err e) => .error (.err (.online e))
      | .error (.panic msg) => .error (.panic msg)

/-- `BackendMetadata` of the local backend, as far as a client reads it. -/
structure BackendMetadata where
  pirItemCount : ℕ
  setupSeed : ℕ
deriving DecidableEq

/-- `meta`. -/
def LocalIpirBackend.metadata (backend : LocalIpirBackend P K) : BackendMetadata where
  pirItemCount := backend.pirItemCount
  setupSeed := backend.setupSeed

/-- `QUERY_BODY_SLACK_BYTES`. -/
def queryBodySlackBytes : ℕ := 4096

/-- The route `/query` behind its body limit: a status and a body. -/
def LocalIpirBackend.query (host : Host K)
    (validateProfileParts : RlweParams → DatabaseShape → SimplePirProfile → Outcome Unit)
    (workers : ℕ → Scheduler (CollapseTerm P)) (backend : LocalIpirBackend P K)
    (body : List UInt8) : Except (Failure ServiceError) (ℕ × List UInt8) :=
  if body.length > backend.queryLen + queryBodySlackBytes then .ok (413, [])
  else
    match backend.answerQuery host validateProfileParts workers body with
    | .ok answer => .ok (200, answer)
    | .error (.err _) => .ok (400, [])
    | .error (.panic msg) => .error (.panic msg)

end Answer

/-! ## The database of a snapshot -/

/-- A host whose memory and kernel never fail. -/
structure Host.Works {K : Type} (host : Host K) : Prop where
  reserve : ∀ count, host.tryReserveExact count = .ok ()
  prepare : ∀ kernel db rows cols, ∃ prepared, host.tryPrepare kernel db rows cols = .ok prepared
  exact : host.tryMultiplyQuery.Exact

/-- Parameters that a snapshot is served with: one column a coefficient, a row for every item, and
entries below the plaintext modulus. -/
structure Matches (snapshot : NullifierSnapshot) (P : RlweParams) (ypir : SchemeParams) : Prop where
  fits : ypir.Fits P
  dbCols_eq : ypir.dbCols = simplepirCoeffsPerItem
  rows_le : snapshot.pirRowCount ≤ ypir.dbRows
  size_lt : ypir.dbRows * ypir.dbCols < 2 ^ 64
  entries_le : 2 ^ 14 ≤ P.p

/-- **The production profile matches.** -/
theorem matches_of_productionNew {init : SpiralInit} {noiseWidth : F64 → F64}
    {noiseBits : ℕ → ℕ → ℕ → ℕ} {snapshot : NullifierSnapshot} {P : RlweParams}
    {ypir : SchemeParams}
    (h : productionNew init noiseWidth noiseBits snapshot.pirRowCount itemSizeBits .p14 =
      .ok (P, ypir)) :
    Matches snapshot P ypir := by
  obtain ⟨⟨rlwe, scheme⟩, hbuild, hrest⟩ := bind_eq_ok h
  obtain ⟨_, -, hpair⟩ := bind_eq_ok hrest
  obtain ⟨rfl, rfl⟩ := Prod.mk.inj (Except.ok.inj hpair)
  obtain ⟨-, hsize, hnew, rfl⟩ := buildSimplepirParams_ok_iff.mp hbuild
  have hpinned := pinned_of_new noiseWidth hnew
  have hcols : SimplePirProfile.expectedCols .p14 itemSizeBits = simplepirCoeffsPerItem := by decide
  refine ⟨hpinned.fits _ _, hcols, le_expectedRows _, hsize, ?_⟩
  rw [hpinned.params.2.2.1]
  exact le_rfl

section Database

variable {K : Type} {host : Host K} {file : List UInt8} {snapshot : NullifierSnapshot}
  {P : RlweParams} {ypir : SchemeParams}

theorem emits_nextU16 {iter after : SnapshotCoeffIter} {values : List ℕ}
    (h : Emits SnapshotCoeffIter.next iter values after) :
    Emits SnapshotCoeffIter.nextU16 iter (values.map UInt16.ofNat) after := by
  induction h with
  | nil => exact .nil _
  | cons hnext _ ih =>
      refine .cons ?_ ih
      rw [SnapshotCoeffIter.nextU16, hnext, ok_bind]
      rfl

theorem toU64_ofNat {c : ℕ} (hc : c < 2 ^ 14) : ToU64.toU64 (UInt16.ofNat c) = c :=
  (UInt16.toNat_ofNat' (n := c)).trans (Nat.mod_eq_of_lt (hc.trans (by decide)))

theorem snapshotCoeffs_lt (file : List UInt8) (dbRows : ℕ) :
    ∀ c ∈ snapshotCoeffs file dbRows, c < 2 ^ 14 := by
  intro c hc
  obtain ⟨row, -, hc⟩ := List.mem_flatMap.mp hc
  exact encodeItem_lt _ c hc

/-- The elements that a snapshot emits. -/
def snapshotWords (file : List UInt8) (dbRows : ℕ) : List UInt16 :=
  (snapshotCoeffs file dbRows).map UInt16.ofNat

theorem snapshotWords_lt (file : List UInt8) (dbRows : ℕ) :
    ∀ value ∈ snapshotWords file dbRows, ToU64.toU64 value < 2 ^ 14 := by
  intro value hvalue
  obtain ⟨c, hc, rfl⟩ := List.mem_map.mp hvalue
  have hlt := snapshotCoeffs_lt file dbRows c hc
  rwa [toU64_ofNat hlt]

/-- A server that holds the coefficients of a snapshot. -/
structure Holds (file : List UInt8) (ypir : SchemeParams) (profile : Option SimplePirProfile)
    (server : YServer UInt16 K) : Prop where
  params : server.params = ypir.shape
  profile : server.productionProfile = profile
  length : server.db.length = ypir.dbRows * ypir.dbCols
  loaded : server.Loaded
  elementMax_lt : server.elementMax < 2 ^ 14
  entries_lt : ∀ value ∈ server.db, ToU64.toU64 value < 2 ^ 14
  cell : ∀ row < ypir.dbRows, ∀ col < ypir.dbCols,
    dbAt server.db (col * ypir.dbRows + row) = (encodeItem (rowBytes file row)).getD col 0

/-- An element that is stored in a cell. -/
theorem dbAt_eq_getD (db : List UInt16) (index : ℕ) :
    dbAt db index = ToU64.toU64 (db.getD index 0) := by
  rw [dbAt, List.getD_eq_getElem?_getD]
  cases db[index]? <;> rfl

theorem getD_snapshotWords (file : List UInt8) {dbRows row col : ℕ} (hrow : row < dbRows)
    (hcol : col < simplepirCoeffsPerItem) :
    ToU64.toU64 ((snapshotWords file dbRows).getD (row * simplepirCoeffsPerItem + col) 0) =
      (encodeItem (rowBytes file row)).getD col 0 := by
  have hindex : row * simplepirCoeffsPerItem + col < (snapshotCoeffs file dbRows).length := by
    have hmul := Nat.mul_le_mul_right simplepirCoeffsPerItem (Nat.succ_le_of_lt hrow)
    rw [Nat.succ_mul] at hmul
    rw [length_snapshotCoeffs]
    omega
  have hcell : (snapshotCoeffs file dbRows)[row * simplepirCoeffsPerItem + col]? =
      some ((encodeItem (rowBytes file row)).getD col 0) := by
    rw [← databaseRow_snapshotCoeffs file hrow, databaseRow, List.getD_eq_getElem?_getD,
      List.getElem?_take_of_lt hcol, List.getElem?_drop, List.getElem?_eq_getElem hindex,
      Option.getD_some]
  rw [List.getD_eq_getElem?_getD, snapshotWords, List.getElem?_map, hcell, Option.map_some,
    Option.getD_some]
  exact toU64_ofNat (snapshotCoeffs_lt file dbRows _ (List.mem_of_getElem? hcell))

/-- The largest of small elements is small. -/
theorem largest_lt {values : List UInt16} {elementMax : ℕ} (h : IsLargest values elementMax)
    (hlt : ∀ value ∈ values, ToU64.toU64 value < 2 ^ 14) : elementMax < 2 ^ 14 := by
  rcases eq_or_ne values [] with hnil | hne
  · rw [h.empty hnil]
    exact Nat.two_pow_pos 14
  · obtain ⟨value, hvalue, rfl⟩ := h.attained hne
    exact hlt value hvalue

/-- A server is built from any iterator that has as many elements as the database has cells. -/
theorem tryWithKernel_ok (hhost : host.Works) {σ : Type}
    {next : σ → SimplePirKernel.Result (Option UInt16 × σ)} {rows cols : ℕ} {s t : σ}
    {values : List UInt16} (hrun : Emits next s values t) (hlen : values.length = rows * cols)
    (hsize : rows * cols < 2 ^ 64) (padRows : Bool) :
    ∃ stored prepared, tryWithKernel next host.tryReserveExact host.tryPrepare ⟨rows, cols⟩ s false
        padRows host.kernel =
          .ok (⟨⟨rows, cols⟩, none, stored, padRows, maxFrom 0 values, prepared⟩, t) ∧
      IsColumnMajor stored (fun row col => values.getD (row * cols + col) 0) rows cols rows := by
  obtain ⟨stored, hingest, hstored⟩ := ingestRowMajor_ok le_rfl hrun hlen
  obtain ⟨prepared, hprepared⟩ := hhost.prepare host.kernel stored rows cols
  refine ⟨stored, prepared, ?_, hstored⟩
  have hpadded : (if padRows then DatabaseShape.dbRowsPaddedSimplepir ⟨rows, cols⟩ else rows) =
      rows := ite_self rows
  rw [tryWithKernel]
  dsimp only
  rw [hpadded, if_neg (not_le.mpr hsize), hhost.reserve]
  dsimp only
  rw [if_neg Bool.false_ne_true, hingest, ok_bind]
  dsimp only
  rw [hprepared, ok_bind]

/-- **A server is built from a snapshot.** -/
theorem newServer_ok (hopen : NullifierSnapshot.open file = .ok snapshot)
    (hmatch : Matches snapshot P ypir) (hhost : host.Works) (profile : Option SimplePirProfile) :
    ∃ server, newServer host ypir (snapshot.coeffIter ypir.dbRows) profile = .ok server ∧
      Holds file ypir profile server := by
  obtain ⟨last, hrun, -⟩ := drains_rows hopen ypir.dbRows
  have hemits := emits_nextU16 hrun
  have hlen : (snapshotWords file ypir.dbRows).length = ypir.dbRows * ypir.dbCols := by
    rw [snapshotWords, List.length_map, length_snapshotCoeffs, hmatch.dbCols_eq]
  -- the iterator is read to its end
  obtain ⟨stored, prepared, hbuild, hstored⟩ :=
    tryWithKernel_ok hhost hemits hlen hmatch.size_lt true
  have hlargest := isLargest_maxFrom (snapshotWords file ypir.dbRows)
  have hloaded : (⟨ypir.shape, profile, stored, true, maxFrom 0 (snapshotWords file ypir.dbRows),
      prepared⟩ : YServer UInt16 K).Loaded := loaded_of_isColumnMajor hstored hlen hlargest
  have hmax := largest_lt hlargest (snapshotWords_lt file ypir.dbRows)
  refine ⟨_, ?_, rfl, rfl, hstored.length, hloaded, hmax, fun value hvalue =>
    (hloaded.le_elementMax value hvalue).trans_lt hmax, fun row hrow col hcol => ?_⟩
  · have hshape : ypir.shape = ⟨ypir.dbRows, ypir.dbCols⟩ := rfl
    rw [newServer, hshape, hbuild]
    rfl
  · have hcell := hstored.getD col hcol row hrow
    rw [if_pos hrow, hmatch.dbCols_eq] at hcell
    rw [dbAt_eq_getD, hcell]
    exact getD_snapshotWords file hrow (hmatch.dbCols_eq ▸ hcol)

end Database

/-! ## The prepared backend -/

/-- What a backend is after it has been prepared from a snapshot. -/
structure LocalIpirBackend.IsPrepared {P : RlweParams} {K : Type}
    (validateProfileParts : RlweParams → DatabaseShape → SimplePirProfile → Outcome Unit)
    (file : List UInt8) (snapshot : NullifierSnapshot) (setupSeed : ℕ) (rng : PublicRng P)
    (profile : Option SimplePirProfile) (backend : LocalIpirBackend P K) : Prop where
  pirItemCount : backend.pirItemCount = snapshot.pirRowCount
  seed : backend.setupSeed = setupSeed
  holds : Holds file backend.ypir profile backend.server
  deployed : Deployed validateProfileParts backend.server P backend.ypir
    (rng.setup backend.ypir (seedFromU64 setupSeed)).polys
  preprocess : ∃ values, backend.server.performOfflinePrecomputationSimplepir validateProfileParts P
      (rng.setup backend.ypir (seedFromU64 setupSeed)).polys = .ok values ∧
    buildPackPreprocessedBlocks P values.crsBlocks = .ok backend.packPreprocessed
  images : TopKeyImages.build P = .ok backend.topKeyImages
  publishedC1 : backend.publishedC1 = publishedC1Rows backend.packPreprocessed P.q

section Prepared

variable {K : Type} {host : Host K} {file : List UInt8} {snapshot : NullifierSnapshot}
  {P : RlweParams} {ypir : SchemeParams} {profile : Option SimplePirProfile} {setupSeed : ℕ}
  {validateProfileParts : RlweParams → DatabaseShape → SimplePirProfile → Outcome Unit}

/-- A server that holds a snapshot is deployed under masks that pass their check. -/
theorem Holds.deployed {server : YServer UInt16 K} (h : Holds file ypir profile server)
    (hmatch : Matches snapshot P ypir) (hsep : ProbesSeparate P)
    (hprofile : ∀ p ∈ profile, validateProfileParts P ypir.shape p = .ok ())
    (setup : PublicQuerySetup P ypir.dbRows)
    (hmasks : verifyQueryMasksDistinctFromKeyMasks P setup.polys = .ok ()) :
    Deployed validateProfileParts server P ypir setup.polys := by
  have hp : 2 ^ 14 ≤ P.q := hmatch.entries_le.trans P.p_le_q
  have hrows : server.params.dbRows = ypir.dbRows := congrArg DatabaseShape.dbRows h.params
  have hcols : server.params.dbCols = ypir.dbCols := congrArg DatabaseShape.dbCols h.params
  refine ⟨⟨?_, h.elementMax_lt.trans_le hp, ?_, ?_, ?_, setup.length_poly⟩, h.loaded, h.params,
    hmatch.fits, hsep, hmasks, fun value hvalue =>
      (h.entries_lt value hvalue).trans_le hmatch.entries_le⟩
  · rw [YServer.validateBoundRlwe, h.profile, h.params]
    rcases profile with _ | p
    · rfl
    · exact hprofile p rfl
  · rw [hrows]
    exact hmatch.fits.dbRows_mod
  · rw [hrows, hcols]
    exact h.length
  · rw [hrows]
    exact setup.length_polys

/-- **A backend is prepared** from every snapshot that opens, under parameters that match it, when
the public masks pass their check. -/
theorem prepareInner_ok (hopen : NullifierSnapshot.open file = .ok snapshot)
    (hmatch : Matches snapshot P ypir) (hhost : host.Works) (hsep : ProbesSeparate P)
    (hprofile : ∀ p ∈ profile, validateProfileParts P ypir.shape p = .ok ()) (rng : PublicRng P)
    (hmasks : verifyQueryMasksDistinctFromKeyMasks P
      (rng.setup ypir (seedFromU64 setupSeed)).polys = .ok ()) :
    ∃ backend, LocalIpirBackend.prepareInner host validateProfileParts snapshot setupSeed P ypir rng
        profile = .ok backend ∧ backend.ypir = ypir ∧
      backend.IsPrepared validateProfileParts file snapshot setupSeed rng profile := by
  obtain ⟨server, hserver, hholds⟩ := newServer_ok hopen hmatch hhost profile
  have hdeployed := hholds.deployed hmatch hsep hprofile _ hmasks
  obtain ⟨values, hoffline, hareMasks⟩ := hdeployed.offline_ok
  obtain ⟨top, htop, -⟩ := topImages_build hsep
  obtain ⟨preprocessed, hbuild, -, -⟩ :=
    buildBlocks_ok hsep hmatch.fits.digitsFit hareMasks.square htop
  have hsetup : generatePublicQuerySetupSimplepirFromSeed rng ypir (seedFromU64 setupSeed) =
      .ok (rng.setup ypir (seedFromU64 setupSeed)) := if_neg (not_not.mpr hmatch.fits.dbRows_mod)
  refine ⟨⟨ypir, snapshot.pirRowCount, setupSeed, server, publishedC1Rows preprocessed P.q,
    preprocessed, top⟩, ?_, rfl, rfl, rfl, hholds, hdeployed, ⟨values, hoffline, hbuild⟩, htop, rfl⟩
  simp only [LocalIpirBackend.prepareInner, hserver, hsetup, hmasks, hoffline, hbuild,
    htop, unwrapped, withContext, ok_bind]

end Prepared

end NullifierPir
