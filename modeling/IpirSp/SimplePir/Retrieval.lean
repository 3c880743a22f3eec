import IpirSp.SimplePir.Blocks
import IpirSp.SimplePirKernel.Avx512

/-!
# A retrieval

A retrieval runs through both sides: the snapshot is preprocessed, the client asks for a row, the
server answers and the client decodes.  `Transcript` is what is exchanged and kept on the way and
`Transcript.Runs` that every step of it returned.

`retrieval` is the correctness of the protocol.  No step fails, and what is decoded for a column is
the entry of the target row, as long as the noise of that column is below half a step of the
plaintext.  The noise has four parts, each of which is written down exactly: the errors of the
query, what the query loses when it is switched, the errors of the packing keys on the digits of the
block, and what the body loses when it is switched.
-/

namespace SimplePir

open Negacyclic SpiralRs Inspiring Loops MachineWord NativeClient SimplePirKernel

/-! ## Kernels -/

section Kernels

variable {T K : Type} [ToU64 T]

/-- A kernel that returns the product on all operands with a row. -/
def TryMultiplyQuery.Exact (kernel : TryMultiplyQuery T K) : Prop :=
  ∀ (k : K) (P : RlweParams) (A : Operands T), 0 < A.rowsPadded →
    kernel k P A.db A.rowsPadded A.cols A.query A.elementMax A.out =
      .ok (product P.q A.db A.rowsPadded A.cols A.query)

theorem defaultKernel_exact (o : Overflow) (threads : ℕ) : (defaultKernel T o threads).Exact :=
  fun k P A _ => chunked_spec k o threads P A

/-- The kernel of a server that is built for wide vectors. -/
def avx512Kernel (o lanes : Overflow) (threads : ℕ) : TryMultiplyQuery UInt16 U16Avx512Kernel :=
  fun kernel P db rows cols query elementMax out =>
    kernel.multiplyQuery o lanes threads P db rows cols query elementMax out

theorem avx512Kernel_exact (o lanes : Overflow) (threads : ℕ) :
    (avx512Kernel o lanes threads).Exact :=
  fun k P A hrows => avx512_spec k o lanes threads P A hrows

variable {server : YServer T K} {P : RlweParams} {queryPolys : List (List ℕ)}
  {validateProfileParts : RlweParams → DatabaseShape → SimplePirProfile → Outcome Unit}

/-- **An exact kernel behind the checks of the server.** -/
theorem tryMultiplyQuery_exact {kernel : TryMultiplyQuery T K} (hkernel : kernel.Exact)
    (h : Admitted validateProfileParts server P queryPolys) (hloaded : server.Loaded)
    (hrows : 0 < server.params.dbRows) {query : List UInt64}
    (hlen : query.length = server.params.dbRows) :
    server.tryMultiplyQuery kernel validateProfileParts P query =
      .ok (product P.q server.db server.params.dbRows server.params.dbCols query) := by
  rw [YServer.tryMultiplyQuery, h.bound]
  dsimp only
  rw [dbRowsPadded_eq, if_neg (not_not.mpr hlen)]
  exact hkernel server.kernel P ⟨server.db, server.params.dbRows,
    server.params.dbCols, query, server.elementMax, List.replicate server.params.dbCols 0, hlen,
    h.db_length, List.length_replicate, hloaded.le_elementMax, hloaded.elementMax_le⟩ hrows

end Kernels

/-! ## The randomness of a client -/

section Randomness

variable {P : RlweParams} {R : Type}

/-- The secret of a seed. -/
def ClientRng.secret (gen : ClientRng P R) (seed : Seed) : List ℕ :=
  (gen.sampleGaussian (gen.fromSeed seed)).1

/-- The errors of the first key body, and the state after them. -/
def ClientRng.kgNoise (gen : ClientRng P R) (seed : Seed) : (ℕ → Poly P.d) × R :=
  gen.noise (gen.sampleGaussian (gen.fromSeed seed)).2

/-- The errors of the second key body, and the state after them. -/
def ClientRng.khNoise (gen : ClientRng P R) (seed : Seed) : (ℕ → Poly P.d) × R :=
  gen.noise (gen.kgNoise seed).2

/-- The error of a row of the query. -/
def ClientRng.rowError (gen : ClientRng P R) (seed : Seed) (row : ℕ) : ℕ :=
  gen.draws (gen.khNoise seed).2 row

theorem ClientRng.rowError_lt (gen : ClientRng P R) (seed : Seed) (row : ℕ) :
    gen.rowError seed row < P.q := gen.sample_lt _

theorem ClientRng.length_secret (gen : ClientRng P R) (seed : Seed) :
    (gen.secret seed).length = P.d := List.length_ofFn

theorem ClientRng.secret_lt (gen : ClientRng P R) (seed : Seed) (i : Fin P.d) :
    vecGet (gen.secret seed) i < P.q := by
  have hi : (i : ℕ) < (gen.secret seed).length := by
    rw [gen.length_secret]
    exact i.2
  rw [vecGet, List.getD_eq_getElem _ _ hi]
  exact (List.getElem_ofFn hi).trans_lt (gen.sample_lt _)

/-- The secret in the transform domain. -/
theorem secretToNtt_ok (gen : ClientRng P R) (seed : Seed) :
    ∃ secretNtt, secretToNtt P (gen.secret seed) = .ok secretNtt ∧
      P.spiral.ring secretNtt = secretRing P (gen.secret seed) := by
  refine ⟨_, if_neg (not_not.mpr (gen.length_secret seed)), ?_⟩
  rw [P.spiral.ring_toNttAlloc fun i => P.spiral.lt_word_of_le (gen.secret_lt seed i).le]
  rfl

end Randomness

/-! ## The query on its way -/

section Switched

variable {q bits : ℕ}

/-- **The answer loses little**: a body that is switched down and up again. -/
theorem two_mul_abs_rescale_back_le {q₁ : ℕ} (hq : Switchable q) (hq₁ : Switchable q₁) {v : ℕ}
    (hv : v < q) :
    2 * q₁ * |((rescale (rescale v q q₁) q₁ q : ZMod q) - v).valMinAbs| ≤ q + q₁ := by
  have hclose := close_rescale hq.pos hq.lt hq₁.pos hq₁.lt hv
  have hshort := Rounding.abs_valMinAbs_sub_le hq.pos v (rescale (rescale v q q₁) q₁ q)
  exact (mul_le_mul_of_nonneg_left hshort (by positivity)).trans hclose.le

variable {T K : Type} [ToU64 T]

/-- The product of a column with a query of words. -/
theorem cast_columnSum_words (db : List T) (rows col : ℕ) {query : List ℕ}
    (hlt : ∀ row, query.getD row 0 < 2 ^ 64) :
    (columnSum db rows (queryWords query) col rows : ZMod q) =
      ∑ row ∈ Finset.range rows, (query.getD row 0 : ZMod q) * dbAt db (col * rows + row) := by
  rw [columnSum, Nat.cast_sum]
  refine Finset.sum_congr rfl fun row _ => ?_
  rw [Nat.cast_mul, queryAt_queryWords (hlt row)]

end Switched

/-! ## Transcripts -/

section Transcripts

variable {T K R : Type} [ToU64 T]

/-- What a deployment promises: an admitted and loaded server of the shape of the parameters,
entries below the plaintext modulus, and masks and probes that pass their checks. -/
structure Deployed
    (validateProfileParts : RlweParams → DatabaseShape → SimplePirProfile → Outcome Unit)
    (server : YServer T K) (P : RlweParams) (ypir : SchemeParams) (queryPolys : List (List ℕ)) :
    Prop where
  admitted : Admitted validateProfileParts server P queryPolys
  loaded : server.Loaded
  shape : server.params = ypir.shape
  fits : ypir.Fits P
  separate : ProbesSeparate P
  masks : verifyQueryMasksDistinctFromKeyMasks P queryPolys = .ok ()
  entries : ∀ value ∈ server.db, ToU64.toU64 value < P.p

/-- What is exchanged and kept in a retrieval. -/
structure Transcript (P : RlweParams) where
  values : OfflinePrecomputedValues
  preprocessed : List (QueryPackPreprocessed P)
  topKeyImages : TopKeyImages P
  query : IPIRSimpleQuery
  keys : PackingKeys P
  keyBytes : List UInt8
  /-- The keys that the server has read. -/
  packingKeys : PackingKeys P
  /-- The products that the server packs. -/
  intermediate : List ℕ
  packed : List (RlweCiphertext P)
  response : List UInt8
  publishedC1 : List (List ℕ)
  decoded : List ℕ

variable {P : RlweParams}

/-- The bytes of the query. -/
def Transcript.queryBytes (t : Transcript P) (ypir : SchemeParams) : List UInt8 :=
  t.query.toSwitchedBytes P.q ypir.queryBits

/-- The steps of a retrieval, those of the server on the bytes of the request and those of the
client on the bytes of the answer. -/
structure Transcript.Runs (t : Transcript P) (kernel : TryMultiplyQuery T K)
    (validateProfileParts : RlweParams → DatabaseShape → SimplePirProfile → Outcome Unit)
    (server : YServer T K) (ypir : SchemeParams) (setup : PublicQuerySetup P ypir.dbRows)
    (gen : ClientRng P R) (o : Overflow) (workers : ℕ → Scheduler (CollapseTerm P))
    (clientSeed : Seed) (targetRow : ℕ) : Prop where
  offline : server.performOfflinePrecomputationSimplepir validateProfileParts P setup.polys =
    .ok t.values
  images : TopKeyImages.build P = .ok t.topKeyImages
  preprocess : buildPackPreprocessedBlocks P t.values.crsBlocks = .ok t.preprocessed
  preprocessWithTop :
    buildPackPreprocessedBlocksWithTop P t.values.crsBlocks t.topKeyImages = .ok t.preprocessed
  generate : generateFreshQuerySimplepir gen o ypir setup targetRow clientSeed =
    .ok (t.query, t.keys, clientSeed)
  serialize : serializePackingKeys P t.keys = .ok t.keyBytes
  parse : parseFreshQuery P ypir.toYpirSchemeParams (t.keyBytes ++ t.queryBytes ypir) =
    .ok (t.packingKeys, t.queryBytes ypir)
  multiply : (do
    let firstDim ← server.deserializeFirstDimQuery ypir P (t.queryBytes ypir)
    .ok (server.tryMultiplyQuery kernel validateProfileParts P (queryWords firstDim))) =
      (.ok (.ok t.intermediate) : Outcome _)
  pack : packIntermediateBlocks workers t.intermediate t.packingKeys t.topKeyImages t.preprocessed =
    .ok t.packed
  answer : server.performFullOnlineComputationSimplepirMeasured kernel validateProfileParts ypir
    workers (t.queryBytes ypir) t.packingKeys t.topKeyImages t.preprocessed = .ok t.response
  publish : recoverPublishedC1 (publishedC1Rows t.preprocessed P.q) P.d (ypir.dbCols / P.d) P.q =
    .ok t.publishedC1
  decode : decodeResponseSimplepirRaw gen o ypir clientSeed t.publishedC1 t.response = .ok t.decoded

/-- The digits of a block. -/
def Transcript.digits (t : Transcript P) (block : ℕ) : List (PolyMatrixNTT P.d P.q) :=
  (t.preprocessed[block]?.map QueryPackPreprocessed.digitsNtt).getD []

/-- The body of a column before it is switched. -/
def Transcript.body (t : Transcript P) (col : ℕ) : ℕ :=
  (t.packed[col / P.d]?.map fun ct => (rawRow ct.c2).getD (col % P.d) 0).getD 0

/-- **The noise of a column.** -/
noncomputable def Transcript.noise (t : Transcript P) (server : YServer T K) (ypir : SchemeParams)
    (gen : ClientRng P R) (clientSeed : Seed) (col : ℕ) : ZMod P.q :=
  ∑ row ∈ Finset.range ypir.dbRows, (dbAt server.db (col * ypir.dbRows + row) : ZMod P.q) *
      gen.rowError clientSeed row +
    ∑ row ∈ Finset.range ypir.dbRows, (dbAt server.db (col * ypir.dbRows + row) : ZMod P.q) *
      ((switched P.q ypir.queryBits (t.query.firstDim.getD row 0) : ZMod P.q) -
        t.query.firstDim.getD row 0) +
    coeff (keyError (fun k => Poly.ring P.q ((gen.kgNoise clientSeed).1 k))
      (fun k => Poly.ring P.q ((gen.khNoise clientSeed).1 k)) (t.digits (col / P.d)))
      ⟨col % P.d, row_mod_lt P col⟩ +
    ((rescale (rescale (t.body col) P.q ypir.qPrime1) ypir.qPrime1 P.q : ZMod P.q) - t.body col)

end Transcripts

/-! ## The steps -/

section Steps

variable {T K R : Type} [ToU64 T] {P : RlweParams} {server : YServer T K} {ypir : SchemeParams}
  {validateProfileParts : RlweParams → DatabaseShape → SimplePirProfile → Outcome Unit}
  {queryPolys : List (List ℕ)}

/-- The blocks that the offline phase returns: the mask rows of the columns. -/
structure AreMasks (server : YServer T K) (P : RlweParams) (queryPolys : List (List ℕ))
    (dbCols : ℕ) (blocks : List CrsBlock) : Prop where
  length : blocks.length = dbCols / P.d
  square : ∀ block ∈ blocks, block.Square P
  cast : ∀ col < dbCols, ∀ block, blocks[col / P.d]? = some block → ∀ j,
    (block.masks P ⟨col % P.d, row_mod_lt P col⟩ j : ZMod P.q) =
      coeff (columnProduct server P queryPolys col) j

/-- **The offline phase** returns the mask rows. -/
theorem Deployed.offline_ok (h : Deployed validateProfileParts server P ypir queryPolys) :
    ∃ values, server.performOfflinePrecomputationSimplepir validateProfileParts P queryPolys =
        .ok values ∧ AreMasks server P queryPolys ypir.dbCols values.crsBlocks := by
  have hcols : server.params.dbCols % P.d = 0 := by
    rw [h.shape]
    exact h.fits.dbCols_mod
  have hshape : server.params.dbCols = ypir.dbCols := by rw [h.shape]; rfl
  obtain ⟨columns, hcolumns, hall, hoffline⟩ := h.admitted.performOffline_ok hcols h.masks
  refine ⟨_, hoffline, ?_, fun block hblock => ?_, fun col hcol block hblock j => ?_⟩
  · rw [List.length_map, List.length_range, hshape]
  · obtain ⟨i, hi, rfl⟩ := List.mem_map.mp hblock
    have hi := List.mem_range.mp hi
    have hroom : i * P.d + P.d ≤ columns.length := by
      have hmul := Nat.mul_le_mul_right P.d (Nat.succ_le_of_lt hi)
      rw [Nat.succ_mul, Nat.div_mul_cancel (Nat.dvd_of_mod_eq_zero hcols)] at hmul
      rwa [hall.length]
    have hlen : ((columns.drop (i * P.d)).take P.d).length = P.d := by
      rw [List.length_take, List.length_drop]
      omega
    have hmem : ∀ row ∈ (columns.drop (i * P.d)).take P.d, row ∈ columns := fun row hrow =>
      List.mem_of_mem_drop (List.mem_of_mem_take hrow)
    refine ⟨hlen, fun row hrow => hall.column_length row (hmem row hrow), fun k j => ?_⟩
    have hk : (k : ℕ) < ((columns.drop (i * P.d)).take P.d).length := by rw [hlen]; exact k.2
    have hrow := hmem _ (List.getElem_mem hk)
    have hj : (j : ℕ) < ((columns.drop (i * P.d)).take P.d)[(k : ℕ)].length := by
      rw [hall.column_length _ hrow]
      exact j.2
    rw [CrsBlock.masks, List.getD_eq_getElem _ _ hk, vecGet, List.getD_eq_getElem _ _ hj]
    exact hall.lt _ hrow _ (List.getElem_mem hj)
  · obtain ⟨block', mask, hblock', hrow, -, hword⟩ :=
      exists_maskRow h.admitted hcolumns hcols (hshape ▸ hcol)
    obtain rfl := Option.some.inj (hblock'.symm.trans hblock)
    rw [CrsBlock.masks, List.getD_eq_getElem?_getD, hrow]
    exact (hword j).2

/-- **The query of a seed**: packing keys for the secret and selection bodies under it. -/
theorem generateFreshQuery_ok (gen : ClientRng P R) (o : Overflow)
    (setup : PublicQuerySetup P ypir.dbRows) (hfits : ypir.Fits P) {targetRow : ℕ}
    (htarget : targetRow < ypir.dbRows) (seed : Seed) :
    ∃ query keys, generateFreshQuerySimplepir gen o ypir setup targetRow seed =
        .ok (⟨query⟩, keys, seed) ∧
      keys.IsFor (secretRing P (gen.secret seed)) (fun k => Poly.ring P.q ((gen.kgNoise seed).1 k))
        (fun k => Poly.ring P.q ((gen.khNoise seed).1 k)) ∧
      Selects P setup.polys (gen.secret seed) targetRow (gen.rowError seed) ypir.dbRows ypir.dbRows
        query := by
  have hselect : Selectable P setup.polys (gen.secret seed) targetRow ypir.dbRows :=
    ⟨hfits.dbRows_mod, setup.length_polys, setup.length_poly, gen.length_secret seed, htarget⟩
  have hq : P.q ≤ 2 ^ 63 := hfits.q_lt.le.trans (Nat.pow_le_pow_right two_pos (by decide))
  have herrors : ∀ row < ypir.dbRows, gen.rowError seed row < P.q := fun row _ =>
    gen.rowError_lt seed row
  obtain ⟨query, hquery, hselects⟩ := exists_encryptedSelectionQuery hselect o hq herrors
  obtain ⟨secretNtt, hsecret, hring⟩ := secretToNtt_ok gen seed
  have hword (noise : (ℕ → Poly P.d) × R) (hlt : ∀ k i, noise.1 k i < P.q) :
      ∀ k i, noise.1 k i < 2 ^ 64 := fun k i => P.spiral.lt_word_of_le (hlt k i).le
  have hkeys := generateFull_isFor hfits.gadget_lt secretNtt
    (hword (gen.kgNoise seed) (gen.noise_lt _)) (hword (gen.khNoise seed) (gen.noise_lt _))
  rw [hring] at hkeys
  refine ⟨query, _, ?_, hkeys, hselects⟩
  rw [generateFreshQuerySimplepir, if_neg (not_not.mpr htarget)]
  show (secretToNtt P (gen.secret seed) >>= _) = _
  rw [hsecret, ok_bind]
  show (encryptedSelectionQuery P o setup.polys (gen.secret seed) targetRow ypir.dbRows
    (gen.rowError seed) >>= _) = _
  rw [hquery, ok_bind]
  rfl

/-- **The server multiplies the query that it lifts.** -/
theorem Deployed.multiply_ok (h : Deployed validateProfileParts server P ypir queryPolys)
    {kernel : TryMultiplyQuery T K} (hkernel : kernel.Exact) (hrows : 0 < ypir.dbRows)
    {query : List ℕ} (hlen : query.length = ypir.dbRows) (hlt : ∀ x ∈ query, x < P.q) :
    server.deserializeFirstDimQuery ypir P
        (IPIRSimpleQuery.toSwitchedBytes ⟨query⟩ P.q ypir.queryBits) =
      .ok (query.map (switched P.q ypir.queryBits)) ∧
    server.tryMultiplyQuery kernel validateProfileParts P
        (queryWords (query.map (switched P.q ypir.queryBits))) =
      .ok (product P.q server.db ypir.dbRows ypir.dbCols
        (queryWords (query.map (switched P.q ypir.queryBits)))) := by
  have hshape : server.params.dbRows = ypir.dbRows ∧ server.params.dbCols = ypir.dbCols := by
    rw [h.shape]
    exact ⟨rfl, rfl⟩
  have hq : P.q < 2 ^ 64 := h.fits.q_lt.trans (Nat.pow_lt_pow_right one_lt_two (by decide))
  have hres : ∀ x ∈ (IPIRSimpleQuery.mk query).firstDim, x < P.q := hlt
  have hread := fromSwitchedBytes_written hq h.fits.queryBits_pos h.fits.queryBits_le hres
  dsimp only at hread
  rw [hlen] at hread
  constructor
  · rw [YServer.deserializeFirstDimQuery, dbRowsPadded_eq, hshape.1, hread, ok_bind]
    dsimp only
    rw [if_neg (not_not.mpr (by rw [List.length_map, hlen]))]
  · rw [← hshape.1, ← hshape.2]
    refine tryMultiplyQuery_exact hkernel h.admitted h.loaded (hshape.1 ▸ hrows) ?_
    rw [queryWords, List.length_map, List.length_map, hlen, hshape.1]

theorem switched_lt {q bits : ℕ} (hq : q < 2 ^ 64) (hpos : 1 ≤ bits) {query : List ℕ}
    (hlt : ∀ x ∈ query, x < q) (row : ℕ) : (query.map (switched q bits)).getD row 0 < 2 ^ 64 := by
  rcases lt_or_ge row query.length with hrow | hrow
  · rw [List.getD_eq_getElem _ _ (by rwa [List.length_map]), List.getElem_map]
    exact (queryCoeffUp_queryCoeffDown hq hpos (hlt _ (List.getElem_mem hrow))).1.trans hq
  · rw [List.getD_eq_default _ _ (by rwa [List.length_map])]
    exact Nat.two_pow_pos 64

/-- **The product of a column**: the scaled entry and the errors of the query, less the product of
the mask row with the secret, and what the query lost on its way. -/
theorem Deployed.cast_product (h : Deployed validateProfileParts server P ypir queryPolys)
    {secret : List ℕ} {targetRow : ℕ} {errors : ℕ → ℕ}
    (hselect : Selectable P queryPolys secret targetRow ypir.dbRows) {query : List ℕ}
    (hquery : Selects P queryPolys secret targetRow errors ypir.dbRows ypir.dbRows query)
    (hlt : ∀ x ∈ query, x < P.q) {col : ℕ} (hcol : col < ypir.dbCols) :
    ((product P.q server.db ypir.dbRows ypir.dbCols
        (queryWords (query.map (switched P.q ypir.queryBits)))).getD col 0 : ZMod P.q) =
      (P.delta : ZMod P.q) * dbAt server.db (col * ypir.dbRows + targetRow) +
        ∑ row ∈ Finset.range ypir.dbRows,
          (dbAt server.db (col * ypir.dbRows + row) : ZMod P.q) * errors row -
        ∑ j : Fin P.d, coeff (columnProduct server P queryPolys col) j *
          coeff (secretRing P secret) j +
        ∑ row ∈ Finset.range ypir.dbRows, (dbAt server.db (col * ypir.dbRows + row) : ZMod P.q) *
          ((switched P.q ypir.queryBits (query.getD row 0) : ZMod P.q) - query.getD row 0) := by
  have hrows : server.params.dbRows = ypir.dbRows := by rw [h.shape]; rfl
  have hq : P.q < 2 ^ 64 := h.fits.q_lt.trans (Nat.pow_lt_pow_right one_lt_two (by decide))
  have hsent : ∀ row, query.getD row 0 < 2 ^ 64 := by
    intro row
    rcases lt_or_ge row query.length with hrow | hrow
    · rw [List.getD_eq_getElem _ _ hrow]
      exact (hlt _ (List.getElem_mem hrow)).trans hq
    · rw [List.getD_eq_default _ _ hrow]
      exact Nat.two_pow_pos 64
  rw [← hrows] at hselect hquery
  have hbody := cast_columnSum hselect hquery col
  rw [hrows, cast_columnSum_words server.db ypir.dbRows col hsent] at hbody
  rw [← hbody, product, List.getD_eq_getElem _ _ (by rwa [List.length_map, List.length_range]),
    List.getElem_map, List.getElem_range, ZMod.natCast_mod,
    cast_columnSum_words _ _ _ (switched_lt hq h.fits.queryBits_pos hlt), ← Finset.sum_add_distrib]
  refine Finset.sum_congr rfl fun row hrow => ?_
  have hlen : row < query.length := by
    rw [hquery.length, hrows]
    exact Finset.mem_range.mp hrow
  rw [List.getD_eq_getElem _ _ (by rwa [List.length_map]), List.getElem_map,
    List.getD_eq_getElem _ _ hlen]
  ring

/-- A product that is packed, in the slot of its column. -/
theorem coeff_packedPhase (masks : Fin P.d → Poly P.d) (b : Fin P.d → ℕ)
    (s : NegRing P.d (ZMod P.q)) (k : Fin P.d) :
    coeff (packedPhase masks b s) k = b k + ∑ i, (masks k i : ZMod P.q) * coeff s i := by
  rw [packedPhase, coeff_ofCoeffs]

/-- The products that belong to a block. -/
theorem vecGet_block (intermediate : List ℕ) (P : RlweParams) (col : ℕ) :
    vecGet ((intermediate.drop (col / P.d * P.d)).take P.d)
      (⟨col % P.d, row_mod_lt P col⟩ : Fin P.d) = intermediate.getD col 0 := by
  rw [vecGet, List.getD_eq_getElem?_getD, List.getElem?_take_of_lt (row_mod_lt P col),
    List.getElem?_drop, Nat.div_add_mod', ← List.getD_eq_getElem?_getD]

/-- **The phase of a column** is the product plus the inner product of its mask, and the errors of
the keys. -/
theorem AreMasks.coeff_phase {dbCols : ℕ} {blocks : List CrsBlock}
    (h : AreMasks server P queryPolys dbCols blocks) {s : NegRing P.d (ZMod P.q)}
    {eg eh : Fin P.gadget.ell → NegRing P.d (ZMod P.q)} {intermediate : List ℕ} {col : ℕ}
    (hcol : col < dbCols) {block : CrsBlock} (hblock : blocks[col / P.d]? = some block)
    {pre : QueryPackPreprocessed P} {ct : RlweCiphertext P}
    (hpack : IsPackOf s eg eh (block.masks P) pre
      ((intermediate.drop (col / P.d * P.d)).take P.d) ct) :
    coeff (P.spiral.ring ct.c1 * s + P.spiral.ring ct.c2) ⟨col % P.d, row_mod_lt P col⟩ =
      intermediate.getD col 0 +
        ∑ j : Fin P.d, coeff (columnProduct server P queryPolys col) j * coeff s j +
        coeff (keyError eg eh pre.digitsNtt) ⟨col % P.d, row_mod_lt P col⟩ := by
  have hmask : ∑ i, (block.masks P ⟨col % P.d, row_mod_lt P col⟩ i : ZMod P.q) * coeff s i =
      ∑ j, coeff (columnProduct server P queryPolys col) j * coeff s j :=
    Finset.sum_congr rfl fun j _ => by rw [h.cast col hcol block hblock j]
  rw [hpack.phase, coeff_add, coeff_packedPhase, vecGet_block, hmask]

/-- The moduli of a response. -/
theorem SchemeParams.Fits.switchable (h : ypir.Fits P) : Switchable P.q ∧ Switchable ypir.qPrime1 :=
  ⟨⟨(by decide : 2 ≤ 3).trans P.three_le_q,
    h.q_lt.trans (Nat.pow_lt_pow_right one_lt_two (by decide))⟩, h.response_pos, h.response_lt⟩

/-- The phase that a client rounds in the slot of a column. -/
noncomputable def recoveredPhase (s : NegRing P.d (ZMod P.q)) (qPrime1 : ℕ)
    (pre : QueryPackPreprocessed P) (ct : RlweCiphertext P) (k : Fin P.d) : ZMod P.q :=
  coeff (P.spiral.ring pre.collapseAFinalNtt * s) k +
    rescale (rescale (vecGet (rawRow ct.c2) k) P.q qPrime1) qPrime1 P.q

theorem getD_rescaleRow {row : List ℕ} {i : ℕ} (hi : i < row.length) (qIn qOut : ℕ) :
    (rescaleRow row qIn qOut).getD i 0 = rescale (row.getD i 0) qIn qOut := by
  rw [List.getD_eq_getElem _ _ (by rwa [length_rescaleRow]), List.getD_eq_getElem _ _ hi]
  exact List.getElem_map _

/-- The bytes of one body. -/
def bodyBytes (qPrime1 : ℕ) (ct : RlweCiphertext P) : List UInt8 :=
  u64sToContiguousBytes (rescaleRow (rawRow ct.c2) P.q qPrime1) (modulusBits qPrime1)

theorem length_bodyBytes (qPrime1 : ℕ) (ct : RlweCiphertext P) :
    (bodyBytes qPrime1 ct).length = responseBodyLen P.d qPrime1 := by
  rw [bodyBytes, length_u64sToContiguousBytes, length_rescaleRow, length_rawRow]
  rfl

theorem serializeRlweResponseBodies_eq (cts : List (RlweCiphertext P)) (qPrime1 : ℕ) :
    serializeRlweResponseBodies cts qPrime1 = (cts.map (bodyBytes qPrime1)).flatten :=
  List.flatMap_def ..

/-- An answer is cut into its bodies. -/
theorem chunks_response {qPrime1 : ℕ} (hq₁ : Switchable qPrime1) (cts : List (RlweCiphertext P)) :
    chunks (responseBodyLen P.d qPrime1) (serializeRlweResponseBodies cts qPrime1) =
      cts.map (bodyBytes qPrime1) := by
  rw [serializeRlweResponseBodies_eq]
  refine chunks_flatten (responseBodyLen_pos P hq₁) fun body hbody => ?_
  obtain ⟨ct, -, rfl⟩ := List.mem_map.mp hbody
  exact length_bodyBytes qPrime1 ct

theorem length_response (cts : List (RlweCiphertext P)) (qPrime1 : ℕ) :
    (serializeRlweResponseBodies cts qPrime1).length =
      cts.length * responseBodyLen P.d qPrime1 := by
  rw [serializeRlweResponseBodies, List.length_flatMap]
  show (cts.map fun ct => (bodyBytes qPrime1 ct).length).sum = _
  rw [List.map_congr_left fun ct _ => length_bodyBytes qPrime1 ct, List.map_const',
    List.sum_replicate, smul_eq_mul]

/-- **One block of an answer is decoded** to its rounded phase. -/
theorem decodeBlock_ok (gen : ClientRng P R) (o : Overflow) (hfits : ypir.Fits P) (seed : Seed)
    {secretNtt : Ntt P.d P.q} (hring : P.spiral.ring secretNtt = secretRing P (gen.secret seed))
    (pre : QueryPackPreprocessed P) (ct : RlweCiphertext P) :
    ∃ phase : Poly P.d, (do
        let row1 ← fromBits (recoverResponseBody (bodyBytes ypir.qPrime1 ct) P.d ypir.qPrime1 P.q)
        decodeRows o (rawRow pre.collapseAFinalNtt) row1 secretNtt) =
        .ok (List.ofFn fun i => (phase i + P.delta / 2) / P.delta % P.p) ∧
      ∀ k, phase k < P.q ∧ (phase k : ZMod P.q) =
        recoveredPhase (secretRing P (gen.secret seed)) ypir.qPrime1 pre ct k := by
  obtain ⟨hq, hq₁⟩ := hfits.switchable
  have hlt : ∀ x ∈ rescaleRow (rescaleRow (rawRow ct.c2) P.q ypir.qPrime1) ypir.qPrime1 P.q,
      x < P.q := by
    intro x hx
    obtain ⟨y, hy, rfl⟩ := List.mem_map.mp hx
    obtain ⟨v, hv, rfl⟩ := List.mem_map.mp hy
    exact rescale_lt hq₁.lt hq.pos (rescale_lt hq.lt hq₁.pos (rawRow_lt _ v hv))
  obtain ⟨phase, hdecode, hphase⟩ := decodeRows_ok o hfits.q_lt pre.collapseAFinalNtt secretNtt
    (by rw [length_rescaleRow, length_rescaleRow, length_rawRow]) hlt
  refine ⟨phase, ?_, fun k => ⟨(hphase k).1, ?_⟩⟩
  · rw [bodyBytes, recoverResponseBody_written hq hq₁]
    exact hdecode
  · have hk : (k : ℕ) < (rawRow ct.c2).length := by
      rw [length_rawRow]
      exact k.2
    have hword : vecGet (rescaleRow (rescaleRow (rawRow ct.c2) P.q ypir.qPrime1) ypir.qPrime1 P.q)
        k = rescale (rescale (vecGet (rawRow ct.c2) k) P.q ypir.qPrime1) ypir.qPrime1 P.q := by
      rw [vecGet, getD_rescaleRow (by rwa [length_rescaleRow]), getD_rescaleRow hk]
      rfl
    rw [(hphase k).2, hring, hword]
    rfl

/-- **All blocks of an answer are decoded**, each with the first row that was published for it. -/
theorem decodeBlocks_ok (gen : ClientRng P R) (o : Overflow) (hfits : ypir.Fits P) (seed : Seed)
    {secretNtt : Ntt P.d P.q} (hring : P.spiral.ring secretNtt = secretRing P (gen.secret seed))
    {preprocessed : List (QueryPackPreprocessed P)} {cts : List (RlweCiphertext P)}
    (hlen : cts.length = preprocessed.length) :
    ∃ rows : List (List ℕ), ((cts.map (bodyBytes ypir.qPrime1)).zip
        (preprocessed.map fun pre => rawRow pre.collapseAFinalNtt)).mapM (fun (chunk, row0) => do
          let row1 ← fromBits (recoverResponseBody chunk P.d ypir.qPrime1 P.q)
          decodeRows o row0 row1 secretNtt) = .ok rows ∧
      rows.length = preprocessed.length ∧ (∀ row ∈ rows, row.length = P.d) ∧
      ∀ (i : ℕ) pre ct row, preprocessed[i]? = some pre → cts[i]? = some ct →
        rows[i]? = some row → ∀ k : Fin P.d, ∃ phase < P.q, (phase : ZMod P.q) =
            recoveredPhase (secretRing P (gen.secret seed)) ypir.qPrime1 pre ct k ∧
          vecGet row k = (phase + P.delta / 2) / P.delta % P.p := by
  choose phase hdecode hphase using fun (pre : QueryPackPreprocessed P) (ct : RlweCiphertext P) =>
    decodeBlock_ok gen o hfits seed hring pre ct
  refine ⟨List.zipWith (fun ct pre => List.ofFn fun i =>
    (phase pre ct i + P.delta / 2) / P.delta % P.p) cts preprocessed, ?_, ?_, fun row hrow => ?_,
    fun i pre ct row hpre hct hrow k =>
      ⟨phase pre ct k, (hphase pre ct k).1, (hphase pre ct k).2, ?_⟩⟩
  · refine mapM_getElem_eq_ok ?_ fun i hi hi' => ?_
    · rw [List.length_zipWith, List.length_zip, List.length_map, List.length_map]
    · rw [List.getElem_zip, List.getElem_map, List.getElem_map, List.getElem_zipWith]
      exact hdecode _ _
  · rw [List.length_zipWith, hlen, min_self]
  · rw [← List.map_uncurry_zip_eq_zipWith] at hrow
    obtain ⟨pair, -, rfl⟩ := List.mem_map.mp hrow
    exact List.length_ofFn
  · have hget : row = List.ofFn fun i => (phase pre ct i + P.delta / 2) / P.delta % P.p := by
      rw [List.getElem?_zipWith, hct, hpre] at hrow
      exact (Option.some.inj hrow).symm
    have hk : (k : ℕ) < row.length := by
      rw [hget, List.length_ofFn]
      exact k.2
    rw [vecGet, List.getD_eq_getElem _ _ hk]
    subst hget
    exact List.getElem_ofFn hk

/-- **An answer is decoded** column by column. -/
theorem decodeResponse_ok (gen : ClientRng P R) (o : Overflow) (hfits : ypir.Fits P) (seed : Seed)
    {preprocessed : List (QueryPackPreprocessed P)} {cts : List (RlweCiphertext P)}
    (hblocks : preprocessed.length = ypir.dbCols / P.d) (hlen : cts.length = preprocessed.length) :
    ∃ decoded, decodeResponseSimplepirRaw gen o ypir seed
        (preprocessed.map fun pre => rawRow pre.collapseAFinalNtt)
        (serializeRlweResponseBodies cts ypir.qPrime1) = .ok decoded ∧
      decoded.length = ypir.dbCols ∧
      ∀ col < ypir.dbCols, ∀ pre ct, preprocessed[col / P.d]? = some pre →
        cts[col / P.d]? = some ct → ∃ phase < P.q, (phase : ZMod P.q) =
            recoveredPhase (secretRing P (gen.secret seed)) ypir.qPrime1 pre ct
              ⟨col % P.d, row_mod_lt P col⟩ ∧
          decoded.getD col 0 = (phase + P.delta / 2) / P.delta % P.p := by
  obtain ⟨-, hq₁⟩ := hfits.switchable
  obtain ⟨secretNtt, hsecret, hring⟩ := secretToNtt_ok gen seed
  obtain ⟨rows, hrun, hcount, hwidth, hvalue⟩ := decodeBlocks_ok gen o hfits seed hring hlen
  refine ⟨rows.flatten, ?_, ?_, fun col hcol pre ct hpre hct => ?_⟩
  · rw [decodeResponseSimplepirRaw]
    dsimp only
    rw [length_response, hlen, hblocks, if_neg (not_not.mpr rfl), List.length_map, hblocks,
      if_neg (not_not.mpr rfl)]
    show (secretToNtt P (gen.secret seed) >>= _) = _
    rw [hsecret, ok_bind, chunks_response hq₁, hrun, ok_bind]
  · rw [List.length_flatten, List.map_congr_left hwidth, List.map_const', List.sum_replicate,
      smul_eq_mul, hcount, hblocks, Nat.div_mul_cancel (Nat.dvd_of_mod_eq_zero hfits.dbCols_mod)]
  · have hi : col / P.d < rows.length := by
      rw [hcount]
      exact (List.getElem?_eq_some_iff.mp hpre).1
    obtain ⟨phase, hlt, hphase, hdecoded⟩ := hvalue (col / P.d) pre ct _ hpre hct
      (List.getElem?_eq_getElem hi) ⟨col % P.d, row_mod_lt P col⟩
    refine ⟨phase, hlt, hphase, ?_⟩
    rw [← hdecoded, ← take_drop_flatten hwidth hi, vecGet_block]

/-- A phase that is close to a scaled entry is rounded to the entry. -/
theorem SchemeParams.Fits.round_phase (h : ypir.Fits P) {phase m : ℕ} (hphase : phase < P.q)
    (hm : m < P.p) {noise : ZMod P.q} (hcast : (phase : ZMod P.q) = P.delta * m + noise)
    (hnoise : 2 * |noise.valMinAbs| < P.delta) : (phase + P.delta / 2) / P.delta % P.p = m := by
  have hq : P.q = P.p * P.delta + P.q % P.p := by
    rw [P.delta_eq, Nat.div_add_mod]
  refine Rounding.roundDiv_phase hq hm h.gap_le hphase ?_ hnoise
  rw [← ZMod.intCast_eq_intCast_iff]
  push_cast
  exact hcast

theorem Deployed.dbAt_lt (h : Deployed validateProfileParts server P ypir queryPolys) (index : ℕ) :
    dbAt server.db index < P.p := by
  unfold dbAt
  rcases hget : server.db[index]? with _ | value
  · exact (Nat.zero_lt_two).trans_le P.two_le_p
  · exact h.entries value (List.mem_of_getElem? hget)

/-- **What is rounded for a column** is the sum of the scaled entry and the noise. -/
theorem Deployed.cast_recovered {setup : PublicQuerySetup P ypir.dbRows}
    (h : Deployed validateProfileParts server P ypir setup.polys) {gen : ClientRng P R}
    {clientSeed : Seed} {targetRow : ℕ} (htarget : targetRow < ypir.dbRows) {t : Transcript P}
    (hmasks : AreMasks server P setup.polys ypir.dbCols t.values.crsBlocks)
    (hselects : Selects P setup.polys (gen.secret clientSeed) targetRow (gen.rowError clientSeed)
      ypir.dbRows ypir.dbRows t.query.firstDim)
    (hlt : ∀ x ∈ t.query.firstDim, x < P.q)
    (hproducts : t.intermediate = product P.q server.db ypir.dbRows ypir.dbCols
      (queryWords (t.query.firstDim.map (switched P.q ypir.queryBits))))
    {col : ℕ} (hcol : col < ypir.dbCols) {block : CrsBlock}
    (hmask : t.values.crsBlocks[col / P.d]? = some block) {pre : QueryPackPreprocessed P}
    (hpre : t.preprocessed[col / P.d]? = some pre) {ct : RlweCiphertext P}
    (hct : t.packed[col / P.d]? = some ct)
    (hpacked : IsPackOf (secretRing P (gen.secret clientSeed))
      (fun k => Poly.ring P.q ((gen.kgNoise clientSeed).1 k))
      (fun k => Poly.ring P.q ((gen.khNoise clientSeed).1 k)) (block.masks P) pre
      ((t.intermediate.drop (col / P.d * P.d)).take P.d) ct) :
    recoveredPhase (secretRing P (gen.secret clientSeed)) ypir.qPrime1 pre ct
        ⟨col % P.d, row_mod_lt P col⟩ =
      P.delta * dbAt server.db (col * ypir.dbRows + targetRow) +
        t.noise server ypir gen clientSeed col := by
  have hselect : Selectable P setup.polys (gen.secret clientSeed) targetRow ypir.dbRows :=
    ⟨h.fits.dbRows_mod, setup.length_polys, setup.length_poly, gen.length_secret clientSeed,
      htarget⟩
  have hproduct := h.cast_product hselect hselects hlt hcol
  have hcoeff := hmasks.coeff_phase hcol hmask hpacked
  rw [hpacked.c1, coeff_add, hproducts, hproduct] at hcoeff
  have hbody : ((rawRow ct.c2).getD (col % P.d) 0 : ZMod P.q) =
      coeff (P.spiral.ring ct.c2) ⟨col % P.d, row_mod_lt P col⟩ := by
    rw [← cast_fromNttAlloc, ← vecGet_rawRow]
    rfl
  rw [recoveredPhase, vecGet, Transcript.noise, Transcript.body, Transcript.digits, hpre, hct]
  simp only [Option.map_some, Option.getD_some]
  rw [hbody]
  linear_combination hcoeff

/-- **A retrieval runs**, and what it decodes for a column is the rounded sum of the scaled entry
and the noise. -/
theorem Deployed.exists_transcript {setup : PublicQuerySetup P ypir.dbRows}
    (h : Deployed validateProfileParts server P ypir setup.polys) {kernel : TryMultiplyQuery T K}
    (hkernel : kernel.Exact) (gen : ClientRng P R) (o : Overflow)
    (workers : ℕ → Scheduler (CollapseTerm P)) (clientSeed : Seed) {targetRow : ℕ}
    (htarget : targetRow < ypir.dbRows) :
    ∃ t : Transcript P, t.Runs kernel validateProfileParts server ypir setup gen o
      workers clientSeed
        targetRow ∧ t.decoded.length = ypir.dbCols ∧
      ∀ col < ypir.dbCols, ∃ phase < P.q,
        (phase : ZMod P.q) = P.delta * dbAt server.db (col * ypir.dbRows + targetRow) +
            t.noise server ypir gen clientSeed col ∧
          t.decoded.getD col 0 = (phase + P.delta / 2) / P.delta % P.p := by
  -- the offline phase and its preprocessing
  obtain ⟨values, hoffline, hmasks⟩ := h.offline_ok
  obtain ⟨top, htop, -⟩ := topImages_build h.separate
  obtain ⟨preprocessed, hbuild, hwithTop, htraces⟩ :=
    buildBlocks_ok h.separate h.fits.digitsFit hmasks.square htop
  -- the request
  obtain ⟨query, keys, hgenerate, hkeys, hselects⟩ :=
    generateFreshQuery_ok gen o setup h.fits htarget clientSeed
  have hlt : ∀ x ∈ query, x < P.q := by
    intro x hx
    obtain ⟨row, hrow, rfl⟩ := List.getElem_of_mem hx
    rw [← List.getD_eq_getElem _ 0 hrow]
    exact hselects.lt row (hselects.length ▸ hrow)
  obtain ⟨keyBytes, hserialize⟩ : ∃ bytes, serializePackingKeys P keys = .ok bytes :=
    ⟨_, serializePackingKeys_ok_iff.mpr ⟨hkeys.kg_shape, hkeys.kh_shape, rfl⟩⟩
  obtain ⟨packingKeys, hparse, hsame⟩ := parseFreshQuery_append ypir.toYpirSchemeParams hserialize
    (show (IPIRSimpleQuery.mk query).firstDim.length = ypir.dbRows from hselects.length)
  -- the product and its packing
  obtain ⟨hread, hmultiply⟩ :=
    h.multiply_ok hkernel (Nat.zero_lt_of_lt htarget) hselects.length hlt
  have hblocks : preprocessed.length = ypir.dbCols / P.d :=
    htraces.length_eq.symm.trans hmasks.length
  set intermediate := product P.q server.db ypir.dbRows ypir.dbCols
    (queryWords (query.map (switched P.q ypir.queryBits))) with hintermediate
  have hproducts : intermediate.length = preprocessed.length * P.d := by
    rw [hintermediate, product, List.length_map, List.length_range, hblocks,
      Nat.div_mul_cancel (Nat.dvd_of_mod_eq_zero h.fits.dbCols_mod)]
  obtain ⟨cts, hpack, hcount, hphase⟩ :=
    packBlocks_ok h.fits.q_lt h.fits.digitsFit (hsame.isFor hkeys) htop htraces workers hproducts
  obtain ⟨decoded, hdecode, hlen, hvalue⟩ :=
    decodeResponse_ok gen o h.fits clientSeed hblocks hcount
  let t : Transcript P := ⟨values, preprocessed, top, ⟨query⟩, keys, keyBytes, packingKeys,
    intermediate, cts, serializeRlweResponseBodies cts ypir.qPrime1,
    preprocessed.map fun pre => rawRow pre.collapseAFinalNtt, decoded⟩
  have hmultiplied : (do
      let firstDim ← server.deserializeFirstDimQuery ypir P (t.queryBytes ypir)
      .ok (server.tryMultiplyQuery kernel validateProfileParts P (queryWords firstDim))) =
        (.ok (.ok intermediate) : Outcome _) := by
    dsimp only [t, Transcript.queryBytes]
    rw [hread, ok_bind, hmultiply]
  have hanswer : server.performFullOnlineComputationSimplepirMeasured kernel validateProfileParts
      ypir workers (t.queryBytes ypir) packingKeys top preprocessed = .ok t.response := by
    dsimp only [t, Transcript.queryBytes]
    rw [YServer.performFullOnlineComputationSimplepirMeasured, h.admitted.bound, hread]
    simp only [online, ok_bind, hmultiply, hpack]
  have hpublish : recoverPublishedC1 (publishedC1Rows preprocessed P.q) P.d (ypir.dbCols / P.d)
      P.q = .ok t.publishedC1 := by
    rw [← hblocks]
    exact recoverPublishedC1_ok preprocessed
  refine ⟨t, ⟨hoffline, htop, hbuild, hwithTop, hgenerate, hserialize, hparse, hmultiplied, hpack,
    hanswer, hpublish, hdecode⟩, hlen, fun col hcol => ?_⟩
  have hblock : col / P.d < ypir.dbCols / P.d :=
    Nat.div_lt_div_of_lt_of_dvd (Nat.dvd_of_mod_eq_zero h.fits.dbCols_mod) hcol
  have hmask := List.getElem?_eq_getElem (hmasks.length.symm ▸ hblock)
  have hpre := List.getElem?_eq_getElem (hblocks.symm ▸ hblock)
  have hct := List.getElem?_eq_getElem ((hcount.trans hblocks).symm ▸ hblock)
  obtain ⟨phase, hphaseLt, hcast, hdecoded⟩ := hvalue col hcol _ _ hpre hct
  refine ⟨phase, hphaseLt, hcast.trans ?_, hdecoded⟩
  exact h.cast_recovered htarget (t := t) hmasks hselects hlt hintermediate hcol hmask hpre hct
    (hphase _ _ _ _ hmask hpre hct)

end Steps

/-- **A retrieval returns the target row.**  On every deployment and for every kernel that returns
the product, every seed and every target row, all steps of both sides return, also when the blocks
are preprocessed with the shared images; what the client decodes has one entry a column, and the
entry is the one of the target row wherever the noise of the column is below half a step of the
plaintext. -/
theorem retrieval {T K R : Type} [ToU64 T] (kernel : TryMultiplyQuery T K) (hkernel : kernel.Exact)
    (validateProfileParts : RlweParams → DatabaseShape → SimplePirProfile → Outcome Unit)
    (server : YServer T K) (P : RlweParams) (ypir : SchemeParams)
    (setup : PublicQuerySetup P ypir.dbRows)
    (h : Deployed validateProfileParts server P ypir setup.polys) (gen : ClientRng P R)
    (o : Overflow) (workers : ℕ → Scheduler (CollapseTerm P)) (clientSeed : Seed) (targetRow : ℕ)
    (htarget : targetRow < ypir.dbRows) :
    ∃ t : Transcript P, t.Runs kernel validateProfileParts server ypir setup gen o
      workers clientSeed
        targetRow ∧ t.decoded.length = ypir.dbCols ∧
      ∀ col < ypir.dbCols, 2 * |(t.noise server ypir gen clientSeed col).valMinAbs| < P.delta →
        t.decoded.getD col 0 = dbAt server.db (col * ypir.dbRows + targetRow) := by
  obtain ⟨t, hruns, hlen, hvalue⟩ :=
    h.exists_transcript hkernel gen o workers clientSeed htarget
  refine ⟨t, hruns, hlen, fun col hcol hnoise => ?_⟩
  obtain ⟨phase, hphase, hcast, hdecoded⟩ := hvalue col hcol
  rw [hdecoded]
  exact h.fits.round_phase hphase (h.dbAt_lt _) hcast hnoise

/-! ## A small retrieval -/

/-- Four rows and two blocks of columns, with a query and an answer at the width of the modulus. -/
def smallScheme : SchemeParams where
  dbRows := 4
  queryBits := 5
  numItems := 4
  itemSizeBits := 8
  polyLen := 4
  dbDim1 := 0
  dbDim2 := 1
  instances := 2
  dbCols := 8
  p := 2
  qPrime1 := 17
  qPrime2 := 17
  q2Bits := 5
  tExpLeft := 2
  tExpRight := 2

theorem smallScheme_fits : smallScheme.Fits maskParams where
  dbRows_mod := rfl
  dbCols_mod := rfl
  numItems_le := le_rfl
  itemSizeBits_le := by decide
  q_lt := by decide
  gap_le := by decide
  digitsFit := by decide
  gadget_lt := by decide
  response_pos := by decide
  response_lt := by decide
  queryBits_pos := by decide
  queryBits_le := by decide

/-- The public query of the small parameters. -/
def smallSetup : PublicQuerySetup maskParams 4 where
  polys := [[5, 0, 0, 3]]
  length_polys := rfl
  length_poly := List.forall_mem_singleton.mpr rfl
  poly_lt := List.forall_mem_singleton.mpr (by decide)

theorem secretWord_lt (n : ℕ) : (if n < 4 then n else 0) < 17 := by
  split <;> omega

/-- A generator that counts its samples: the secret `0, 1, 2, 3`, and no error after it. -/
def countingRng : ClientRng maskParams ℕ where
  fromSeed _ := 0
  sample n := (if n < 4 then n else 0, n + 1)
  noise n := (fun _ _ => 0, n)
  sample_lt := secretWord_lt
  noise_lt _ _ _ := maskParams.q_pos

theorem smallChunkedServer_deployed : Deployed (fun _ _ _ => .ok ()) smallChunkedServer maskParams
    smallScheme smallSetup.polys where
  admitted := ⟨rfl, by decide, rfl, rfl, rfl, smallSetup.length_poly⟩
  loaded := smallChunkedServer_loaded
  shape := rfl
  fits := smallScheme_fits
  separate := by decide
  masks := rfl
  entries := List.all_iff_forall_prop.mp (by decide)

theorem rowError_countingRng (seed : Seed) (row : ℕ) : countingRng.rowError seed row = 0 := by
  have hstate : Nat.succ^[row] 4 = 4 + row := Nat.succ_iterate 4 row
  show (if Nat.succ^[row] 4 < 4 then Nat.succ^[row] 4 else 0) = 0
  rw [hstate, if_neg (by omega)]

theorem Transcript.body_lt {P : RlweParams} (t : Transcript P) (col : ℕ) : t.body col < P.q := by
  unfold Transcript.body
  rcases t.packed[col / P.d]? with _ | ct
  · exact P.q_pos
  · have hi : col % P.d < (rawRow ct.c2).length := by
      rw [length_rawRow]
      exact row_mod_lt P col
    show (rawRow ct.c2).getD (col % P.d) 0 < P.q
    rw [List.getD_eq_getElem _ _ hi]
    exact rawRow_lt _ _ (List.getElem_mem hi)

/-- Without errors and at the width of the modulus there is no noise. -/
theorem noise_smallScheme {R : Type} {gen : ClientRng maskParams R} {seed : Seed}
    (hrow : ∀ row, gen.rowError seed row = 0) (hkgNoise : ∀ k, (gen.kgNoise seed).1 k = 0)
    (hkhNoise : ∀ k, (gen.khNoise seed).1 k = 0) (t : Transcript maskParams) (col : ℕ) :
    t.noise smallChunkedServer smallScheme gen seed col = 0 := by
  have hkg : (fun k : Fin maskParams.gadget.ell => Poly.ring maskParams.q
      ((gen.kgNoise seed).1 k)) = 0 := by
    funext k
    rw [hkgNoise]
    exact Poly.ring_zero ..
  have hkh : (fun k : Fin maskParams.gadget.ell => Poly.ring maskParams.q
      ((gen.khNoise seed).1 k)) = 0 := by
    funext k
    rw [hkhNoise]
    exact Poly.ring_zero ..
  have hkeys := keyError_zero (P := maskParams) (t.digits (col / maskParams.d))
  have hswitched (v : ℕ) : switched maskParams.q smallScheme.queryBits v = v := rfl
  have hback : ∀ v < 17, rescale (rescale v 17 17) 17 17 = v := by decide
  have hbody : rescale (rescale (t.body col) maskParams.q smallScheme.qPrime1)
      smallScheme.qPrime1 maskParams.q = t.body col := hback _ (t.body_lt col)
  simp only [Transcript.noise, hrow, hswitched, hkg, hkh, hkeys, hbody, sub_self,
    Nat.cast_zero, mul_zero, Finset.sum_const_zero, add_zero, coeff_zero]

/-- What is decoded entry by entry is a row of the database. -/
theorem eq_smallRow {decoded : List ℕ} (row : ℕ) (hlen : decoded.length = 8)
    (h : ∀ col < 8, decoded.getD col 0 = dbAt smallChunkedServer.db (col * 4 + row)) :
    decoded = (List.range 8).map fun col => dbAt smallChunkedServer.db (col * 4 + row) := by
  refine List.ext_getElem (by rw [hlen, List.length_map, List.length_range]) fun col hcol _ => ?_
  rw [← List.getD_eq_getElem _ 0 hcol, h col (hlen ▸ hcol), List.getElem_map, List.getElem_range]

/-- The entries of the third of four rows, without an error. -/
theorem retrieval_small : ∃ t : Transcript maskParams,
    t.Runs (defaultKernel UInt8 .traps 1) (fun _ _ _ => .ok ()) smallChunkedServer smallScheme
        smallSetup countingRng .traps (fun _ => Scheduler.perItem _) REFERENCE_W_SEED 2 ∧
      t.decoded = [0, 0, 1, 1, 1, 0, 1, 0] := by
  obtain ⟨t, hruns, hlen, hdecoded⟩ := retrieval (defaultKernel UInt8 .traps 1)
    (defaultKernel_exact .traps 1) (fun _ _ _ => .ok ()) smallChunkedServer maskParams smallScheme
    smallSetup smallChunkedServer_deployed countingRng .traps (fun _ => Scheduler.perItem _)
    REFERENCE_W_SEED 2 (by decide)
  have hquiet : ∀ col < 8, t.decoded.getD col 0 = dbAt smallChunkedServer.db (col * 4 + 2) := by
    intro col hcol
    refine hdecoded col hcol ?_
    rw [noise_smallScheme (rowError_countingRng _) (fun _ => rfl) fun _ => rfl]
    decide
  exact ⟨t, hruns, (eq_smallRow 2 hlen hquiet).trans (by decide)⟩

end SimplePir
