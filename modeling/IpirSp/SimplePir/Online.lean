import IpirSp.Inspiring.Phase
import IpirSp.Inspiring.PreprocessReuse
import IpirSp.Rounding.Scaled
import IpirSp.SimplePir.FirstDimension
import IpirSp.SimplePir.ModulusSwitch
import IpirSp.SimplePir.Profile
import IpirSp.SimplePir.QueryBytes

/-!
# A query and its answer

The client of the odd-modulus protocol regenerates its secret from a seed, uploads key bodies and a
rounded selection query, and decodes what comes back.  The server lifts the query, multiplies it by
the database, packs the products block by block and returns only the second rows, rounded; the first
rows belong to the snapshot and are published once.

This module has the functions of both sides and what each of them returns.  They are put together in
`IpirSp.SimplePir.Retrieval`.
-/

namespace SimplePir

open Negacyclic SpiralRs Inspiring Loops MachineWord NativeClient SimplePirKernel

/-! ## The server -/

/-- The errors of the online phase: those of the packing functions, and `Internal`. -/
inductive OnlineError
  | inspiring (e : InspiringError)
  | internal (msg : String)

/-- The outcome of the online phase. -/
abbrev Online (α : Type) := Except (Failure OnlineError) α

/-- A call of a packing function. -/
def online {α : Type} : Outcome α → Online α
  | .ok a => .ok a
  | .error (.err e) => .error (.err (.inspiring e))
  | .error (.panic msg) => .error (.panic msg)

section Server

variable (P : RlweParams)

/-- `CrsBlock::to_ntt`. -/
def CrsBlock.toNtt (block : CrsBlock) : Outcome (PolyMatrixNTT P.d P.q) :=
  if block.rows.length ≠ P.d then .error (.panic "CRS block must have d rows")
  else if block.rows.any fun row => row.length ≠ P.d then
    .error (.panic "CRS row must have d coefficients")
  else .ok (crsOfRows P fun rowIdx coeffIdx => vecGet (block.rows.getD rowIdx []) coeffIdx % P.q)

/-- `build_pack_preprocessed_blocks`. -/
def buildPackPreprocessedBlocks (crsBlocks : List CrsBlock) :
    Outcome (List (QueryPackPreprocessed P)) :=
  crsBlocks.mapM fun block => do
    let crs ← block.toNtt P
    QueryPackPreprocessed.build P crs

/-- `build_pack_preprocessed_blocks_with_top`. -/
def buildPackPreprocessedBlocksWithTop (crsBlocks : List CrsBlock) (top : TopKeyImages P) :
    Outcome (List (QueryPackPreprocessed P)) :=
  crsBlocks.mapM fun block => do
    let crs ← block.toNtt P
    QueryPackPreprocessed.buildWithTop P crs top

variable {P}

/-- `pack_intermediate_blocks`; a block has the parameters of the first by its type. -/
def packIntermediateBlocks (workers : ℕ → Scheduler (CollapseTerm P)) (intermediate : List ℕ)
    (packingKeys : PackingKeys P) (topKeyImages : TopKeyImages P)
    (preprocessed : List (QueryPackPreprocessed P)) : Outcome (List (RlweCiphertext P)) :=
  if preprocessed = [] then
    if intermediate = [] then .ok []
    else mismatch "non-empty intermediate with no preprocessing blocks"
  else if intermediate.length ≠ preprocessed.length * P.d then
    .error (.err (.lweShape (s!"expected {preprocessed.length * P.d} intermediate values for " ++
      s!"{preprocessed.length} blocks of d={P.d}, got {intermediate.length}")))
  else do
    packingKeys.validate
    topKeyImages.validate
    ((chunks P.d intermediate).zip preprocessed).zipIdx.mapM fun ((bBlock, pre), blockIdx) =>
      pre.packBPrevalidated (workers blockIdx) bBlock packingKeys topKeyImages

/-- `published_c1_rows`. -/
def publishedC1Rows (preprocessed : List (QueryPackPreprocessed P)) (q : ℕ) : List UInt8 :=
  preprocessed.flatMap fun pre =>
    u64sToContiguousBytes (rawRow pre.collapseAFinalNtt) (modulusBits q)

variable {T K : Type} [ToU64 T]

/-- `deserialize_first_dim_query`. -/
def YServer.deserializeFirstDimQuery (server : YServer T K) (ypir : SchemeParams) (P : RlweParams)
    (query : List UInt8) : Outcome (List ℕ) := do
  let rows := server.dbRowsPadded
  let parsed ← IPIRSimpleQuery.fromSwitchedBytes query rows P.q ypir.queryBits
  let firstDimQuery := parsed.firstDim
  if firstDimQuery.length ≠ server.dbRowsPadded then
    .error (.err (.lweShape (s!"expected {server.dbRowsPadded} first-dimension query values, " ++
      s!"got {firstDimQuery.length}")))
  else .ok firstDimQuery

/-- `perform_full_online_computation_simplepir_measured`, without the measurements. -/
def YServer.performFullOnlineComputationSimplepirMeasured (kernel : TryMultiplyQuery T K)
    (validateProfileParts : RlweParams → DatabaseShape → SimplePirProfile → Outcome Unit)
    (server : YServer T K) (ypir : SchemeParams) (workers : ℕ → Scheduler (CollapseTerm P))
    (query : List UInt8) (packingKeys : PackingKeys P) (topKeyImages : TopKeyImages P)
    (preprocessed : List (QueryPackPreprocessed P)) : Online (List UInt8) := do
  online (server.validateBoundRlwe validateProfileParts P)
  let firstDimQuery ← online (server.deserializeFirstDimQuery ypir P query)
  let intermediate ←
    match server.tryMultiplyQuery kernel validateProfileParts P (queryWords firstDimQuery) with
    | .ok intermediate => .ok intermediate
    | .error (.err _) => .error (.err (.internal "matrix-vector backend failed"))
    | .error (.panic msg) => .error (.panic msg)
  let packed ← online
    (packIntermediateBlocks workers intermediate packingKeys topKeyImages preprocessed)
  .ok (serializeRlweResponseBodies packed ypir.qPrime1)

end Server

/-! ## The client -/

/-- The generator of a client over the polynomial layer: the state after a seed, `dg.sample` and
`PolyMatrixRaw::noise` for the gadget. -/
structure ClientRng (P : RlweParams) (R : Type) where
  fromSeed : Seed → R
  sample : R → ℕ × R
  noise : R → (ℕ → Poly P.d) × R
  sample_lt : ∀ rng, (sample rng).1 < P.q
  noise_lt : ∀ rng k i, (noise rng).1 k i < P.q

/-- `PublicQuerySetup`. -/
structure PublicQuerySetup (P : RlweParams) (dbRows : ℕ) where
  polys : List (List ℕ)
  length_polys : polys.length = dbRows / P.d
  length_poly : ∀ poly ∈ polys, poly.length = P.d
  poly_lt : ∀ poly ∈ polys, ∀ c ∈ poly, c < P.q

section Client

variable {P : RlweParams} {R : Type}

/-- The draws of a loop that samples once a turn. -/
def ClientRng.draws (gen : ClientRng P R) (rng : R) (turn : ℕ) : ℕ :=
  (gen.sample ((fun r => (gen.sample r).2)^[turn] rng)).1

/-- `ClientSecret::sample_gaussian`. -/
def ClientRng.sampleGaussian (gen : ClientRng P R) (rng : R) : List ℕ × R :=
  (List.ofFn fun i : Fin P.d => gen.draws rng i, (fun r => (gen.sample r).2)^[P.d] rng)

variable (P) in
/-- `ClientSecret::to_ntt`. -/
def secretToNtt (coeffs : List ℕ) : Outcome (Ntt P.d P.q) :=
  if coeffs.length ≠ P.d then .error (.panic "client secret must have d coefficients")
  else .ok (P.spiral.toNttAlloc (vecGet coeffs))

/-- `generate_fresh_query_simplepir`, on the seed that `fresh_client_seed` returns. -/
def generateFreshQuerySimplepir (gen : ClientRng P R) (o : Overflow) (ypir : SchemeParams)
    (setup : PublicQuerySetup P ypir.dbRows) (targetRow : ℕ) (clientSeed : Seed) :
    Outcome (IPIRSimpleQuery × PackingKeys P × Seed) :=
  if ¬targetRow < ypir.dbRows then
    .error (.panic s!"target_row {targetRow} is out of range for {ypir.dbRows} db rows")
  else do
    let (secret, rng) := gen.sampleGaussian (gen.fromSeed clientSeed)
    let secretNtt ← secretToNtt P secret
    let (kgError, rng) := gen.noise rng
    let (khError, rng) := gen.noise rng
    let packingKeys := PackingKeys.generateFull P secretNtt kgError khError
    let firstDim ← encryptedSelectionQuery P o setup.polys secret targetRow ypir.dbRows
      (gen.draws rng)
    .ok (⟨firstDim⟩, packingKeys, clientSeed)

/-- A call of the bit codec, which returns or panics. -/
def fromBits {α : Type} : Reinspiring.Result α → Outcome α
  | .ok a => .ok a
  | .error (.panic msg) => .error (.panic msg)
  | .error (.err _) => .error (.panic "the bit codec has no error")

/-- `published_c1_len`. -/
def publishedC1Len (degree q : ℕ) : ℕ := (degree * modulusBits q + 7) / 8

/-- `recover_published_c1`. -/
def recoverPublishedC1 (data : List UInt8) (degree blocks q : ℕ) : Outcome (List (List ℕ)) :=
  let rowLen := publishedC1Len degree q
  if data.length ≠ blocks * rowLen then
    .error (.panic (s!"published c1 must be {blocks} rows of {rowLen} bytes; got {data.length} " ++
      "bytes. An empty body usually means the server did not serve /public-params."))
  else if rowLen = 0 then .error (.panic "chunk size must be non-zero")
  else
    (chunks rowLen data).mapM fun chunk => do
      let row ← unpackFields chunk (modulusBits q)
      .ok (row.take degree)

/-- `add_poly_mod`. -/
def addPolyMod (lhs rhs : List ℕ) (modulus : ℕ) : List ℕ :=
  List.zipWith (fun x y => if x ≥ modulus - y then x - (modulus - y) else x + y) lhs rhs

/-- `negacyclic_mul_ntt`. -/
def negacyclicMulNtt (left : List ℕ) (rightNtt : Ntt P.d P.q) : Outcome (List ℕ) := do
  let leftNtt ← Client.polynomialToNtt P left
  let product := P.spiral.multiply (fun _ : Fin 1 => leftNtt) fun _ => rightNtt
  .ok (rawRow product)

/-- `phase_of`. -/
def phaseOf (row0 row1 : List ℕ) (secretNtt : Ntt P.d P.q) : Outcome (List ℕ) := do
  let product ← negacyclicMulNtt row0 secretNtt
  .ok (addPolyMod row1 product P.q)

/-- The rounding of one coefficient. -/
def decodeCoeff (o : Overflow) (P : RlweParams) (coeff : ℕ) : Outcome ℕ :=
  match o.add 64 coeff (P.delta / 2) with
  | none => .error (.panic "attempt to add with overflow")
  | some sum => .ok (sum / P.delta % P.p)

/-- `decode_rows`. -/
def decodeRows (o : Overflow) (row0 row1 : List ℕ) (secretNtt : Ntt P.d P.q) :
    Outcome (List ℕ) := do
  let phase ← phaseOf row0 row1 secretNtt
  phase.mapM (decodeCoeff o P)

/-- `decode_response_simplepir_raw`. -/
def decodeResponseSimplepirRaw (gen : ClientRng P R) (o : Overflow) (ypir : SchemeParams)
    (clientSeed : Seed) (publishedC1 : List (List ℕ)) (response : List UInt8) :
    Outcome (List ℕ) :=
  let blocks := ypir.dbCols / P.d
  let bodyLen := responseBodyLen P.d ypir.qPrime1
  if response.length ≠ blocks * bodyLen then
    .error (.panic "serialized response length mismatch")
  else if publishedC1.length ≠ blocks then
    .error (.panic "expected one published c1 row per output block")
  else do
    let (secret, _) := gen.sampleGaussian (gen.fromSeed clientSeed)
    let secretNtt ← secretToNtt P secret
    let decoded ← ((chunks bodyLen response).zip publishedC1).mapM fun (chunk, row0) => do
      let row1 ← fromBits (recoverResponseBody chunk P.d ypir.qPrime1 P.q)
      decodeRows o row0 row1 secretNtt
    .ok decoded.flatten

/-- `decode_response_simplepir`. -/
def decodeResponseSimplepir (gen : ClientRng P R) (o : Overflow) (ypir : SchemeParams)
    (clientSeed : Seed) (publishedC1 : List (List ℕ)) (response : List UInt8) :
    Outcome (List UInt8) := do
  let decoded ← decodeResponseSimplepirRaw gen o ypir clientSeed publishedC1 response
  .ok (u64sToContiguousBytes decoded (modulusBits P.p))

end Client

/-! ## The published rows -/

section Published

variable {P : RlweParams}

/-- **The published rows are recovered as they are.** -/
theorem recoverPublishedC1_ok (preprocessed : List (QueryPackPreprocessed P)) :
    recoverPublishedC1 (publishedC1Rows preprocessed P.q) P.d preprocessed.length P.q =
      .ok (preprocessed.map fun pre => rawRow pre.collapseAFinalNtt) := by
  have hbits := modulusBits_pos P
  have hlen (pre : QueryPackPreprocessed P) : (u64sToContiguousBytes
      (rawRow pre.collapseAFinalNtt) (modulusBits P.q)).length = publishedC1Len P.d P.q := by
    rw [length_u64sToContiguousBytes, length_rawRow]
    rfl
  have hpos : 0 < publishedC1Len P.d P.q := by
    have hmul := Nat.mul_pos P.d_pos hbits
    rw [publishedC1Len]
    omega
  have htotal : (publishedC1Rows preprocessed P.q).length =
      preprocessed.length * publishedC1Len P.d P.q := by
    rw [publishedC1Rows, List.length_flatMap, List.map_congr_left fun pre _ => hlen pre,
      List.map_const', List.sum_replicate, smul_eq_mul]
  rw [recoverPublishedC1, if_neg (not_not.mpr htotal), if_neg hpos.ne']
  refine mapM_chunks_flatMap hpos (fun pre _ => hlen pre) fun pre _ => ?_
  obtain ⟨fields, hfields, -, htake⟩ := unpackFields_written hbits (modulusBits_le P)
    fun w hw => lt_two_pow_modulusBits (rawRow_lt pre.collapseAFinalNtt w hw)
  rw [length_rawRow] at htake
  rw [hfields, ok_bind, htake]

end Published

/-! ## Decoding -/

section Decoding

variable {P : RlweParams}

theorem getElem_rawRow (row : Ntt P.d P.q) (i : Fin P.d) (hi : (i : ℕ) < (rawRow row).length) :
    (rawRow row)[(i : ℕ)] = P.spiral.fromNttAlloc row i := List.getElem_ofFn hi

theorem vecGet_rawRow (row : Ntt P.d P.q) (i : Fin P.d) :
    vecGet (rawRow row) i = P.spiral.fromNttAlloc row i := by
  have hi : (i : ℕ) < (rawRow row).length := by
    rw [length_rawRow]
    exact i.2
  rw [vecGet, List.getD_eq_getElem _ _ hi, getElem_rawRow]

theorem cast_fromNttAlloc (row : Ntt P.d P.q) (i : Fin P.d) :
    (P.spiral.fromNttAlloc row i : ZMod P.q) = coeff (P.spiral.ring row) i := by
  rw [Params.ring, Poly.coeff_ring]

/-- A polynomial that is published is transformed back. -/
theorem polynomialToNtt_rawRow (row : Ntt P.d P.q) :
    ∃ rowNtt, Client.polynomialToNtt P (rawRow row) = .ok rowNtt ∧
      P.spiral.ring rowNtt = P.spiral.ring row := by
  obtain ⟨rowNtt, hrun, hring⟩ := polynomialToNtt_ok (P := P) (length_rawRow row)
  refine ⟨rowNtt, hrun, hring.trans (ext_coeff fun i => ?_)⟩
  rw [secretRing, Poly.coeff_ring, vecGet_rawRow, cast_fromNttAlloc]

/-- `add_poly_mod` on residues. -/
theorem addPolyMod_residue {q x y : ℕ} (hx : x < q) (hy : y < q) :
    (if x ≥ q - y then x - (q - y) else x + y) < q ∧
      ((if x ≥ q - y then x - (q - y) else x + y : ℕ) : ZMod q) = x + y := by
  split
  · next hge =>
    refine ⟨by omega, ?_⟩
    have hsum : x - (q - y) + q = x + y := by omega
    have hcast := congrArg (Nat.cast : ℕ → ZMod q) hsum
    push_cast at hcast
    rwa [ZMod.natCast_self, add_zero] at hcast
  · next hlt =>
    refine ⟨by omega, ?_⟩
    push_cast
    rfl

/-- **The phase of a block**, coefficient by coefficient. -/
theorem phaseOf_ok (c1 secretNtt : Ntt P.d P.q) {row1 : List ℕ} (hlen : row1.length = P.d)
    (hlt : ∀ x ∈ row1, x < P.q) :
    ∃ phase, phaseOf (rawRow c1) row1 secretNtt = .ok phase ∧ phase.length = P.d ∧
      ∀ i : Fin P.d, vecGet phase i < P.q ∧ (vecGet phase i : ZMod P.q) =
        coeff (P.spiral.ring c1 * P.spiral.ring secretNtt) i + vecGet row1 i := by
  obtain ⟨rowNtt, hrow, hring⟩ := polynomialToNtt_rawRow c1
  refine ⟨_, by rw [phaseOf, negacyclicMulNtt, hrow]; rfl, ?_, fun i => ?_⟩
  · rw [addPolyMod, List.length_zipWith, length_rawRow, hlen, min_self]
  · generalize hproduct : P.spiral.multiply (fun _ : Fin 1 => rowNtt) (fun _ => secretNtt) = product
    have hprod : P.spiral.ring product = P.spiral.ring c1 * P.spiral.ring secretNtt := by
      rw [← hproduct, P.spiral.ring_multiply, Fin.sum_univ_one, hring]
    have hi : (i : ℕ) < row1.length := by
      rw [hlen]
      exact i.2
    have hi' : (i : ℕ) < (rawRow product).length := by
      rw [length_rawRow]
      exact i.2
    have hzip : (i : ℕ) < (addPolyMod row1 (rawRow product) P.q).length := by
      rw [addPolyMod, List.length_zipWith, length_rawRow, hlen, min_self]
      exact i.2
    obtain ⟨hres, hcast⟩ := addPolyMod_residue (hlt _ (List.getElem_mem hi))
      (P.spiral.fromNttAlloc_lt product i)
    have hword : vecGet (addPolyMod row1 (rawRow product) P.q) i =
        if row1[(i : ℕ)] ≥ P.q - P.spiral.fromNttAlloc product i then
          row1[(i : ℕ)] - (P.q - P.spiral.fromNttAlloc product i)
        else row1[(i : ℕ)] + P.spiral.fromNttAlloc product i := by
      rw [vecGet, List.getD_eq_getElem _ _ hzip]
      simp only [addPolyMod, List.getElem_zipWith, getElem_rawRow]
    rw [hword, vecGet, List.getD_eq_getElem _ _ hi]
    refine ⟨hres, ?_⟩
    rw [hcast, cast_fromNttAlloc, hprod, add_comm]

/-- A coefficient is rounded without an overflow. -/
theorem decodeCoeff_ok (o : Overflow) (hq : P.q < 2 ^ 62) {c : ℕ} (hc : c < P.q) :
    decodeCoeff o P c = .ok ((c + P.delta / 2) / P.delta % P.p) := by
  have hdelta : P.delta / 2 ≤ P.q := by
    rw [P.delta_eq]
    exact (Nat.div_le_self _ _).trans (Nat.div_le_self _ _)
  rw [decodeCoeff, o.add_ok (by omega)]

/-- **A block is decoded** to the rounded coefficients of its phase. -/
theorem decodeRows_ok (o : Overflow) (hq : P.q < 2 ^ 62) (c1 secretNtt : Ntt P.d P.q)
    {row1 : List ℕ} (hlen : row1.length = P.d) (hlt : ∀ x ∈ row1, x < P.q) :
    ∃ phase : Poly P.d,
      decodeRows o (rawRow c1) row1 secretNtt =
        .ok (List.ofFn fun i => (phase i + P.delta / 2) / P.delta % P.p) ∧
      ∀ i, phase i < P.q ∧ (phase i : ZMod P.q) =
        coeff (P.spiral.ring c1 * P.spiral.ring secretNtt) i + vecGet row1 i := by
  obtain ⟨phase, hphase, hcount, hvalue⟩ := phaseOf_ok c1 secretNtt hlen hlt
  refine ⟨fun i => vecGet phase i, ?_, hvalue⟩
  have hmem : ∀ c ∈ phase, c < P.q := by
    intro c hc
    obtain ⟨i, hi, rfl⟩ := List.getElem_of_mem hc
    have hword := (hvalue ⟨i, hcount ▸ hi⟩).1
    rwa [vecGet, List.getD_eq_getElem _ _ hi] at hword
  rw [decodeRows, hphase, ok_bind, mapM_eq_ok fun c hc => decodeCoeff_ok o hq (hmem c hc)]
  refine congrArg Except.ok (List.ext_getElem ?_ fun i hi hi' => ?_)
  · rw [List.length_map, List.length_ofFn, hcount]
  · rw [List.length_map] at hi
    simp only [List.getElem_map, List.getElem_ofFn, vecGet, List.getD_eq_getElem _ _ hi]

end Decoding

end SimplePir
