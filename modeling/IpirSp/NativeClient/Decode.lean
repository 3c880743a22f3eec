import IpirSp.NativeClient.Published

/-!
# Decoding a response

`decode` forms a ciphertext for each block and decodes it.  `decode_prepared` uses the transforms
that were prepared for the snapshot, and the products with the secret if `prepare_decode` has
computed them.  `decodePrepared_alike` says that the two agree on every byte string.
-/

namespace NativeClient

open Reinspiring SpiralRs Inspiring Codec Loops MachineWord

variable {d q : ℕ} {P : NativeParams d q} {R : Type}

/-- `NativePreparedPublished`. -/
structure NativePreparedPublished (P : NativeParams d q) where
  setupId : Digest
  profile : NativeProfile P
  decoder : NativeDecoder P
  maskDigest : Digest

/-- `NativePublished::prepare`. -/
def NativePublished.prepare (prim : Primitives) (lib : NumberTheory)
    (published : NativePublished P) (setup : NativePublicSetup P) :
    Result (NativePreparedPublished P) :=
  let p := setup.profile
  if published.setupId ≠ setup.id ∨ published.masks.length ≠ p.cols / d ∨
      published.otherMasks.isSome ≠ p.twoMask ∨ published.maskBits ≠ p.publishedMaskBits then
    invalidParams "published setup mismatch"
  else do
    let decoder ← NativeDecoder.new lib P published.masks published.otherMasks
    .ok {
      setupId := published.setupId
      profile := p
      decoder
      maskDigest := prim.sha256 published.toBytes }

namespace NativeRequest

/-- `prepare_decode`. -/
def prepareDecode (request : NativeRequest P) (published : NativePreparedPublished P) :
    Result (NativeRequest P) :=
  if published.setupId ≠ request.setupId ∨ published.profile ≠ request.profile then
    invalidParams "prepared setup/profile mismatch"
  else do
    let state ← published.decoder.prepareRequest request.secret
    .ok { request with decoding := some (published.maskDigest, state) }

/-- What binds a response of `len` body bytes to a request. -/
def IsBound (request : NativeRequest P) (len : ℕ) (response : List UInt8) : Prop :=
  response.length = 68 + len ∧
    response.take 4 = (if request.profile.twoMask then asciiBytes "RNR2"
      else asciiBytes "RNR1") ∧
    (response.drop 4).take 32 = List.ofFn request.setupId ∧
    (response.drop 36).take 32 = List.ofFn request.queryId

instance (request : NativeRequest P) (len : ℕ) (response : List UInt8) :
    Decidable (request.IsBound len response) :=
  inferInstanceAs (Decidable (_ ∧ _ ∧ _ ∧ _))

/-- The checks of the two decoders: `mismatch`, and then the binding of the response, whose length
is only computed when the first check has passed. -/
def checkBinding (o : Overflow) (request : NativeRequest P) (mismatch : Prop) [Decidable mismatch]
    (response : List UInt8) (msg : String) : Result Unit :=
  if mismatch then invalidParams msg
  else do
    let len ← packedLen o request.profile.cols request.profile.responseBits
    if ¬request.IsBound len response then invalidParams msg else .ok ()

/-- The bodies of a response at full width. -/
def bodies (o : Overflow) (request : NativeRequest P) (response : List UInt8) :
    Result (List ℕ) := do
  let p := request.profile
  let words ← decode o (response.drop 68) p.cols p.responseBits
  .ok (up words q p.responseBits)

/-- `decode_prepared`. -/
def decodePrepared (o : Overflow) (request : NativeRequest P)
    (published : NativePreparedPublished P) (response : List UInt8) : Result (List ℕ) := do
  request.checkBinding o
    (published.setupId ≠ request.setupId ∨ published.profile ≠ request.profile) response
    "prepared response/setup/request binding mismatch"
  let bodies ← request.bodies o response
  match request.decoding with
  | some (digest, state) =>
      if digest ≠ published.maskDigest then invalidParams "prepared mask digest mismatch"
      else state.decrypt bodies
  | none => published.decoder.decrypt request.secret bodies

/-- One block of `decode_inner`: the row, and its error if the row is known. -/
def decodeBlock (lib : NumberTheory) (request : NativeRequest P) (mask : Poly d)
    (other : Option (Poly d)) (block : Poly d) (expected : Option (Poly d)) :
    Result (Poly d × ℕ) :=
  match other with
  | some other => do
      let ct ← NativeTwoMaskCiphertext.fromRows P mask other block
      let out ← request.secret.decryptTwoMask lib ct
      let error ← expected.elim (.ok 0) (request.secret.phaseErrorTwoMask lib ct)
      .ok (out, error)
  | none => do
      let ct ← NativeCiphertext.fromRows P mask block
      let out ← request.secret.decrypt lib ct
      let error ← expected.elim (.ok 0) (request.secret.phaseError lib ct)
      .ok (out, error)

/-- Block `i` of a list of blocks. -/
def blockAt (blocks : List (Poly d)) (i : ℕ) : Poly d := blocks.getD i fun _ => 0

/-- `decode_inner`. -/
def decodeInner (o : Overflow) (lib : NumberTheory) (request : NativeRequest P)
    (published : NativePublished P) (response : List UInt8) (expected : Option (List ℕ)) :
    Result (List ℕ × ℕ) := do
  let p := request.profile
  request.checkBinding o (published.setupId ≠ request.setupId ∨
      published.masks.length ≠ p.cols / d ∨ published.otherMasks.isSome ≠ p.twoMask ∨
      published.otherMasks.any (fun x => x.length ≠ p.cols / d)) response
    "response/setup/request binding mismatch"
  let b ← request.bodies o response
  let blocks := chunksExact d b
  let rows ← (List.range blocks.length).mapM fun i =>
    request.decodeBlock lib (blockAt published.masks i)
      (published.otherMasks.map fun others => blockAt others i) (blockAt blocks i)
      (expected.map fun row => blockAt (chunksExact d row) i)
  .ok (flatWords (rows.map Prod.fst), (rows.map Prod.snd).foldl max 0)

/-- `decode`. -/
def decode (o : Overflow) (lib : NumberTheory) (request : NativeRequest P)
    (published : NativePublished P) (response : List UInt8) : Result (List ℕ) :=
  Prod.fst <$> request.decodeInner o lib published response none

/-- `decode_with_error`. -/
def decodeWithError (o : Overflow) (lib : NumberTheory) (request : NativeRequest P)
    (published : NativePublished P) (response : List UInt8) (expected : List ℕ) :
    Result (List ℕ × ℕ) :=
  if expected.length ≠ request.profile.cols ∨ ∃ x ∈ expected, x ≥ P.p then
    invalidParams "invalid expected row"
  else request.decodeInner o lib published response (some expected)

end NativeRequest

/-! ## The checks -/

namespace NativeRequest

variable {request : NativeRequest P} {mismatch : Prop} [Decidable mismatch] {msg : String}

theorem checkBinding_of_mismatch (o : Overflow) (response : List UInt8) (h : mismatch) :
    request.checkBinding o mismatch response msg = invalidParams msg := if_pos h

/-- A length that can be counted is compared. -/
theorem checkBinding_eq (o : Overflow) (response : List UInt8) (h : ¬mismatch)
    (hfit : request.profile.cols * request.profile.responseBits < 2 ^ 64) :
    request.checkBinding o mismatch response msg =
      if ¬request.IsBound (fieldBytes request.profile.cols request.profile.responseBits) response
      then invalidParams msg else .ok () := by
  rw [checkBinding, if_neg h, packedLen_ok o hfit, ok_bind]

/-- The checks pass, or the response is refused. -/
theorem checkBinding_isErr_or (o : Overflow)
    (hfit : request.profile.cols * request.profile.responseBits < 2 ^ 64)
    (response : List UInt8) :
    IsErr (request.checkBinding o mismatch response msg) ∨
      request.checkBinding o mismatch response msg = .ok () := by
  by_cases h : mismatch
  · rw [checkBinding_of_mismatch o response h]
    exact Or.inl (isErr_invalidParams msg)
  · rw [checkBinding_eq o response h hfit]
    split
    · exact Or.inl (isErr_invalidParams msg)
    · exact Or.inr rfl

/-- A response of another request is refused. -/
theorem isErr_checkBinding (o : Overflow)
    (hfit : request.profile.cols * request.profile.responseBits < 2 ^ 64)
    {response : List UInt8} (hbound : ¬request.IsBound
      (fieldBytes request.profile.cols request.profile.responseBits) response) :
    IsErr (request.checkBinding o mismatch response msg) := by
  by_cases h : mismatch
  · rw [checkBinding_of_mismatch o response h]
    exact isErr_invalidParams msg
  · rw [checkBinding_eq o response h hfit, if_pos hbound]
    exact isErr_invalidParams msg

/-- A payload that is refused is refused behind the checks. -/
theorem isErr_bodies {α : Type} (o : Overflow)
    (hfit : request.profile.cols * request.profile.responseBits < 2 ^ 64)
    {response : List UInt8} (hbodies : IsErr (request.bodies o response))
    (decodeBodies : List ℕ → Result α) :
    IsErr (request.checkBinding o mismatch response msg >>= fun _ =>
      request.bodies o response >>= decodeBodies) := by
  have hor : IsErr (request.checkBinding o mismatch response msg) ∨
      request.checkBinding o mismatch response msg = .ok () :=
    checkBinding_isErr_or o hfit response
  rcases hor with hcheck | hcheck
  · exact hcheck.bind _
  · rw [hcheck, ok_bind]
    exact hbodies.bind _

end NativeRequest

/-! ## Blocks -/

/-- The masks of block `i`. -/
theorem getElem_maskFamilies {masks : List (Poly d)} {others : Option (List (Poly d))}
    (h : CanonicalMasks q masks others) {i : ℕ} (hi : i < (maskFamilies masks others).length) :
    (maskFamilies masks others)[i] = NativeRequest.blockAt masks i ::
      (others.map fun os => NativeRequest.blockAt os i).toList := by
  have hmask : i < masks.length := h.length_families ▸ hi
  cases others with
  | none => simp [maskFamilies, NativeRequest.blockAt, hmask]
  | some os =>
      have hother : i < os.length := (h.length_eq os rfl).symm ▸ hmask
      simp [maskFamilies, NativeRequest.blockAt, hmask, hother]

/-- **A block is decoded** from the product of its masks with the secret. -/
theorem NativeRequest.decodeBlock_ok {lib : NumberTheory} {lift : LiftContext d q}
    (hlift : LiftContext.new lib d q = .ok lift) {request : NativeRequest P}
    (hsecret : ∀ i, request.secret.coeffs i < q) {mask block product : Poly d}
    {other : Option (Poly d)} (hmask : ∀ a ∈ mask :: other.toList, ∀ i, a i < q)
    (hblock : ∀ i, block i < q)
    (hproduct : IsDot q (mask :: other.toList) (request.secret.family other.isSome) product) :
    request.decodeBlock lib mask other block none = .ok (decodeRow P product block, 0) := by
  have hfirst := hmask mask List.mem_cons_self
  cases other with
  | none =>
      rw [decodeBlock, NativeCiphertext.fromRows_ok P hfirst hblock, ok_bind,
        NativeSecret.decrypt_ok hlift hsecret hfirst hproduct]
      rfl
  | some other =>
      have hother := hmask other (by simp)
      rw [decodeBlock, NativeTwoMaskCiphertext.fromRows_ok P hfirst hother hblock, ok_bind,
        NativeSecret.decryptTwoMask_ok hlift hsecret hfirst hother hproduct]
      rfl

/-! ## The two decoders -/

/-- What a request and the prepared masks of its setup share. -/
structure Prepared (prim : Primitives) (lib : NumberTheory) (setup : NativePublicSetup P)
    (request : NativeRequest P) (published : NativePublished P)
    (prepared : NativePreparedPublished P) : Prop where
  valid : setup.profile.Valid
  small : request.secret.Small
  profile_eq : request.profile = setup.profile
  setupId_eq : request.setupId = setup.id
  decoding_eq : request.decoding = none
  of : published.Of setup
  prepare_eq : published.prepare prim lib setup = .ok prepared

namespace Prepared

variable {prim : Primitives} {lib : NumberTheory} {setup : NativePublicSetup P}
  {request : NativeRequest P} {published : NativePublished P}
  {prepared : NativePreparedPublished P}

/-- What `prepare` returns. -/
theorem fields (h : Prepared prim lib setup request published prepared) :
    prepared.setupId = setup.id ∧ prepared.profile = setup.profile ∧
      NativeDecoder.new lib P published.masks published.otherMasks = .ok prepared.decoder := by
  obtain ⟨-, hprepare⟩ := NativeProfile.guard_eq_ok h.prepare_eq
  obtain ⟨decoder, hdecoder, hok⟩ := bind_eq_ok hprepare
  obtain rfl := Except.ok.inj hok
  exact ⟨h.of.setupId, rfl, hdecoder⟩

/-- The transforms were set up when the masks were prepared. -/
theorem exists_lift (h : Prepared prim lib setup request published prepared) :
    ∃ lift, LiftContext.new lib d q = .ok lift := by
  obtain ⟨-, -, hdecoder⟩ := h.fields
  obtain ⟨-, hdecoder⟩ := NativeProfile.guard_eq_ok hdecoder
  obtain ⟨lift, hlift, -⟩ := bind_eq_ok hdecoder
  exact ⟨lift, hlift⟩

/-- **The products of a request** with the prepared masks. -/
theorem prepareRequest_ok (hslots : lib.BitReversed)
    (h : Prepared prim lib setup request published prepared) :
    ∃ products, prepared.decoder.prepareRequest request.secret = .ok ⟨flatWords products⟩ ∧
      List.Forall₂ (fun pair product =>
        IsDot q pair (request.secret.family published.otherMasks.isSome) product)
        (maskFamilies published.masks published.otherMasks) products :=
  NativeDecoder.prepareRequest_ok hslots h.of.canonical h.valid.gaussian h.fields.2.2 h.small

/-- The bodies of a response can be counted. -/
theorem bodies_fit (h : Prepared prim lib setup request published prepared) :
    request.profile.cols * request.profile.responseBits < 2 ^ 64 := by
  have hcols : setup.profile.cols ≤ 2 ^ 31 :=
    (Nat.le_mul_of_pos_left _ h.valid.rows_pos).trans h.valid.size_le
  have hbits : setup.profile.responseBits ≤ P.qBits :=
    h.valid.responseBits_le.trans (min_le_right _ _)
  have hq := P.qBits_le
  rw [h.profile_eq]
  exact fields_fit (by omega) (by omega)

/-- The bodies of a response are canonical words, one for each column. -/
theorem bodies_spec (h : Prepared prim lib setup request published prepared) {o : Overflow}
    {response : List UInt8} {words : List ℕ} (hwords : request.bodies o response = .ok words) :
    words.length = setup.profile.cols ∧ ∀ x ∈ words, x < q := by
  obtain ⟨fields, hfields, hup⟩ := bind_eq_ok hwords
  obtain rfl := Except.ok.inj hup
  obtain ⟨hlen, hlt, -⟩ := decode_ok h.bodies_fit hfields
  have hle : request.profile.responseBits ≤ P.qBits := by
    rw [h.profile_eq]
    exact h.valid.responseBits_le.trans (min_le_right _ _)
  exact ⟨by rw [length_up, hlen, h.profile_eq], up_lt P hle hlt⟩

/-- **Decoding block by block** returns the rows of the products. -/
theorem decodeBlocks_ok (h : Prepared prim lib setup request published prepared)
    {products : List (Poly d)} (hproducts : List.Forall₂ (fun pair product =>
      IsDot q pair (request.secret.family published.otherMasks.isSome) product)
      (maskFamilies published.masks published.otherMasks) products)
    {blocks : List (Poly d)} (hlen : blocks.length = products.length)
    (hblocks : ∀ b ∈ blocks, ∀ i, b i < q) :
    (List.range blocks.length).mapM (fun i =>
      request.decodeBlock lib (NativeRequest.blockAt published.masks i)
        (published.otherMasks.map fun others => NativeRequest.blockAt others i)
        (NativeRequest.blockAt blocks i) none) =
      .ok ((List.zipWith (decodeRow P) products blocks).map fun row => (row, 0)) := by
  obtain ⟨lift, hlift⟩ := h.exists_lift
  have hcanonical := h.of.canonical
  have hrun := mapM_eq_ok (l := List.range blocks.length) (f := fun i =>
      request.decodeBlock lib (NativeRequest.blockAt published.masks i)
        (published.otherMasks.map fun others => NativeRequest.blockAt others i)
        (NativeRequest.blockAt blocks i) none)
    (g := fun i => (decodeRow P (NativeRequest.blockAt products i)
      (NativeRequest.blockAt blocks i), 0)) fun i hi => ?_
  · rw [hrun]
    congr 1
    refine List.ext_getElem (by simp [hlen]) fun i hi hi' => ?_
    have hblock : i < blocks.length := by simpa using hi
    have hproduct : i < products.length := hlen ▸ hblock
    simp [NativeRequest.blockAt, hblock, hproduct]
  · have hblock : i < blocks.length := List.mem_range.mp hi
    have hproduct : i < products.length := hlen ▸ hblock
    have hfamily : i < (maskFamilies published.masks published.otherMasks).length :=
      hproducts.length_eq ▸ hproduct
    have hdot := hproducts.get hfamily hproduct
    have hmask := (hcanonical.family _ (List.getElem_mem hfamily)).2.2.2
    rw [List.get_eq_getElem, List.get_eq_getElem] at hdot
    rw [getElem_maskFamilies hcanonical hfamily] at hdot hmask
    have hblockAt : NativeRequest.blockAt blocks i = blocks[i] := List.getD_eq_getElem _ _ hblock
    have hproductAt : NativeRequest.blockAt products i = products[i] :=
      List.getD_eq_getElem _ _ hproduct
    rw [hblockAt, hproductAt]
    refine NativeRequest.decodeBlock_ok hlift h.small.lt hmask
      (hblocks _ (List.getElem_mem hblock)) ?_
    rwa [Option.isSome_map]

/-- **Plain decoding** of a response that is bound to the request. -/
theorem decode_eq (h : Prepared prim lib setup request published prepared)
    {products : List (Poly d)} (hproducts : List.Forall₂ (fun pair product =>
      IsDot q pair (request.secret.family published.otherMasks.isSome) product)
      (maskFamilies published.masks published.otherMasks) products)
    {o : Overflow} {response : List UInt8}
    (hbound : request.IsBound
      (fieldBytes request.profile.cols request.profile.responseBits) response)
    {words : List ℕ} (hwords : request.bodies o response = .ok words) :
    request.decode o lib published response =
      .ok (flatWords (List.zipWith (decodeRow P) products (chunksExact d words))) := by
  obtain ⟨hcols, hlt⟩ := h.bodies_spec hwords
  have hmasks := h.of.length_masks
  have hlen : (chunksExact d words).length = products.length := by
    rw [length_chunksExact, hcols, ← hproducts.length_eq, h.of.canonical.length_families, hmasks]
  have hcheck : ¬(published.setupId ≠ request.setupId ∨
      published.masks.length ≠ request.profile.cols / d ∨
      published.otherMasks.isSome ≠ request.profile.twoMask ∨
      (published.otherMasks.any fun x => x.length ≠ request.profile.cols / d) = true) := by
    rw [h.profile_eq, h.setupId_eq]
    rintro (hne | hne | hne | hne)
    · exact hne h.of.setupId
    · exact hne hmasks
    · exact hne h.of.isSome_others
    · cases hothers : published.otherMasks with
      | none =>
          rw [hothers] at hne
          cases hne
      | some os =>
          rw [hothers] at hne
          exact of_decide_eq_true hne ((h.of.canonical.length_eq os hothers).trans hmasks)
  have hrows := h.decodeBlocks_ok hproducts hlen (chunksExact_lt P.q_pos hlt)
  rw [NativeRequest.decode, NativeRequest.decodeInner]
  dsimp only
  rw [NativeRequest.checkBinding_eq o response hcheck h.bodies_fit, if_neg (not_not.mpr hbound),
    ok_bind, hwords, ok_bind]
  simp only [Option.map_none]
  rw [hrows, ok_bind]
  have hfst (rows : List (Poly d)) : (rows.map fun row => (row, 0)).map Prod.fst = rows := by
    rw [List.map_map]
    exact List.map_id rows
  exact congrArg (fun rows => Except.ok (flatWords rows)) (hfst _)

/-- A request with the state of its decoding. -/
def withDecoding (request : NativeRequest P)
    (decoding : Option (Digest × NativeDecodingState P)) : NativeRequest P :=
  { request with decoding }

/-- **`prepare_decode` succeeds** on the prepared masks of the setup. -/
theorem prepareDecode_ok (hslots : lib.BitReversed)
    (h : Prepared prim lib setup request published prepared) :
    ∃ request', request.prepareDecode prepared = .ok request' := by
  obtain ⟨products, hstate, -⟩ := h.prepareRequest_ok hslots
  obtain ⟨hid, hprofile, -⟩ := h.fields
  have hcheck : ¬(prepared.setupId ≠ request.setupId ∨ prepared.profile ≠ request.profile) := by
    rw [hid, hprofile, h.profile_eq, h.setupId_eq]
    rintro (hne | hne)
    · exact hne rfl
    · exact hne rfl
  rw [NativeRequest.prepareDecode, if_neg hcheck, hstate, ok_bind]
  exact ⟨_, rfl⟩

/-- A request on which `prepare_decode` was called or not. -/
theorem exists_decoding (h : Prepared prim lib setup request published prepared)
    {state : NativeDecodingState P}
    (hstate : prepared.decoder.prepareRequest request.secret = .ok state)
    {request' : NativeRequest P}
    (hrequest : request' = request ∨ request.prepareDecode prepared = .ok request') :
    ∃ decoding, request' = withDecoding request decoding ∧
      (decoding = none ∨ decoding = some (prepared.maskDigest, state)) := by
  rcases hrequest with rfl | hprepare
  · exact ⟨request'.decoding, rfl, Or.inl h.decoding_eq⟩
  · obtain ⟨-, hprepare⟩ := NativeProfile.guard_eq_ok hprepare
    rw [hstate, ok_bind] at hprepare
    exact ⟨_, (Except.ok.inj hprepare).symm, Or.inr rfl⟩

/-- Prepared decoding of a bound response decrypts its bodies on the products. -/
theorem decodePrepared_eq (h : Prepared prim lib setup request published prepared)
    {state : NativeDecodingState P}
    (hstate : prepared.decoder.prepareRequest request.secret = .ok state)
    {decoding : Option (Digest × NativeDecodingState P)}
    (hdecoding : decoding = none ∨ decoding = some (prepared.maskDigest, state))
    {o : Overflow} {response : List UInt8}
    (hbound : request.IsBound
      (fieldBytes request.profile.cols request.profile.responseBits) response) :
    (withDecoding request decoding).decodePrepared o prepared response =
      request.bodies o response >>= state.decrypt := by
  obtain ⟨hid, hprofile, -⟩ := h.fields
  have hcheck : ¬(prepared.setupId ≠ request.setupId ∨ prepared.profile ≠ request.profile) := by
    rw [hid, hprofile, h.profile_eq, h.setupId_eq]
    rintro (hne | hne)
    · exact hne rfl
    · exact hne rfl
  have hbinding : (withDecoding request decoding).checkBinding o
      (prepared.setupId ≠ request.setupId ∨ prepared.profile ≠ request.profile) response
      "prepared response/setup/request binding mismatch" = .ok () :=
    (NativeRequest.checkBinding_eq o response hcheck h.bodies_fit).trans
      (if_neg (not_not.mpr hbound))
  show ((withDecoding request decoding).checkBinding o
      (prepared.setupId ≠ request.setupId ∨ prepared.profile ≠ request.profile) response
      "prepared response/setup/request binding mismatch" >>= _) = _
  rw [hbinding, ok_bind]
  refine congrArg (request.bodies o response >>= ·) (funext fun words => ?_)
  rcases hdecoding with rfl | rfl
  · -- the products are computed now
    show prepared.decoder.decrypt request.secret words = state.decrypt words
    rw [NativeDecoder.decrypt, hstate, ok_bind]
  · -- they were computed by `prepare_decode`
    exact if_neg (not_not.mpr rfl)

/-- **Decrypting the bodies on the products** returns the rows of the products. -/
theorem decrypt_eq (h : Prepared prim lib setup request published prepared)
    {products : List (Poly d)} (hlen : products.length = setup.profile.cols / d)
    {o : Overflow} {response : List UInt8} {words : List ℕ}
    (hwords : request.bodies o response = .ok words) :
    (⟨flatWords products⟩ : NativeDecodingState P).decrypt words =
      .ok (flatWords (List.zipWith (decodeRow P) products (chunksExact d words))) := by
  obtain ⟨hcols, hlt⟩ := h.bodies_spec hwords
  have hdvd : d ∣ words.length := hcols ▸ h.valid.dvd_cols
  have hblocks : (chunksExact d words).length = products.length := by
    rw [length_chunksExact, hcols, hlen]
  have hrun := NativeDecodingState.decrypt_ok (P := P) hblocks (chunksExact_lt P.q_pos hlt)
  rwa [flatWords_chunksExact hdvd P.d_pos] at hrun

/-- The two decoders agree on every byte string. -/
theorem alike (o : Overflow) (hslots : lib.BitReversed)
    (h : Prepared prim lib setup request published prepared)
    {request' : NativeRequest P}
    (hrequest : request' = request ∨ request.prepareDecode prepared = .ok request')
    (response : List UInt8) :
    Alike (request'.decodePrepared o prepared response)
      (request.decode o lib published response) := by
  obtain ⟨products, hstate, hproducts⟩ := h.prepareRequest_ok hslots
  obtain ⟨decoding, rfl, hdecoding⟩ := h.exists_decoding hstate hrequest
  by_cases hbound : request.IsBound
      (fieldBytes request.profile.cols request.profile.responseBits) response
  · rw [h.decodePrepared_eq hstate hdecoding hbound]
    have hbits : 0 < request.profile.responseBits ∧ request.profile.responseBits ≤ 64 := by
      have hle : request.profile.responseBits ≤ P.qBits := by
        rw [h.profile_eq]
        exact h.valid.responseBits_le.trans (min_le_right _ _)
      have hq := P.qBits_le
      rw [h.profile_eq] at hle ⊢
      exact ⟨h.valid.responseBits_pos, by omega⟩
    rcases decode_ok_or_isErr o (response.drop 68) hbits.1 hbits.2 h.bodies_fit with
      ⟨fields, hfields⟩ | herr
    · have hwords : request.bodies o response =
          .ok (up fields q request.profile.responseBits) := by
        rw [NativeRequest.bodies, hfields]
        rfl
      have hlen : products.length = setup.profile.cols / d := by
        rw [← hproducts.length_eq, h.of.canonical.length_families, h.of.length_masks]
      refine Or.inl ⟨_, ?_, h.decode_eq hproducts hbound hwords⟩
      rw [hwords, ok_bind, h.decrypt_eq hlen hwords]
    · -- the payload is refused by both
      have hbodies : IsErr (request.bodies o response) := herr.bind _
      exact Or.inr ⟨hbodies.bind _, (NativeRequest.isErr_bodies o h.bodies_fit hbodies _).map _⟩
  · -- a response of another request is refused by both
    exact Or.inr ⟨(NativeRequest.isErr_checkBinding o h.bodies_fit hbound).bind _,
      ((NativeRequest.isErr_checkBinding o h.bodies_fit hbound).bind _).map _⟩

end Prepared

/-- **The masks of a setup can be prepared.** -/
theorem NativePublished.Of.prepare_ok (prim : Primitives) {lib : NumberTheory}
    {setup : NativePublicSetup P} {published : NativePublished P} (h : published.Of setup)
    (hprofile : setup.profile.Valid) {lift : LiftContext d q}
    (hlift : LiftContext.new lib d q = .ok lift) :
    ∃ prepared, published.prepare prim lib setup = .ok prepared := by
  have hne : published.masks ≠ [] := by
    apply List.ne_nil_of_length_pos
    rw [h.length_masks]
    exact Nat.div_pos (Nat.le_of_dvd hprofile.cols_pos hprofile.dvd_cols) P.d_pos
  obtain ⟨decoder, hdecoder⟩ :=
    NativeDecoder.new_ok hlift hne h.canonical hprofile.gaussian
  have hcheck : ¬(published.setupId ≠ setup.id ∨
      published.masks.length ≠ setup.profile.cols / d ∨
      published.otherMasks.isSome ≠ setup.profile.twoMask ∨
      published.maskBits ≠ setup.profile.publishedMaskBits) := by
    rintro (hne | hne | hne | hne)
    · exact hne h.setupId
    · exact hne h.length_masks
    · exact hne h.isSome_others
    · exact hne h.maskBits
  refine ⟨⟨published.setupId, setup.profile, decoder, prim.sha256 published.toBytes⟩, ?_⟩
  rw [prepare, if_neg hcheck, hdecoder, ok_bind]

/-- A generated request and the prepared masks of its setup. -/
theorem prepared_of_generate {prim : Primitives} {lib : NumberTheory} {gen : Generator R}
    (hgen : gen.Bounded q) {setup : NativePublicSetup P} (hvalid : setup.profile.Valid)
    {target : ℕ} {rng rng' : R} {request : NativeRequest P}
    (hrequest : NativeRequest.generateWithRng prim lib gen setup target rng = .ok (request, rng'))
    {published : NativePublished P} (hof : published.Of setup)
    {prepared : NativePreparedPublished P}
    (hprepared : published.prepare prim lib setup = .ok prepared) :
    Prepared prim lib setup request published prepared := by
  obtain ⟨-, parts, rng₁, hdraw, -, rfl⟩ := generate_spec hvalid hrequest
  exact
    { valid := hvalid
      small := yields_drawParts_small lib hgen hvalid target rng parts rng₁ hdraw
      profile_eq := rfl
      setupId_eq := rfl
      decoding_eq := rfl
      of := hof
      prepare_eq := hprepared }

/-- **The prepared decode equals the plain decode**: for every request of a setup, all published
masks of the setup and every response, whether `prepare_decode` was called on the prepared masks or
not, both return the same row or both return an error. -/
theorem decodePrepared_alike (o : Overflow) {prim : Primitives} {lib : NumberTheory}
    {gen : Generator R} (hgen : gen.Bounded q) (hslots : lib.BitReversed)
    {setup : NativePublicSetup P} (hprofile : setup.profile.Reachable) {target : ℕ} {rng rng' : R}
    {request : NativeRequest P}
    (hrequest : NativeRequest.generateWithRng prim lib gen setup target rng = .ok (request, rng'))
    {published : NativePublished P}
    (hpublished : (∃ masks others, NativePublished.fromMasks setup masks others = .ok published) ∨
      ∃ bytes, NativePublished.fromBytes o setup bytes = .ok published)
    {prepared : NativePreparedPublished P}
    (hprepared : published.prepare prim lib setup = .ok prepared) {request' : NativeRequest P}
    (hdecoding : request' = request ∨ request.prepareDecode prepared = .ok request')
    (response : List UInt8) :
    Alike (request'.decodePrepared o prepared response)
      (request.decode o lib published response) := by
  have hof : published.Of setup := by
    rcases hpublished with ⟨masks, others, hmasks⟩ | ⟨bytes, hbytes⟩
    · exact NativePublished.of_fromMasks hprofile.valid hmasks
    · exact NativePublished.of_fromBytes hprofile.valid hbytes
  exact (prepared_of_generate hgen hprofile.valid hrequest hof hprepared).alike o hslots
    hdecoding response

theorem bitReversed_native : nativeNumberTheory.BitReversed := by
  intro d p S hS
  have hS' : smallNumberTheory.init d p = some S := hS
  unfold smallNumberTheory at hS'
  dsimp only at hS'
  split at hS'
  · obtain rfl := Option.some.inj hS'
    intro s
    fin_cases s <;> rfl
  · obtain rfl := Option.some.inj hS'
    intro s
    fin_cases s <;> rfl
  · obtain rfl := Option.some.inj hS'
    intro s
    fin_cases s <;> rfl
  · cases hS'

/-- A request of the dithered two-mask profile, on masks of the evaluator. -/
theorem decodePrepared_alike_small : ∃ request rng' published prepared request',
    NativeRequest.generateWithRng smallPrimitives nativeNumberTheory counterGenerator ditherSetup 1
      0 = .ok (request, rng') ∧
    NativePublished.fromMasks ditherSetup [fun i => i, fun _ => 5]
      (some [fun _ => 7, fun i => 2 ^ 53 + i]) = .ok published ∧
    published.prepare smallPrimitives nativeNumberTheory ditherSetup = .ok prepared ∧
    request.prepareDecode prepared = .ok request' ∧
    ∀ o response, Alike (request.decodePrepared o prepared response)
        (request.decode o nativeNumberTheory published response) ∧
      Alike (request'.decodePrepared o prepared response)
        (request.decode o nativeNumberTheory published response) := by
  have hvalid := ditherProfile_reachable.valid
  obtain ⟨lift, hlift⟩ := liftContext_new_dither
  obtain ⟨request, rng', hrequest⟩ := returns_generate smallPrimitives
    counterGenerator_bounded hvalid hlift (show 1 < ditherSetup.profile.rows by decide) 0
  obtain ⟨published, hpublished⟩ : ∃ published, NativePublished.fromMasks ditherSetup
      [fun i => i, fun _ => 5] (some [fun _ => 7, fun i => 2 ^ 53 + i]) = .ok published :=
    ⟨_, rfl⟩
  have hof := NativePublished.of_fromMasks hvalid hpublished
  obtain ⟨prepared, hprepared⟩ := hof.prepare_ok smallPrimitives hvalid hlift
  obtain ⟨request', hrequest'⟩ := (prepared_of_generate counterGenerator_bounded hvalid hrequest hof
    hprepared).prepareDecode_ok bitReversed_native
  refine ⟨request, rng', published, prepared, request', hrequest, hpublished, hprepared, hrequest',
    fun o response => ⟨?_, ?_⟩⟩
  · exact decodePrepared_alike o counterGenerator_bounded bitReversed_native ditherProfile_reachable
      hrequest (Or.inl ⟨_, _, hpublished⟩) hprepared (Or.inl rfl) response
  · exact decodePrepared_alike o counterGenerator_bounded bitReversed_native ditherProfile_reachable
      hrequest (Or.inl ⟨_, _, hpublished⟩) hprepared (Or.inr hrequest') response

end NativeClient
