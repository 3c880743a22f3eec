import IpirSp.NativeClient.Profile
import IpirSp.NativeClient.Wire
import IpirSp.Reinspiring.NativeDecoder

/-!
# Requests of the native client

A public setup is expanded from a seed and a snapshot identifier.  A request samples a secret, the
packing keys and an encrypted selection, in this order from one generator, and encodes the keys and
the selection after the magic and the identifier of the setup.  `RequestParts` are the values that
`generate_with_rng` computes on the way, and `generate_spec` says what they satisfy.
-/

namespace NativeClient

open Reinspiring SpiralRs Codec Loops

variable {d q : ℕ} {P : NativeParams d q} {R : Type}

/-- `request_magic`. -/
def NativeProfile.requestMagic (profile : NativeProfile P) : List UInt8 :=
  if profile.twoMask then asciiBytes "RNQ3"
  else if profile.khBits = trailingZeros q then asciiBytes "RNQ1"
  else asciiBytes "RNQ2"

/-- `NativePublicSetup`. -/
structure NativePublicSetup (P : NativeParams d q) where
  profile : NativeProfile P
  id : Digest
  polys : List (Poly d)
  packing : NativeSetup P
  length_polys : polys.length = profile.rows / d
  polys_lt : ∀ a ∈ polys, ∀ i, a i < q

/-- What the identifier of a setup is the hash of. -/
def setupBytes (profile : NativeProfile P) (seed snapshot : Digest) : List UInt8 :=
  asciiBytes "ipir-sp/native/v1/setup" ++ P.encoding ++
    (if profile.requestMagic = asciiBytes "RNQ2" then
      asciiBytes "/kh-transport-v2/" ++ leBytes 8 profile.khBits else []) ++
    (if profile.twoMask then asciiBytes "/two-mask-one-key-v1/" else []) ++
    (if profile.publishedMaskBits ≠ 64 then
      asciiBytes "/rounded-public-masks-v1/" ++ leBytes 8 profile.publishedMaskBits else []) ++
    (if profile.ditheredQuery then asciiBytes "/dithered-query-v1/" else []) ++
    [profile.rows, profile.cols, profile.queryBits, profile.responseBits].flatMap (leBytes 8) ++
    List.ofFn seed ++ List.ofFn snapshot

/-- `NativePublicSetup::new`. -/
def NativePublicSetup.new (prim : Primitives) (profile : NativeProfile P)
    (seed snapshot : Digest) : NativePublicSetup P :=
  let id := prim.sha256 (setupBytes profile seed snapshot)
  { profile
    id
    polys := (List.range (profile.rows / d)).map fun block i =>
      prim.nextU64 id (block * d + i) &&& (q - 1)
    packing := NativeSetup.new prim P id
    length_polys := by rw [List.length_map, List.length_range]
    polys_lt := by
      intro a ha i
      obtain ⟨block, -, rfl⟩ := List.mem_map.mp ha
      exact MachineWord.mask_lt P.isPowerOfTwo _ }

/-- `NativeRequest`. -/
structure NativeRequest (P : NativeParams d q) where
  secret : NativeSecret P
  profile : NativeProfile P
  setupId : Digest
  queryId : Digest
  bytes : List UInt8
  decoding : Option (Digest × NativeDecodingState P)

/-- The encoded keys of a request. -/
def keyBytes (profile : NativeProfile P) (keys : NativeKeys d) : List UInt8 :=
  let words := keys.words
  let half := P.ell * d
  if profile.twoMask then encode keys.kgWords (trailingZeros q)
  else if profile.requestMagic = asciiBytes "RNQ1" then encode words profile.khBits
  else encode (words.take half) (trailingZeros q) ++
    encode (down (words.drop half) q profile.khBits) profile.khBits

/-- The selection at the width of the query. -/
def roundQuery (gen : Generator R) (profile : NativeProfile P) (query : List ℕ) (rng : R) :
    List ℕ × R :=
  if profile.ditheredQuery then downDithered gen q profile.queryBits query rng
  else (down query q profile.queryBits, rng)

/-- What `generate_with_rng` computes before it encodes. -/
structure RequestParts (P : NativeParams d q) where
  secret : NativeSecret P
  keys : NativeKeys d
  query : List ℕ

/-- The sampling of `generate_with_rng`. -/
def drawParts (lib : NumberTheory) (gen : Generator R) (setup : NativePublicSetup P)
    (target : ℕ) : Drawn R (RequestParts P) := do
  let secret ← NativeSecret.sample gen P
  let keys ← (if setup.profile.twoMask then NativeKeys.generateOneKey lib gen setup.packing secret
    else NativeKeys.generate lib gen setup.packing secret)
  let query ← secret.encryptSelection lib gen setup.polys target
  pure ⟨secret, keys, flatWords query⟩

/-- The request that `generate_with_rng` encodes. -/
def encodeRequest (prim : Primitives) (setup : NativePublicSetup P) (parts : RequestParts P)
    (query : List ℕ) : NativeRequest P :=
  let bytes := setup.profile.requestMagic ++ List.ofFn setup.id ++
    keyBytes setup.profile parts.keys ++ encode query setup.profile.queryBits
  { secret := parts.secret
    profile := setup.profile
    setupId := setup.id
    queryId := prim.sha256 bytes
    bytes
    decoding := none }

/-- `generate_with_rng`. -/
def NativeRequest.generateWithRng (prim : Primitives) (lib : NumberTheory) (gen : Generator R)
    (setup : NativePublicSetup P) (target : ℕ) : Drawn R (NativeRequest P) :=
  if target ≥ setup.profile.rows then stateless (invalidParams "target out of range")
  else do
    let parts ← drawParts lib gen setup target
    let query ← (fun rng => .ok (roundQuery gen setup.profile parts.query rng) : Drawn R (List ℕ))
    pure (encodeRequest prim setup parts query)

/-! ## What is generated -/

/-- The keys and the selection of a request fit its setup. -/
structure RequestParts.Fits (parts : RequestParts P) (setup : NativePublicSetup P) : Prop where
  id_eq : parts.keys.id = setup.packing.id
  length_kg : parts.keys.kg.length = P.ell
  length_kh : parts.keys.kh.length = if setup.profile.twoMask then 0 else P.ell
  canonical : parts.keys.Canonical q
  length_query : parts.query.length = setup.profile.rows
  query_lt : ∀ x ∈ parts.query, x < q

theorem yields_drawParts (lib : NumberTheory) (gen : Generator R) {setup : NativePublicSetup P}
    (hprofile : setup.profile.Valid) (target : ℕ) :
    Yields (drawParts lib gen setup target) (·.Fits setup) := by
  refine Yields.bind (fun _ _ _ _ => trivial) fun secret _ => ?_
  have hkeys : Yields (if setup.profile.twoMask then
      NativeKeys.generateOneKey lib gen setup.packing secret
      else NativeKeys.generate lib gen setup.packing secret) fun keys =>
        keys.id = setup.packing.id ∧ keys.kg.length = P.ell ∧
          keys.kh.length = (if setup.profile.twoMask then 0 else P.ell) ∧ keys.Canonical q := by
    cases setup.profile.twoMask with
    | true => exact NativeKeys.yields_generateInternal lib gen setup.packing secret true
    | false => exact NativeKeys.yields_generateInternal lib gen setup.packing secret false
  refine hkeys.bind fun keys hkeys => ?_
  refine (secret.yields_encryptSelection lib gen setup.polys target).bind fun query hquery => ?_
  obtain ⟨hid, hkg, hkh, hcanonical⟩ := hkeys
  obtain ⟨hlen, hlt⟩ := hquery
  refine Yields.pure ⟨hid, hkg, hkh, hcanonical, ?_, fun x hx => lt_of_mem_flatWords hlt hx⟩
  rw [length_flatWords, hlen, setup.length_polys, Nat.div_mul_cancel hprofile.dvd_rows]

/-- The secret of a request is within the support of the sampler. -/
theorem yields_drawParts_small (lib : NumberTheory) {gen : Generator R} (hgen : gen.Bounded q)
    {setup : NativePublicSetup P} (hprofile : setup.profile.Valid) (target : ℕ) :
    Yields (drawParts lib gen setup target) fun parts => parts.secret.Small := by
  refine (NativeSecret.yields_sample hgen hprofile.gaussian).bind fun secret hsecret => ?_
  refine Yields.bind (fun _ _ _ _ => trivial) fun keys _ => ?_
  refine Yields.bind (fun _ _ _ _ => trivial) fun query _ => ?_
  exact Yields.pure ⟨fun i => (hsecret i).1, fun i => (hsecret i).2⟩

/-- **A generated request** encodes parts that fit the setup. -/
theorem generate_spec {prim : Primitives} {lib : NumberTheory} {gen : Generator R}
    {setup : NativePublicSetup P} (hprofile : setup.profile.Valid) {target : ℕ} {rng rng' : R}
    {request : NativeRequest P}
    (h : NativeRequest.generateWithRng prim lib gen setup target rng = .ok (request, rng')) :
    target < setup.profile.rows ∧ ∃ parts rng₁, drawParts lib gen setup target rng =
      .ok (parts, rng₁) ∧ parts.Fits setup ∧
      request = encodeRequest prim setup parts
        (roundQuery gen setup.profile parts.query rng₁).1 := by
  rw [NativeRequest.generateWithRng] at h
  split at h
  · cases h
  rename_i htarget
  obtain ⟨parts, rng₁, hparts, h⟩ := run_bind_eq_ok h
  obtain ⟨query, rng₂, hquery, h⟩ := run_bind_eq_ok h
  cases h
  refine ⟨not_le.mp htarget, parts, rng₁, hparts, ?_, ?_⟩
  · exact yields_drawParts lib gen hprofile target rng parts rng₁ hparts
  · rw [Except.ok.inj hquery]

/-- **A request can be generated** for every row, if the library has the auxiliary transforms. -/
theorem returns_generate (prim : Primitives) {lib : NumberTheory} {gen : Generator R}
    (hgen : gen.Bounded q) {setup : NativePublicSetup P} (hprofile : setup.profile.Valid)
    {lift : LiftContext d q} (hlift : LiftContext.new lib d q = .ok lift) {target : ℕ}
    (htarget : target < setup.profile.rows) :
    Returns (NativeRequest.generateWithRng prim lib gen setup target) := by
  have hrows : setup.polys.length * d = setup.profile.rows := by
    rw [setup.length_polys, Nat.div_mul_cancel hprofile.dvd_rows]
  have hword : setup.profile.rows < MachineWord.W64 := by
    have hle : setup.profile.rows ≤ 2 ^ 31 :=
      (Nat.le_mul_of_pos_right _ hprofile.cols_pos).trans hprofile.size_le
    exact hle.trans_lt (by decide)
  rw [NativeRequest.generateWithRng, if_neg (not_le.mpr htarget)]
  have hparts : Returns (drawParts lib gen setup target) := by
    refine (NativeSecret.returns_sample gen P).bind
      (NativeSecret.yields_sample hgen hprofile.gaussian) fun secret hsecret => ?_
    have hlt (i : Fin d) := (hsecret i).1
    have hkeys : Returns (if setup.profile.twoMask then
        NativeKeys.generateOneKey lib gen setup.packing secret
        else NativeKeys.generate lib gen setup.packing secret) := by
      cases setup.profile.twoMask with
      | true => exact NativeKeys.returns_generateInternal gen setup.packing hlt hlift true
      | false => exact NativeKeys.returns_generateInternal gen setup.packing hlt hlift false
    refine hkeys.bind (fun _ _ _ _ => trivial) fun keys _ => ?_
    refine (NativeSecret.returns_encryptSelection gen hlt hlift setup.polys_lt
      (hrows ▸ htarget) (hrows ▸ hword)).bind (fun _ _ _ _ => trivial) fun query _ => ?_
    exact returns_pure _
  refine hparts.bind (fun _ _ _ _ => trivial) fun parts _ => ?_
  refine Returns.bind (fun rng => ⟨_, _, rfl⟩) (fun _ _ _ _ => trivial) fun query _ => ?_
  exact returns_pure _

/-! ## A small instance -/

/-- A profile of degree four modulo `2^54`, with two digits of nineteen bits. -/
def ditherParams : NativeParams 4 (2 ^ 54) where
  qBits := 54
  pBits := 8
  bits := 19
  ell := 2
  dropped := 16
  sampler := .gaussian
  q_eq := rfl
  two_le_d := Inspiring.smallParams.two_le_d
  d_le := four_le_maxDegree
  d_eq := isPowerOfTwo_four
  qBits_ge := by decide
  qBits_le := by decide
  pBits_pos := by decide
  pBits_lt := by decide
  bits_pos := by decide
  bits_le := by decide
  ell_pos := Nat.two_pos
  ell_le := two_le_eight
  dropped_eq := rfl
  dropped_le := by decide

/-- Two masks, a dithered query of 28 bits and rounded masks, for a database of four by eight. -/
def ditherProfile : NativeProfile ditherParams where
  rows := 4
  cols := 8
  queryBits := 28
  responseBits := 14
  khBits := 54
  twoMask := true
  publishedMaskBits := 22
  ditheredQuery := true

/-- The dithered profile before its masks are rounded and its query is dithered. -/
def ditherProfileAt (queryBits publishedMaskBits : ℕ) (twoMask : Bool) :
    NativeProfile ditherParams :=
  { ditherProfile with queryBits, publishedMaskBits, twoMask, ditheredQuery := false }

theorem ditherProfile_reachable : ditherProfile.Reachable := by
  have hnew : NativeProfile.new ditherParams 4 8 = .ok (ditherProfileAt 49 64 false) := by decide
  have htwo : (ditherProfileAt 49 64 false).withTwoMaskOutput =
      .ok (ditherProfileAt 49 64 true) := by decide
  have hmask : (ditherProfileAt 49 64 true).withPublishedMaskBits 22 =
      .ok (ditherProfileAt 49 22 true) := by decide
  have hquery : (ditherProfileAt 49 22 true).withDitheredQueryBits 28 = .ok ditherProfile := by
    decide
  exact (((NativeProfile.Reachable.new hnew).withTwoMaskOutput htwo).withPublishedMaskBits
    hmask).withDitheredQueryBits hquery

/-- A counter as a generator. -/
def counterGenerator : Generator ℕ where
  nextU64 n := (48271 * (n + 1) % 2 ^ 64, n + 1)
  nextU32 n := (n % 2 ^ 31, n + 1)
  gaussian _ n := (n % 3, n + 1)
  exists_nextU32 n := ⟨0, by
    have hlt := Nat.mod_lt n (show 0 < 2 ^ 31 by decide)
    exact hlt.trans (by decide)⟩

theorem counterGenerator_bounded : counterGenerator.Bounded (2 ^ 54) := by
  have hlt (n : ℕ) : n % 3 < 3 := Nat.mod_lt n (by decide)
  refine ⟨fun n => (hlt n).trans (by decide), fun n => ?_⟩
  have hsmall : ¬(n % 3 > 2 ^ 54 / 2) := by
    have := hlt n
    omega
  show (centered (n % 3) (2 ^ 54)).natAbs ≤ 65
  rw [centered, if_neg hsmall, Int.natAbs_natCast]
  have := hlt n
  omega

theorem liftContext_new_dither :
    ∃ lift, LiftContext.new nativeNumberTheory 4 (2 ^ 54) = .ok lift :=
  ⟨_, rfl⟩

/-- A setup of the dithered profile. -/
def ditherSetup : NativePublicSetup ditherParams :=
  NativePublicSetup.new smallPrimitives ditherProfile (fun _ => 1) fun _ => 2

end NativeClient
