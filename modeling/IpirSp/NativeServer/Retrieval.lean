import IpirSp.NativeClient.PublishedCodec
import IpirSp.NativeServer.Published
import IpirSp.Reinspiring.NativeSelection
import Mathlib.Data.Bool.AllAny

/-!
# A native retrieval

A client asks for a row, a server answers with packed bodies and the client decodes them with the
published masks.  `Transcript` is what is exchanged and kept on the way, with the errors that the
request drew, and `Transcript.Runs` that every step of it returned.

`native_retrieval` is the correctness of the protocol for every profile, whatever its key mode, its
masks and its widths.  The noise of a column is written down exactly: the errors of the selection,
what its transport adds, what the transport of the second key adds, what packing adds, and what the
rounding of the masks and of the bodies adds.
-/

namespace NativeServer

open Reinspiring Negacyclic SpiralRs Inspiring Codec Loops MachineWord NativeClient Matrix

variable {d q : ℕ} {P : NativeParams d q} {R : Type} {lib : NumberTheory} {gen : Generator R}
  {S : NativeServer P} {values : List ℕ} {setup : NativePublicSetup P}

/-! ## The client -/

section Client

/-- The errors that a request drew: those of its keys and of its selection. -/
structure DrewErrors (setup : NativePublicSetup P) (target : ℕ) (parts : RequestParts P)
    (eg eh errors : List (Poly d)) : Prop where
  secret : parts.secret.Small
  keys : parts.keys.IsFor setup.packing parts.secret.coeffs eg eh setup.profile.twoMask
  selection : IsSelection P parts.secret.coeffs setup.polys target (flatWords errors) parts.query
  small : ∀ a ∈ eg ++ eh ++ errors, SmallPoly q gaussianMaxVal a

/-- **The errors of a request** are within the support of the sampler. -/
theorem yields_drawParts_errors (lib : NumberTheory) (hgen : gen.Bounded q)
    (hvalid : setup.profile.Valid) (target : ℕ) :
    Yields (drawParts lib gen setup target) fun parts =>
      ∃ eg eh errors, DrewErrors setup target parts eg eh errors := by
  refine (NativeSecret.yields_sample hgen hvalid.gaussian).bind fun secret hsecret => ?_
  have hlt (i : Fin d) : secret.coeffs i < q := (hsecret i).1
  have hkeys : Yields (if setup.profile.twoMask then
      NativeKeys.generateOneKey lib gen setup.packing secret
      else NativeKeys.generate lib gen setup.packing secret) fun keys => ∃ eg eh,
        keys.IsFor setup.packing secret.coeffs eg eh setup.profile.twoMask ∧
          ∀ a ∈ eg ++ eh, SmallPoly q gaussianMaxVal a := by
    cases setup.profile.twoMask with
    | true => exact yields_generateInternal_isFor hgen hlt true
    | false => exact yields_generateInternal_isFor hgen hlt false
  refine hkeys.bind fun keys hkeys => ?_
  refine (yields_encryptSelection_isSelection hgen hlt setup.polys target).bind fun blocks h => ?_
  obtain ⟨eg, eh, hfor, hsmall⟩ := hkeys
  obtain ⟨errors, hsmall', -, hselection⟩ := h
  refine Yields.pure ⟨eg, eh, errors, ⟨hlt, fun i => (hsecret i).2⟩, hfor, hselection,
    fun a ha => ?_⟩
  exact (List.mem_append.mp ha).elim (hsmall a) (hsmall' a)

/-- **A client decodes** an answer to its request, with prepared masks or without, to the phases of
its bodies. -/
theorem exists_decoded [NeZero d] {prim : Primitives} {request : NativeRequest P}
    {published : NativePublished P} {prepared : NativePreparedPublished P}
    (h : Prepared prim lib setup request published prepared) (hslots : lib.BitReversed)
    (o : Overflow) (hquery : request.queryId = prim.sha256 request.bytes) {bodies : List (Poly d)}
    (hlen : bodies.length = setup.profile.cols / d) (hlt : ∀ a ∈ bodies, ∀ i, a i < q) :
    ∃ decoded request', request.prepareDecode prepared = .ok request' ∧
      request.decode o lib published (answer prim setup request.bytes (flatWords bodies)) =
        .ok decoded ∧
      (∀ asked, asked = request ∨ asked = request' → asked.decodePrepared o prepared
        (answer prim setup request.bytes (flatWords bodies)) = .ok decoded) ∧
      decoded.length = setup.profile.cols ∧
      ∀ (block : ℕ) (pair : List (Poly d)),
        (maskFamilies published.masks published.otherMasks)[block]? = some pair → ∀ i : Fin d,
        ∃ phase < q, (phase : ZMod q) =
            coeff (dot q pair (request.secret.family setup.profile.twoMask)) i +
              (up (down (flatWords bodies) q setup.profile.responseBits) q
                setup.profile.responseBits).getD (block * d + i) 0 ∧
          decoded.getD (block * d + i) 0 = P.decodeWord phase := by
  obtain ⟨products, hstate, hproducts⟩ := h.prepareRequest_ok hslots
  obtain ⟨request', hrequest'⟩ := h.prepareDecode_ok hslots
  have hcols : (flatWords bodies).length = setup.profile.cols := by
    rw [length_flatWords, hlen, Nat.div_mul_cancel h.valid.dvd_cols]
  obtain ⟨hbound, hwords⟩ := answer_spec o prim h.valid h.profile_eq h.setupId_eq hquery hcols
    fun x hx => lt_of_mem_flatWords hlt hx
  have hdecode := h.decode_eq (o := o) hproducts hbound hwords
  obtain ⟨hwordsLen, -⟩ := h.bodies_spec hwords
  have hcount : products.length = setup.profile.cols / d := by
    rw [← hproducts.length_eq, h.of.canonical.length_families, h.of.length_masks]
  have hrows : (List.zipWith (decodeRow P) products (chunksExact d
      (up (down (flatWords bodies) q setup.profile.responseBits) q
        setup.profile.responseBits))).length = setup.profile.cols / d := by
    rw [List.length_zipWith, length_chunksExact, hwordsLen, hcount, min_self]
  refine ⟨_, request', hrequest', hdecode, ?_, ?_, fun block pair hpair i => ?_⟩
  · rintro asked (rfl | rfl)
    · exact (h.alike o hslots (Or.inl rfl) _).eq_ok hdecode
    · exact (h.alike o hslots (Or.inr hrequest') _).eq_ok hdecode
  · rw [length_flatWords, hrows, Nat.div_mul_cancel h.valid.dvd_cols]
  · obtain ⟨hblock, rfl⟩ := List.getElem?_eq_some_iff.mp hpair
    have hproduct : block < products.length := hproducts.length_eq ▸ hblock
    have hdot := hproducts.get hblock hproduct
    rw [List.get_eq_getElem, List.get_eq_getElem, h.of.isSome_others] at hdot
    rw [getD_flatWords (by rwa [hrows, ← hcount]), List.getElem_zipWith, getElem_chunksExact]
    refine ⟨_, mask_lt P.isPowerOfTwo _, ?_, rfl⟩
    rw [cast_mask P.isPowerOfTwo, Nat.cast_add, ← Poly.coeff_ring, hdot.ring]

end Client

/-! ## Transcripts -/

/-- What a retrieval leaves on both sides, and the errors that its request drew. -/
structure Transcript (setup : NativePublicSetup P) where
  parts : RequestParts P
  eg : List (Poly d)
  eh : List (Poly d)
  errors : List (Poly d)
  request : NativeRequest P
  keys : NativeKeys d
  query : List ℕ
  products : List ℕ
  blocks : Fin (setup.profile.cols / d) → NativePreprocessed P
  hints : Fin (setup.profile.cols / d) → Fin d → Poly d
  traces : Fin (setup.profile.cols / d) → NativeTrace d q
  bodies : Fin (setup.profile.cols / d) → Poly d
  response : List UInt8
  published : NativePublished P
  decoded : List ℕ

namespace Transcript

/-- **Every step of a retrieval returned.** -/
structure Runs (t : Transcript setup) (prim : Primitives) (lib : NumberTheory) (gen : Generator R)
    (S : NativeServer P) (values : List ℕ) (host : Host) (client server lanes : Overflow)
    (target : ℕ) (rng : R) : Prop where
  draw : ∃ drawn, drawParts lib gen setup target rng = .ok (t.parts, drawn)
  errors : DrewErrors setup target t.parts t.eg t.eh t.errors
  generate : ∃ rng', NativeRequest.generateWithRng prim lib gen setup target rng =
    .ok (t.request, rng')
  parse : parseRequest server setup t.request.bytes = .ok (t.keys, t.query)
  scan : NativeServer.scan host lanes S (PreparedU16Query.ofWords host t.query q) = .ok t.products
  blocks : S.pre = List.ofFn t.blocks
  hints : ∀ (block : Fin (setup.profile.cols / d)) (j : Fin d),
    IsHint setup values (block * d + j) (t.hints block j)
  traces : ∀ block, traceMasks lib setup.packing (List.ofFn (t.hints block))
    setup.profile.twoMask = .ok (t.traces block)
  pack : ∃ prepared, (∀ first ∈ S.pre.head?, first.prepareKeys t.keys = .ok prepared) ∧
    ∀ block, packBody setup.profile.twoMask prepared (t.blocks block)
      (fun i => t.products.getD (block * d + i) 0) = .ok (t.bodies block)
  respond : NativeServer.respond prim host server lanes S t.request.bytes = .ok t.response
  publish : NativeServer.published S = .ok t.published
  transport : NativePublished.fromBytes client setup t.published.toBytes = .ok t.published
  decode : t.request.decode client lib t.published t.response = .ok t.decoded
  decode_prepared : ∃ prepared request', t.published.prepare prim lib setup = .ok prepared ∧
    t.request.prepareDecode prepared = .ok request' ∧
    t.request.decodePrepared client prepared t.response = .ok t.decoded ∧
    request'.decodePrepared client prepared t.response = .ok t.decoded

section Noise

variable (t : Transcript setup) (values : List ℕ)

/-- The errors of the selection on a column. -/
def queryError (col : ℕ) : ZMod q := ∑ row ∈ Finset.range setup.profile.rows,
  (entryAt values setup.profile.rows col row : ZMod q) * (flatWords t.errors).getD row 0

/-- What the transport of the selection adds on a column. -/
def queryRounding (col : ℕ) : ZMod q := ∑ row ∈ Finset.range setup.profile.rows,
  (entryAt values setup.profile.rows col row : ZMod q) *
    ((t.query.getD row 0 : ZMod q) - t.parts.query.getD row 0)

/-- What the transport of the second key adds. -/
noncomputable def keyRounding (block : Fin (setup.profile.cols / d)) (i : Fin d) : ZMod q :=
  have : NeZero d := ⟨P.d_pos.ne'⟩
  coeff ((t.traces block).lastError t.keys.kh - (t.traces block).lastError t.parts.keys.kh) i

/-- What packing adds with the keys that were drawn. -/
noncomputable def packing (block : Fin (setup.profile.cols / d)) (i : Fin d) : ZMod q :=
  have : NeZero d := ⟨P.d_pos.ne'⟩
  coeff (packError (t.blocks block) (t.traces block) (t.hints block) t.parts.secret.coeffs t.eg
    t.eh) i

/-- What the rounding of the published masks adds. -/
noncomputable def maskRounding (block : Fin (setup.profile.cols / d)) (i : Fin d) : ZMod q :=
  have : NeZero d := ⟨P.d_pos.ne'⟩
  let secret := t.parts.secret.family setup.profile.twoMask
  coeff (dot q (roundMasks setup.profile (t.blocks block).family) secret -
    dot q (t.blocks block).family secret) i

/-- The bodies as the client reads them. -/
def received : List ℕ := up (down (flatWords (List.ofFn t.bodies)) q setup.profile.responseBits) q
  setup.profile.responseBits

/-- What the rounding of a body adds. -/
def responseRounding (block : Fin (setup.profile.cols / d)) (i : Fin d) : ZMod q :=
  (t.received.getD (block * d + i) 0 : ZMod q) - t.bodies block i

/-- The noise of a column. -/
noncomputable def noise (block : Fin (setup.profile.cols / d)) (i : Fin d) : ZMod q :=
  t.queryError values (block * d + i) + t.queryRounding values (block * d + i) +
    t.keyRounding block i + t.packing block i + t.maskRounding block i + t.responseRounding block i

end Noise

end Transcript

/-! ## Steps -/

section Steps

/-- **A block is built** from a trace of its hints. -/
theorem Serves.exists_trace [NeZero d] (h : Serves lib S values) (hinv : lib.InvertsOdd d)
    {block : ℕ} (hblock : block < S.pre.length) :
    ∃ (hints : Fin d → Poly d) (trace : NativeTrace d q) (left right : List (TraceStep d)),
      (∀ j : Fin d, IsHint S.setup values (block * d + j) (hints j)) ∧
      traceMasks lib S.setup.packing (List.ofFn hints) S.setup.profile.twoMask = .ok trace ∧
      IsTrace S.setup.packing hints S.setup.profile.twoMask left right trace ∧
      IsBuiltFrom S.setup.packing trace S.pre[block] := by
  obtain ⟨hints, supportsPacked, hhints, hbuild⟩ := h.block block hblock
  obtain ⟨trace, left, right, hrun, htrace, hfrom⟩ := exists_builtTrace hinv hbuild
  exact ⟨hints, trace, left, right, hhints, hrun, htrace, hfrom⟩

/-- **What a block makes** of its products. -/
theorem Serves.exists_body [NeZero d] (h : Serves lib S values) (hvalid : S.setup.profile.Valid)
    {secret : NativeSecret P} (hsecret : ∀ i, secret.coeffs i < q) {eg eh : List (Poly d)}
    {keys : NativeKeys d}
    (hkeys : keys.IsFor S.setup.packing secret.coeffs eg eh S.setup.profile.twoMask)
    {prepared : PreparedNativeKeys d q} (hprepared : ∀ first ∈ S.pre.head?,
      first.prepareKeys (receivedKeys S.setup.profile keys) = .ok prepared)
    {B : NativePreprocessed P} (hB : B ∈ S.pre) {hints : Fin d → Poly d} {trace : NativeTrace d q}
    {left right : List (TraceStep d)}
    (htrace : IsTrace S.setup.packing hints S.setup.profile.twoMask left right trace)
    (hfrom : IsBuiltFrom S.setup.packing trace B) {b : Poly d} (hb : ∀ i, b i < q) :
    ∃ body : Poly d, packBody S.setup.profile.twoMask prepared B b = .ok body ∧
      (∀ i, body i < q) ∧
      dot q B.family (secret.family S.setup.profile.twoMask) + Poly.ring q body =
        Poly.ring q b + innerProducts q hints secret.coeffs +
          packError B trace hints secret.coeffs eg eh +
          (trace.lastError (receivedKeys S.setup.profile keys).kh - trace.lastError keys.kh) := by
  obtain ⟨hBuilt, hmode⟩ := h.builtFor hB
  have hreceived := receivedKeys_isFor hvalid hkeys
  obtain ⟨body, hbody, hlt, hring⟩ := packDirect_ok hBuilt htrace hfrom hsecret hreceived hb
  obtain ⟨first, hfirst⟩ : ∃ first, S.pre.head? = some first := by
    cases hpre : S.pre with
    | nil =>
        rw [hpre] at hB
        exact absurd hB List.not_mem_nil
    | cons first _ => exact ⟨first, rfl⟩
  obtain ⟨hfirstB, hfirstMode⟩ := h.builtFor (List.mem_of_head? hfirst)
  have hlen (hone : S.setup.profile.twoMask = false) : eh.length = P.ell ∧
      keys.kh.length = P.ell ∧ (receivedKeys S.setup.profile keys).kh.length = P.ell := by
    have hkh := hkeys.fits.2.2
    rw [hone, if_neg Bool.false_ne_true] at hkh
    exact ⟨hkeys.length_eh hone, hkh, (length_kh_receivedKeys _ _).trans hkh⟩
  refine ⟨body, packBody_eq hfirstB hBuilt (hfirstMode.trans hmode.symm) hreceived.canonical
    (hprepared first hfirst) hbody, hlt, ?_⟩
  rw [hring, packError, packError, lastError_receivedErrors htrace hkeys.canonical.kh_lt hlen]
  ring

/-- **The product of a column** with the received selection. -/
theorem Transcript.cast_columnProduct (t : Transcript setup) (hvalid : setup.profile.Valid)
    {target : ℕ} (htarget : target < setup.profile.rows)
    (hselection : IsSelection P t.parts.secret.coeffs setup.polys target (flatWords t.errors)
      t.parts.query) (hlen : t.query.length = setup.profile.rows) {col : ℕ} {hint : Poly d}
    (hhint : IsHint setup values col hint) :
    ((columnProduct q (entryAt values setup.profile.rows col) t.query : ℕ) : ZMod q) =
      P.delta * entryAt values setup.profile.rows col target + t.queryError values col +
        t.queryRounding values col - ∑ j, (hint j : ZMod q) * t.parts.secret.coeffs j := by
  have hrows : setup.polys.length * d = setup.profile.rows := by
    rw [setup.length_polys, Nat.div_mul_cancel hvalid.dvd_rows]
  have hsum := hselection.sum_column (hrows ▸ htarget) (entryAt values setup.profile.rows col) hhint
  rw [hrows] at hsum
  rw [columnProduct, ZMod.natCast_mod, hlen, Nat.cast_sum, Transcript.queryError,
    Transcript.queryRounding]
  simp only [Nat.cast_mul, mul_sub, Finset.sum_sub_distrib]
  linear_combination hsum

theorem columnProduct_lt (hq : 0 < q) (x : ℕ → ℕ) (words : List ℕ) :
    columnProduct q x words < q := Nat.mod_lt _ hq

/-- The product of a column among all products. -/
theorem getD_products (hvalid : setup.profile.Valid) (x : ℕ → ℕ → ℕ) (query : List ℕ)
    (block : Fin (setup.profile.cols / d)) (i : Fin d) :
    ((List.range setup.profile.cols).map fun col => columnProduct q (x col) query).getD
      (block * d + i) 0 = columnProduct q (x (block * d + i)) query := by
  have hcol : block * d + i < setup.profile.cols := by
    have hroom := Nat.mul_le_mul_right d (Nat.succ_le_of_lt block.2)
    rw [Nat.succ_mul, Nat.div_mul_cancel hvalid.dvd_cols] at hroom
    have := i.2
    omega
  rw [List.getD_eq_getElem _ _ (by rwa [List.length_map, List.length_range]), List.getElem_map,
    List.getElem_range]

theorem Serves.exists_head (h : Serves lib S values) (hvalid : S.setup.profile.Valid) :
    ∃ first, S.pre.head? = some first := by
  cases hpre : S.pre with
  | nil =>
      have hpos : 0 < S.setup.profile.cols / d :=
        Nat.div_pos (Nat.le_of_dvd hvalid.cols_pos hvalid.dvd_cols) P.d_pos
      rw [← h.length_pre, hpre, List.length_nil] at hpos
      exact absurd hpos (Nat.lt_irrefl 0)
  | cons first _ => exact ⟨first, rfl⟩

/-- **The first block prepares** the keys that the server reads. -/
theorem Serves.exists_prepared (h : Serves lib S values) (hvalid : S.setup.profile.Valid)
    {secret : Poly d} {eg eh : List (Poly d)} {keys : NativeKeys d}
    (hkeys : keys.IsFor S.setup.packing secret eg eh S.setup.profile.twoMask) :
    ∃ first prepared, S.pre.head? = some first ∧
      first.prepareKeys (receivedKeys S.setup.profile keys) = .ok prepared := by
  obtain ⟨first, hfirst⟩ := h.exists_head hvalid
  obtain ⟨hB, hmode⟩ := h.builtFor (List.mem_of_head? hfirst)
  have hreceived := receivedKeys_isFor hvalid hkeys
  obtain ⟨prepared, hprepared⟩ := exists_prepareKeys hB hreceived.canonical
    (by rw [hmode]; exact hreceived.fits)
  exact ⟨first, prepared, hfirst, hprepared⟩

end Steps

/-! ## Runs -/

section Runs

variable {prim : Primitives} {host : Host} {client server lanes : Overflow} {target : ℕ} {rng : R}

/-- **A server answers** a request that it can parse, block by block. -/
theorem Serves.exists_answer (h : Serves lib S values) (hinv : lib.InvertsOdd d)
    (hvalid : S.setup.profile.Valid) {secret : NativeSecret P}
    (hsecret : ∀ i, secret.coeffs i < q) {eg eh : List (Poly d)} {keys : NativeKeys d}
    (hkeys : keys.IsFor S.setup.packing secret.coeffs eg eh S.setup.profile.twoMask)
    (prim : Primitives) {bytes : List UInt8} {query : List ℕ}
    (hparse : parseRequest server S.setup bytes =
      .ok (receivedKeys S.setup.profile keys, query)) (host : Host) (lanes : Overflow) :
    ∃ (products : List ℕ) (prepared : PreparedNativeKeys d q)
      (hints : Fin (S.setup.profile.cols / d) → Fin d → Poly d)
      (traces : Fin (S.setup.profile.cols / d) → NativeTrace d q)
      (bodies : Fin (S.setup.profile.cols / d) → Poly d),
      NativeServer.scan host lanes S (PreparedU16Query.ofWords host query q) = .ok products ∧
      (∀ first ∈ S.pre.head?,
        first.prepareKeys (receivedKeys S.setup.profile keys) = .ok prepared) ∧
      (∀ (block : Fin (S.setup.profile.cols / d)) (j : Fin d),
        IsHint S.setup values (block * d + j) (hints block j)) ∧
      (∀ block, traceMasks lib S.setup.packing (List.ofFn (hints block))
        S.setup.profile.twoMask = .ok (traces block)) ∧
      (∀ (block : Fin (S.setup.profile.cols / d)) (hblock : (block : ℕ) < S.pre.length),
        packBody S.setup.profile.twoMask prepared S.pre[(block : ℕ)]
          (fun i => products.getD (block * d + i) 0) = .ok (bodies block)) ∧
      (∀ block i, bodies block i < q) ∧
      respond prim host server lanes S bytes =
        .ok (answer prim S.setup bytes (flatWords (List.ofFn bodies))) := by
  have : NeZero d := ⟨P.d_pos.ne'⟩
  obtain ⟨hlen, hprepares⟩ := query_of_parseRequest hvalid hparse
  have hscan := h.scan host lanes _ _ (hprepares host) hlen
  have hproduct := getD_products hvalid (entryAt values S.setup.profile.rows) query
  -- the keys that the first block prepares, and what every block makes with them
  obtain ⟨first, prepared, hfirst, hprepared⟩ := h.exists_prepared hvalid hkeys
  have hhead : ∀ first ∈ S.pre.head?, first.prepareKeys
      (receivedKeys S.setup.profile keys) = .ok prepared := by
    intro first' hfirst'
    obtain rfl := Option.some.inj (hfirst.symm.trans hfirst')
    exact hprepared
  have hblock (block : Fin (S.setup.profile.cols / d)) : (block : ℕ) < S.pre.length :=
    block.2.trans_eq h.length_pre.symm
  have htraced (block : Fin (S.setup.profile.cols / d)) := h.exists_trace hinv (hblock block)
  choose hints traces left right hhints htraces hspec hfrom using htraced
  have hmade (block : Fin (S.setup.profile.cols / d)) := h.exists_body hvalid hsecret hkeys hhead
    (List.getElem_mem (hblock block)) (hspec block) (hfrom block)
    fun i => (hproduct block i).trans_lt (columnProduct_lt P.q_pos _ _)
  choose bodies hpack hlt _ using hmade
  refine ⟨_, prepared, hints, traces, bodies, hscan, hhead, hhints, htraces,
    fun block _ => hpack block, hlt, ?_⟩
  refine respond_ok hparse hscan hfirst hprepared (by rw [List.length_ofFn, h.length_pre])
    (by rw [List.length_map, List.length_range, h.length_pre]) fun i hi hi' => ?_
  rw [List.getElem_ofFn]
  exact hpack ⟨i, hi.trans_eq h.length_pre⟩

/-- **Every step of a retrieval returns.** -/
theorem Serves.exists_runs (h : Serves lib S values) (hinv : lib.InvertsOdd d)
    (hslots : lib.BitReversed) (hgen : gen.Bounded q) (hvalid : S.setup.profile.Valid)
    {lift : LiftContext d q} (hlift : LiftContext.new lib d q = .ok lift) (prim : Primitives)
    (host : Host) (client server lanes : Overflow) (htarget : target < S.setup.profile.rows)
    (rng : R) :
    ∃ t : Transcript S.setup,
      t.Runs prim lib gen S values host client server lanes target rng := by
  have : NeZero d := ⟨P.d_pos.ne'⟩
  obtain ⟨request, rng', hgenerate⟩ := returns_generate prim hgen hvalid hlift htarget rng
  obtain ⟨-, parts, drawn, hdraw, hparts, hrequest⟩ := generate_spec hvalid hgenerate
  obtain ⟨eg, eh, errors, herrors⟩ :=
    yields_drawParts_errors lib hgen hvalid target rng parts drawn hdraw
  have hparse := parseRequest_encode server prim gen hvalid hparts drawn
  rw [← hrequest] at hparse
  obtain ⟨products, prepared, hints, traces, bodies, hscan, hhead, hhints, htraces, hpack, hlt,
    hrespond⟩ := h.exists_answer hinv hvalid herrors.secret.lt herrors.keys prim hparse host lanes
  have hblock (block : Fin (S.setup.profile.cols / d)) : (block : ℕ) < S.pre.length :=
    block.2.trans_eq h.length_pre.symm
  -- the masks, and what the client makes of the answer
  obtain ⟨published, others, hpublished, hmasks, -⟩ := h.published_ok
  have hof := NativePublished.of_fromMasks hvalid hmasks
  obtain ⟨preparedMasks, hprepare⟩ := hof.prepare_ok prim hvalid hlift
  obtain ⟨decoded, request', hrequest', hdecode, hdecodePrepared, -⟩ :=
    exists_decoded (prepared_of_generate hgen hvalid hgenerate hof hprepare) hslots client
      (by rw [hrequest]; rfl) (List.length_ofFn (f := bodies)) (fun a ha => by
        obtain ⟨block, rfl⟩ := (List.mem_ofFn' bodies a).mp ha
        exact hlt block)
  refine ⟨{ parts, eg, eh, errors, request
            keys := receivedKeys S.setup.profile parts.keys
            query := receivedQuery gen S.setup.profile parts.query drawn
            products
            blocks := fun block => S.pre.get ⟨block, hblock block⟩
            hints, traces, bodies
            response := answer prim S.setup request.bytes (flatWords (List.ofFn bodies))
            published, decoded },
    { draw := ⟨drawn, hdraw⟩
      errors := herrors
      generate := ⟨rng', hgenerate⟩
      parse := hparse
      scan := hscan
      blocks := ?_
      hints := hhints
      traces := htraces
      pack := ⟨prepared, hhead, fun block => hpack block (hblock block)⟩
      respond := hrespond
      publish := hpublished
      transport := NativePublished.fromBytes_toBytes client hvalid hmasks
      decode := hdecode
      decode_prepared := ⟨preparedMasks, request', hprepare, hrequest',
        hdecodePrepared _ (Or.inl rfl), hdecodePrepared _ (Or.inr rfl)⟩ }⟩
  refine List.ext_getElem (by rw [List.length_ofFn, h.length_pre]) fun i hi hi' => ?_
  rw [List.getElem_ofFn]
  rfl

namespace Transcript.Runs

/-- **The server reads** what was drawn, with the rounded words of its transport. -/
theorem received {t : Transcript setup}
    (hruns : t.Runs prim lib gen S values host client server lanes target rng)
    (hvalid : setup.profile.Valid) : ∃ drawn,
      drawParts lib gen setup target rng = .ok (t.parts, drawn) ∧
      t.keys = receivedKeys setup.profile t.parts.keys ∧
      t.query = receivedQuery gen setup.profile t.parts.query drawn ∧
      t.request.secret = t.parts.secret ∧ t.request.queryId = prim.sha256 t.request.bytes := by
  obtain ⟨rng', hgenerate⟩ := hruns.generate
  obtain ⟨-, parts, drawn, hdraw, hparts, hrequest⟩ := generate_spec hvalid hgenerate
  obtain ⟨drawn', hdraw'⟩ := hruns.draw
  obtain ⟨rfl, rfl⟩ := Prod.mk.inj (Except.ok.inj (hdraw.symm.trans hdraw'))
  have hparse := parseRequest_encode server prim gen hvalid hparts drawn
  rw [← hrequest, hruns.parse] at hparse
  obtain ⟨hkeys, hquery⟩ := Prod.mk.inj (Except.ok.inj hparse)
  exact ⟨drawn, hdraw', hkeys, hquery, by rw [hrequest]; rfl, by rw [hrequest]; rfl⟩

/-- **The products of a run** are those of the received selection. -/
theorem products {t : Transcript setup}
    (hruns : t.Runs prim lib gen S values host client server lanes target rng)
    (h : Serves lib S values) (hS : S.setup = setup) (hvalid : setup.profile.Valid) :
    t.query.length = setup.profile.rows ∧
      t.products = (List.range setup.profile.cols).map fun col =>
        columnProduct q (entryAt values setup.profile.rows col) t.query := by
  obtain ⟨hlen, hprepares⟩ := query_of_parseRequest hvalid hruns.parse
  subst hS
  exact ⟨hlen, Except.ok.inj
    (hruns.scan.symm.trans (h.scan host lanes _ _ (hprepares host) hlen))⟩

variable {t : Transcript S.setup}

/-- **The traces of a run** are those of its hints, and its blocks are built from them. -/
theorem exists_trace [NeZero d]
    (hruns : t.Runs prim lib gen S values host client server lanes target rng)
    (h : Serves lib S values) (hinv : lib.InvertsOdd d)
    (block : Fin (S.setup.profile.cols / d)) :
    t.blocks block ∈ S.pre ∧ ∃ left right,
      IsTrace S.setup.packing (t.hints block) S.setup.profile.twoMask left right
        (t.traces block) ∧
      IsBuiltFrom S.setup.packing (t.traces block) (t.blocks block) := by
  have hblock : (block : ℕ) < S.pre.length := block.2.trans_eq h.length_pre.symm
  have hpre : S.pre[(block : ℕ)] = t.blocks block := by
    simp only [hruns.blocks, List.getElem_ofFn]
  obtain ⟨hints, trace, left, right, hhints, hrun, htrace, hfrom⟩ := h.exists_trace hinv hblock
  obtain rfl : t.hints block = hints := funext fun j => (hruns.hints block j).eq (hhints j)
  obtain rfl : t.traces block = trace := Except.ok.inj ((hruns.traces block).symm.trans hrun)
  rw [← hpre]
  exact ⟨List.getElem_mem hblock, left, right, htrace, hfrom⟩

/-- **The body of a block** and the masks of the block against the secret. -/
theorem ring_body [NeZero d]
    (hruns : t.Runs prim lib gen S values host client server lanes target rng)
    (h : Serves lib S values) (hinv : lib.InvertsOdd d) (hvalid : S.setup.profile.Valid)
    (block : Fin (S.setup.profile.cols / d)) :
    (∀ i, t.bodies block i < q) ∧
      dot q (t.blocks block).family (t.parts.secret.family S.setup.profile.twoMask) +
          Poly.ring q (t.bodies block) =
        Poly.ring q (fun i => t.products.getD (block * d + i) 0) +
          innerProducts q (t.hints block) t.parts.secret.coeffs +
          packError (t.blocks block) (t.traces block) (t.hints block) t.parts.secret.coeffs t.eg
            t.eh +
          ((t.traces block).lastError t.keys.kh - (t.traces block).lastError t.parts.keys.kh) := by
  obtain ⟨drawn, -, hkeys, -⟩ := hruns.received hvalid
  obtain ⟨-, hproducts⟩ := hruns.products h rfl hvalid
  obtain ⟨prepared, hhead, hpack⟩ := hruns.pack
  obtain ⟨hB, left, right, htrace, hfrom⟩ := hruns.exists_trace h hinv block
  have hlt (i : Fin d) : t.products.getD (block * d + i) 0 < q := by
    rw [hproducts, getD_products hvalid]
    exact columnProduct_lt P.q_pos _ _
  obtain ⟨body, hbody, hbodyLt, hring⟩ := h.exists_body hvalid hruns.errors.secret.lt
    hruns.errors.keys (hkeys ▸ hhead) hB htrace hfrom hlt
  obtain rfl := Except.ok.inj ((hpack block).symm.trans hbody)
  rw [← hkeys] at hring
  exact ⟨hbodyLt, hring⟩

/-- **The answer of a run** holds its bodies. -/
theorem response_eq (hruns : t.Runs prim lib gen S values host client server lanes target rng)
    (h : Serves lib S values) (hvalid : S.setup.profile.Valid) :
    t.response = answer prim S.setup t.request.bytes (flatWords (List.ofFn t.bodies)) := by
  obtain ⟨-, hproducts⟩ := hruns.products h rfl hvalid
  obtain ⟨first, hfirst⟩ := h.exists_head hvalid
  obtain ⟨prepared, hhead, hpack⟩ := hruns.pack
  refine Except.ok.inj (hruns.respond.symm.trans (respond_ok hruns.parse hruns.scan hfirst
    (hhead first hfirst) (by rw [List.length_ofFn, h.length_pre])
    (by rw [hproducts, List.length_map, List.length_range, h.length_pre]) fun i hi hi' => ?_))
  have hblock := hpack ⟨i, hi.trans_eq h.length_pre⟩
  simp only [hruns.blocks, List.getElem_ofFn]
  exact hblock

/-- **What a run decodes** for a column is the rounded sum of the scaled entry and the noise. -/
theorem exists_phase (hruns : t.Runs prim lib gen S values host client server lanes target rng)
    (h : Serves lib S values) (hinv : lib.InvertsOdd d) (hslots : lib.BitReversed)
    (hgen : gen.Bounded q) (hvalid : S.setup.profile.Valid) :
    t.decoded.length = S.setup.profile.cols ∧
      ∀ (block : Fin (S.setup.profile.cols / d)) (i : Fin d), ∃ phase < q,
        (phase : ZMod q) =
          P.delta * entryAt values S.setup.profile.rows (block * d + i) target +
            t.noise values block i ∧
        t.decoded.getD (block * d + i) 0 = P.decodeWord phase := by
  have : NeZero d := ⟨P.d_pos.ne'⟩
  obtain ⟨rng', hgenerate⟩ := hruns.generate
  obtain ⟨htarget, -⟩ := generate_spec hvalid hgenerate
  obtain ⟨drawn, -, -, -, hsecret, hqueryId⟩ := hruns.received hvalid
  obtain ⟨hlen, hproducts⟩ := hruns.products h rfl hvalid
  obtain ⟨published, others, hpublished, hmasks, hfamilies⟩ := h.published_ok
  obtain rfl : t.published = published := Except.ok.inj (hruns.publish.symm.trans hpublished)
  obtain ⟨preparedMasks, -, hprepare, -⟩ := hruns.decode_prepared
  obtain ⟨decoded, -, -, hdecode, -, hdecodedLen, hdecoded⟩ := exists_decoded
    (prepared_of_generate hgen hvalid hgenerate (NativePublished.of_fromMasks hvalid hmasks)
      hprepare) hslots client hqueryId (List.length_ofFn (f := t.bodies)) (fun a ha => by
        obtain ⟨block, rfl⟩ := (List.mem_ofFn' t.bodies a).mp ha
        exact (hruns.ring_body h hinv hvalid block).1)
  rw [← hruns.response_eq h hvalid, hruns.decode] at hdecode
  obtain rfl := Except.ok.inj hdecode
  refine ⟨hdecodedLen, fun block i => ?_⟩
  obtain ⟨phase, hphase, hcast, hword⟩ := hdecoded block
    (roundMasks S.setup.profile (t.blocks block).family) (by
      rw [hfamilies, hruns.blocks, List.getElem?_map, List.getElem?_ofFn, dif_pos block.2]
      rfl) i
  refine ⟨phase, hphase, hcast.trans ?_, hword⟩
  -- the product of the column, what the block makes of it, and what the client adds
  have hcolumn := t.cast_columnProduct hvalid htarget hruns.errors.selection hlen
    (hruns.hints block i)
  have hsum := congrArg (coeff · i) (hruns.ring_body h hinv hvalid block).2
  simp only [coeff_add, coeff_sub, Poly.coeff_ring, innerProducts, coeff_ofCoeffs, hproducts,
    getD_products hvalid] at hsum
  rw [hsecret, Transcript.noise, Transcript.packing, Transcript.keyRounding,
    Transcript.maskRounding, Transcript.responseRounding, Transcript.received]
  simp only [coeff_sub]
  linear_combination hsum + hcolumn

end Transcript.Runs

end Runs

/-! ## The retrieval -/

/-- **A native retrieval is correct.**  A server of bytes or of words runs with every client and
every row, and every run decodes the entry of a column whose noise is below half a step. -/
theorem native_retrieval {d q : ℕ} {P : NativeParams d q} {R : Type} (lib : NumberTheory)
    (hinv : lib.InvertsOdd d) (hslots : lib.BitReversed) (gen : Generator R) (hgen : gen.Bounded q)
    (prim : Primitives) (setup : NativePublicSetup P) (hprofile : setup.profile.Reachable)
    (S : NativeServer P) (values : List ℕ)
    (hserver : (∃ host db concurrentBlocks,
        buildWithConcurrency lib host setup db concurrentBlocks = .ok S ∧
          db.map UInt16.toNat = values) ∨
      ∃ host db concurrentBlocks,
        buildU8WithConcurrency lib host setup db concurrentBlocks = .ok S ∧
          db.map UInt8.toNat = values)
    (host : Host) (client server lanes : Overflow) (target : ℕ)
    (htarget : target < setup.profile.rows) (rng : R) :
    (∃ t : Transcript setup,
      t.Runs prim lib gen S values host client server lanes target rng) ∧
    ∀ t : Transcript setup,
      t.Runs prim lib gen S values host client server lanes target rng →
      t.decoded.length = setup.profile.cols ∧
      ∀ (block : Fin (setup.profile.cols / d)) (i : Fin d),
        2 * |(t.noise values block i).valMinAbs| < P.delta →
        t.decoded.getD (block * d + i) 0 =
          entryAt values setup.profile.rows (block * d + i) target := by
  have hvalid := hprofile.valid
  obtain ⟨rfl, h⟩ : S.setup = setup ∧ Serves lib S values := by
    obtain ⟨_, db, _, hS, rfl⟩ | ⟨_, db, _, hS, rfl⟩ := hserver
    · exact serves_of_build hvalid hS
    · exact serves_of_buildU8 hvalid hS
  obtain ⟨first, hfirst⟩ := h.exists_head hvalid
  obtain ⟨hfirstB, -⟩ := h.builtFor (List.mem_of_head? hfirst)
  refine ⟨h.exists_runs hinv hslots hgen hvalid hfirstB.lift_eq prim host client server lanes
    htarget rng, fun t hruns => ?_⟩
  obtain ⟨hlen, hphase⟩ := hruns.exists_phase h hinv hslots hgen hvalid
  refine ⟨hlen, fun block i hnoise => ?_⟩
  obtain ⟨phase, hlt, hcast, hdecoded⟩ := hphase block i
  rw [hdecoded]
  exact decodeWord_phase P hlt (getD_lt (Nat.two_pow_pos _) h.lt _) hcast hnoise

/-! ## A quiet retrieval -/

section Quiet

/-- A transcript with two masks and without a secret, whose selection has no errors and loses
nothing on the way. -/
structure Transcript.Quiet (t : Transcript setup) (target : ℕ) : Prop where
  twoMask : setup.profile.twoMask = true
  secret : t.parts.secret.coeffs = fun _ => 0
  kg : ∀ j, digitVector P t.parts.keys.kg j = 0
  selected : ∀ row < setup.profile.rows,
    t.parts.query.getD row 0 = if row = target then P.delta else 0
  transport : t.query = t.parts.query

theorem dot_eq_zero {as bs : List (Poly d)} (h : ∀ b ∈ bs, Poly.ring q b = 0) :
    dot q as bs = 0 := by
  rw [dot]
  refine List.sum_eq_zero fun x hx => ?_
  rw [List.mem_iff_getElem] at hx
  obtain ⟨i, hi, rfl⟩ := hx
  rw [List.length_zipWith, lt_min_iff] at hi
  rw [List.getElem_zipWith, h _ (List.getElem_mem hi.2), mul_zero]

namespace Transcript.Quiet

variable {t : Transcript setup} {target : ℕ}

theorem ring_secret (h : t.Quiet target) : Poly.ring q t.parts.secret.coeffs = 0 := by
  rw [h.secret]
  exact Poly.ring_zero

theorem dot_family (h : t.Quiet target) (twoMask : Bool) (masks : List (Poly d)) :
    dot q masks (t.parts.secret.family twoMask) = 0 := by
  have hconjugate : Poly.ring q t.parts.secret.conjugate = 0 := by
    rw [NativeSecret.conjugate, ring_tauCoeffs P.q_pos (odd_two_mul_sub_one P.d_pos),
      h.ring_secret, map_zero]
  refine dot_eq_zero fun s hs => ?_
  cases twoMask with
  | false =>
      obtain rfl := List.mem_singleton.mp hs
      exact h.ring_secret
  | true =>
      rcases List.mem_pair.mp hs with rfl | rfl
      · exact h.ring_secret
      · exact hconjugate

theorem innerProducts_eq (h : t.Quiet target) (hints : Fin d → Poly d) :
    innerProducts q hints t.parts.secret.coeffs = 0 := by
  have : NeZero d := ⟨P.d_pos.ne'⟩
  rw [innerProducts, h.secret]
  refine ext_coeff fun i => ?_
  simp

/-- **A quiet selection** has no errors. -/
theorem queryError_eq (h : t.Quiet target) (hselection : IsSelection P t.parts.secret.coeffs
    setup.polys target (flatWords t.errors) t.parts.query) (hvalid : setup.profile.Valid)
    (col : ℕ) : t.queryError values col = 0 := by
  have : NeZero d := ⟨P.d_pos.ne'⟩
  refine Finset.sum_eq_zero fun row hrow => ?_
  have hrow := Finset.mem_range.mp hrow
  have hblock : row / d < setup.polys.length := by
    rw [setup.length_polys]
    exact Nat.div_lt_div_of_lt_of_dvd hvalid.dvd_rows hrow
  have hword := congrArg (coeff · ⟨row % d, Nat.mod_lt _ P.d_pos⟩) (hselection.ring _ hblock)
  simp only [h.ring_secret, mul_zero, sub_zero, coeff_add, coeff_ofCoeffs, Poly.coeff_ring,
    Nat.div_add_mod', h.selected row hrow, Nat.cast_ite, Nat.cast_zero] at hword
  rw [left_eq_add.mp hword, mul_zero]

theorem queryRounding_eq (h : t.Quiet target) (col : ℕ) : t.queryRounding values col = 0 := by
  refine Finset.sum_eq_zero fun row _ => ?_
  rw [h.transport, sub_self, mul_zero]

theorem maskRounding_eq (h : t.Quiet target) (block : Fin (setup.profile.cols / d)) (i : Fin d) :
    t.maskRounding block i = 0 := by
  have : NeZero d := ⟨P.d_pos.ne'⟩
  rw [Transcript.maskRounding, h.dot_family, h.dot_family, sub_self, coeff_zero]

/-- **Packing adds nothing** without a secret and without errors. -/
theorem packError_eq [NeZero d] (h : t.Quiet target)
    (hkeys : t.parts.keys.IsFor setup.packing t.parts.secret.coeffs t.eg t.eh
      setup.profile.twoMask) {B : NativePreprocessed P} {trace : NativeTrace d q}
    (hlast : trace.last = none) (hfrom : IsBuiltFrom setup.packing trace B)
    (hints : Fin d → Poly d) :
    packError B trace hints t.parts.secret.coeffs t.eg t.eh = 0 := by
  have heg (j : Fin P.ell) : digitVector P t.eg j = 0 := by
    have hkg := hkeys.kg j
    rw [h.ring_secret, h.kg, map_zero, zero_mul, zero_mul, neg_zero, zero_add, add_zero] at hkg
    exact hkg.symm
  have haction : B.h.action q t.eg = 0 := by
    rw [hfrom.action t.eg hkeys.length_eg, keySum]
    simp [heg, dotProduct]
  have hsecret : trace.secretError P 0 = 0 := by
    rw [NativeTrace.secretError, restSum, hlast]
    simp
  have hfloor : floorError q hints t.parts.secret.coeffs = 0 := by
    rw [floorError, h.ring_secret, h.innerProducts_eq]
    simp
  rw [packError, haction, NativeTrace.lastError, hlast, h.ring_secret, hsecret, hfloor]
  simp [dot]

end Transcript.Quiet

/-- **A quiet run has no noise** where the rounding of the answer loses nothing of its products. -/
theorem Transcript.Runs.noise_eq_zero {prim : Primitives} {host : Host}
    {client server lanes : Overflow} {target : ℕ} {rng : R} {t : Transcript setup}
    (hruns : t.Runs prim lib gen S values host client server lanes target rng)
    (h : Serves lib S values) (hS : S.setup = setup) (hinv : lib.InvertsOdd d)
    (hvalid : setup.profile.Valid) (hquiet : t.Quiet target)
    (hexact : ∀ (block : Fin (setup.profile.cols / d)) (i : Fin d),
      (up (down (flatWords (List.ofFn fun (block : Fin (setup.profile.cols / d)) (i : Fin d) =>
          t.products.getD (block * d + i) 0)) q setup.profile.responseBits) q
        setup.profile.responseBits).getD (block * d + i) 0 = t.products.getD (block * d + i) 0)
    (block : Fin (setup.profile.cols / d)) (i : Fin d) : t.noise values block i = 0 := by
  subst hS
  have : NeZero d := ⟨P.d_pos.ne'⟩
  obtain ⟨-, hproducts⟩ := hruns.products h rfl hvalid
  have hlast (block) : (t.traces block).last = none := by
    obtain ⟨-, left, right, htrace, -⟩ := hruns.exists_trace h hinv block
    exact (htrace.two_mask hquiet.twoMask).1
  have hlastError (block) (key : List (Poly d)) : (t.traces block).lastError key = 0 := by
    rw [NativeTrace.lastError, hlast]
    rfl
  have hpackError (block) : packError (t.blocks block) (t.traces block) (t.hints block)
      t.parts.secret.coeffs t.eg t.eh = 0 := by
    obtain ⟨-, left, right, -, hfrom⟩ := hruns.exists_trace h hinv block
    exact hquiet.packError_eq hruns.errors.keys (hlast block) hfrom _
  -- without noise the bodies are the products
  have hbodies : t.bodies = fun (block : Fin (S.setup.profile.cols / d)) (i : Fin d) =>
      t.products.getD (block * d + i) 0 := by
    funext block
    obtain ⟨hlt, hring⟩ := hruns.ring_body h hinv hvalid block
    rw [hquiet.dot_family, hquiet.innerProducts_eq, hpackError, hlastError, hlastError, sub_self,
      zero_add, add_zero, add_zero, add_zero] at hring
    refine eq_of_ring_eq hlt (fun i => ?_) hring
    rw [hproducts, getD_products hvalid]
    exact columnProduct_lt P.q_pos _ _
  have hresponse : t.responseRounding block i = 0 := by
    rw [Transcript.responseRounding, Transcript.received, hbodies, hexact block i, sub_self]
  rw [Transcript.noise, hquiet.queryError_eq hruns.errors.selection hvalid,
    hquiet.queryRounding_eq, hquiet.maskRounding_eq, hresponse, Transcript.keyRounding,
    Transcript.packing, hlastError, hlastError, hpackError, sub_self, coeff_zero]
  simp only [add_zero]

end Quiet

/-- A generator of zeros. -/
def zeroGenerator : Generator Unit where
  nextU64 r := (0, r)
  nextU32 r := (0, r)
  gaussian _ r := (0, r)
  exists_nextU32 _ := ⟨0, show 0 < 2 ^ 32 - 1 by decide⟩

theorem zeroGenerator_bounded : zeroGenerator.Bounded (2 ^ 54) :=
  ⟨fun _ => show 0 < 2 ^ 54 by decide, fun _ => show (centered 0 (2 ^ 54)).natAbs ≤ 65 by decide⟩

set_option maxRecDepth 4000 in
/-- A generator of zeros draws no secret and no errors, and the transport of its selection is
exact. -/
theorem drawParts_zeroGenerator :
    (fun drawn : RequestParts ditherParams × Unit => (List.ofFn drawn.1.secret.coeffs,
        drawn.1.keys.kg.map List.ofFn, drawn.1.query,
        receivedQuery zeroGenerator ditherProfile drawn.1.query drawn.2)) <$>
      drawParts nativeNumberTheory zeroGenerator ditherSetup 1 () =
    .ok ([0, 0, 0, 0], [[0, 0, 0, 0], [0, 0, 0, 0]], [0, 2 ^ 46, 0, 0], [0, 2 ^ 46, 0, 0]) := by
  decide

theorem quiet_zeroGenerator {S : NativeServer ditherParams} {host : Host}
    {client server lanes : Overflow} {t : Transcript ditherSetup}
    (hruns : t.Runs smallPrimitives nativeNumberTheory zeroGenerator S values host client server
      lanes 1 ()) : t.Quiet 1 ∧ t.query = [0, 2 ^ 46, 0, 0] := by
  obtain ⟨drawn, hdraw, -, hquery, -⟩ := hruns.received ditherProfile_reachable.valid
  have hparts := drawParts_zeroGenerator
  rw [hdraw] at hparts
  obtain ⟨hsecret, hparts⟩ := Prod.mk.inj (Except.ok.inj hparts)
  obtain ⟨hkg, hparts⟩ := Prod.mk.inj hparts
  obtain ⟨hdrawn, hreceived⟩ := Prod.mk.inj hparts
  have hreceived : t.query = [0, 2 ^ 46, 0, 0] := hquery.trans hreceived
  refine ⟨⟨rfl, List.ofFn_injective (hsecret.trans (by decide)), fun j => ?_, ?_,
    hreceived.trans hdrawn.symm⟩, hreceived⟩
  · have hzero : t.parts.keys.kg = [fun _ => 0, fun _ => 0] :=
      List.map_injective_iff.mpr List.ofFn_injective (hkg.trans (by decide))
    rw [digitVector, hzero]
    obtain hj | hj : (j : ℕ) = 0 ∨ (j : ℕ) = 1 := by
      have := j.2
      have : ditherParams.ell = 2 := rfl
      omega
    · rw [hj]
      exact Poly.ring_zero
    · rw [hj]
      exact Poly.ring_zero
  · rw [show t.parts.query = [0, 2 ^ 46, 0, 0] from hdrawn]
    decide

/-- The second row of a database of two blocks is decoded. -/
theorem native_retrieval_small : ∃ S, buildU8WithConcurrency nativeNumberTheory
      ⟨true, true, true, true, true⟩ ditherSetup ((List.range 32).map UInt8.ofNat) 1 = .ok S ∧
    ∃ t : Transcript ditherSetup, t.Runs smallPrimitives nativeNumberTheory zeroGenerator S
        (List.range 32) ⟨false, false, false, false, false⟩ .traps .wraps .wraps 1 () ∧
      t.decoded = [1, 5, 9, 13, 17, 21, 25, 29] := by
  obtain ⟨lift, hlift⟩ := liftContext_new_dither
  have hvalid : ditherSetup.profile.Valid := ditherProfile_reachable.valid
  obtain ⟨S, hS⟩ := exists_buildInternal ⟨true, true, true, true, true⟩ hlift invertsOdd_native
    hvalid (show ((List.range 32).map UInt8.ofNat).length = _ from rfl)
    (List.all_iff_forall_prop.mp (by decide)) one_ne_zero fun _ hcols => absurd hcols (by decide)
  have hbuild : buildU8WithConcurrency nativeNumberTheory ⟨true, true, true, true, true⟩
      ditherSetup ((List.range 32).map UInt8.ofNat) 1 = .ok S := by
    rw [buildU8WithConcurrency, if_neg (by decide), hS]
  obtain ⟨⟨t, hruns⟩, hall⟩ := native_retrieval nativeNumberTheory invertsOdd_native
    bitReversed_native zeroGenerator zeroGenerator_bounded smallPrimitives ditherSetup
    ditherProfile_reachable S (List.range 32) (Or.inr ⟨_, _, _, hbuild, by decide⟩)
    ⟨false, false, false, false, false⟩ .traps .wraps .wraps 1 (by decide) ()
  obtain ⟨hlen, hdecoded⟩ := hall t hruns
  obtain ⟨hsetup, hserves⟩ := serves_of_buildU8 hvalid hbuild
  obtain ⟨hquiet, hquery⟩ := quiet_zeroGenerator hruns
  obtain ⟨-, hproducts⟩ := hruns.products hserves hsetup hvalid
  rw [hquery] at hproducts
  have hquiet' := hruns.noise_eq_zero hserves hsetup invertsOdd_native hvalid hquiet (by
    rw [hproducts]
    decide)
  have hrow : ∀ col < 8, t.decoded.getD col 0 = entryAt (List.range 32) 4 col 1 := by
    intro col hcol
    have hcolumn := hdecoded ⟨col / 4, Nat.div_lt_of_lt_mul hcol⟩
      ⟨col % 4, Nat.mod_lt col (by decide)⟩ (by rw [hquiet']; decide)
    rwa [Nat.div_add_mod'] at hcolumn
  have hlist : t.decoded = (List.range 8).map fun col => entryAt (List.range 32) 4 col 1 := by
    refine List.ext_getElem hlen fun col hcol _ => ?_
    rw [← List.getD_eq_getElem _ 0 hcol, hrow col (hcol.trans_eq hlen), List.getElem_map,
      List.getElem_range]
  exact ⟨S, hbuild, t, hruns, hlist.trans (by decide)⟩
end NativeServer
