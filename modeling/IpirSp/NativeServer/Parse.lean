import IpirSp.NativeClient.Request

/-!
# Parsing a request on the server

The server cuts a request at offsets that it computes from its own profile.  `parse_generate` says
that it recovers what the client encoded, for every profile: the `g`-key exactly, the `h`-key and
the selection up to the rounding of the profile.  `parse_rejects` is the refusal of everything else.
-/

namespace NativeServer

open Reinspiring SpiralRs Codec Loops MachineWord Rounding NativeClient
open NativeClient.NativeProfile

variable {d q : ℕ} {P : NativeParams d q} {R : Type}

/-- `PreparedU16Query::new`: its check, and the words that it keeps. -/
def preparedU16Query (words : List ℕ) (q : ℕ) : Result (List ℕ) :=
  if ¬IsPowerOfTwo q ∨ ¬(2 ≤ q ∧ q ≤ 2 ^ 56) ∨ ∃ x ∈ words, x ≥ q then
    invalidParams "invalid native dot query"
  else .ok words

/-- The length of the keys in a request, from the length of the `g`-key. -/
def keysLen (o : Overflow) (profile : NativeProfile P) (kgLen : ℕ) : Result ℕ :=
  let half := P.ell * d
  if profile.twoMask then .ok kgLen
  else if profile.requestMagic = asciiBytes "RNQ1" then packedLen o (2 * half) profile.khBits
  else do
    let khLen ← packedLen o half profile.khBits
    .ok (kgLen + khLen)

/-- The key words of a request, from its bytes after the identifier. -/
def parseKeyWords (o : Overflow) (profile : NativeProfile P) (kgLen keysLen : ℕ)
    (bytes : List UInt8) : Result (List ℕ) :=
  let half := P.ell * d
  if profile.twoMask then decode o (bytes.take keysLen) half (trailingZeros q)
  else if profile.requestMagic = asciiBytes "RNQ1" then
    decode o (bytes.take keysLen) (2 * half) profile.khBits
  else do
    let words ← decode o (bytes.take kgLen) half (trailingZeros q)
    let kh ← decode o ((bytes.drop kgLen).take (keysLen - kgLen)) half profile.khBits
    .ok (words ++ up kh q profile.khBits)

/-- The parsing part of `respond`, once the lengths are known. -/
def parseFields (o : Overflow) (setup : NativePublicSetup P) (kgLen keysLen queryLen : ℕ)
    (bytes : List UInt8) : Result (NativeKeys d × List ℕ) :=
  let p := setup.profile
  if bytes.length ≠ 36 + keysLen + queryLen ∨
      bytes.take 4 ≠ p.requestMagic ∨ (bytes.drop 4).take 32 ≠ List.ofFn setup.id then
    invalidParams "request/profile/setup mismatch"
  else do
    let words ← parseKeyWords o p kgLen keysLen (bytes.drop 36)
    let keys ← (if p.twoMask then NativeKeys.fromKgWords setup.packing words
      else NativeKeys.fromWords setup.packing words)
    let query ← decode o (bytes.drop (36 + keysLen)) p.rows p.queryBits
    let prepared ← preparedU16Query (up query q p.queryBits) q
    .ok (keys, prepared)

/-- The parsing part of `respond`: the keys and the query at full width. -/
def parseRequest (o : Overflow) (setup : NativePublicSetup P) (bytes : List UInt8) :
    Result (NativeKeys d × List ℕ) := do
  let p := setup.profile
  let kgLen ← packedLen o (P.ell * d) (trailingZeros q)
  let keysLen ← keysLen o p kgLen
  let queryLen ← packedLen o p.rows p.queryBits
  parseFields o setup kgLen keysLen queryLen bytes

/-! ## Lengths -/

/-- The bytes that the keys of a profile take. -/
def keysBytes (profile : NativeProfile P) : ℕ :=
  let half := P.ell * d
  let kgLen := fieldBytes half (trailingZeros q)
  if profile.twoMask then kgLen
  else if profile.requestMagic = asciiBytes "RNQ1" then fieldBytes (2 * half) profile.khBits
  else kgLen + fieldBytes half profile.khBits

section Lengths

variable {profile : NativeProfile P} (o : Overflow)

/-- A key has few words. -/
theorem half_le (P : NativeParams d q) : P.ell * d ≤ 2 ^ 14 :=
  (Nat.mul_le_mul P.ell_le P.d_le).trans (by norm_num)

theorem Valid.rows_le (h : profile.Valid) : profile.rows ≤ 2 ^ 31 :=
  (Nat.le_mul_of_pos_right _ h.cols_pos).trans h.size_le

theorem Valid.khBits_le (h : profile.Valid) : profile.khBits ≤ 64 := by
  have hq := P.qBits_le
  rcases h.khBits with hkh | hkh <;> omega

theorem kgLen_ok (P : NativeParams d q) : packedLen o (P.ell * d) (trailingZeros q) =
    .ok (fieldBytes (P.ell * d) (trailingZeros q)) := by
  have hbits := P.qBits_le
  have hhalf := half_le P
  rw [trailingZeros_eq P]
  exact packedLen_ok o (fields_fit (by omega) (by omega))

theorem keysLen_ok (h : profile.Valid) :
    keysLen o profile (fieldBytes (P.ell * d) (trailingZeros q)) = .ok (keysBytes profile) := by
  have hhalf := half_le P
  have hkh := Valid.khBits_le h
  rw [keysLen, keysBytes]
  split
  · rfl
  split
  · exact packedLen_ok o (fields_fit (by omega) hkh)
  · rw [packedLen_ok o (fields_fit (by omega) hkh)]
    rfl

theorem queryLen_ok (h : profile.Valid) :
    packedLen o profile.rows profile.queryBits =
      .ok (fieldBytes profile.rows profile.queryBits) := by
  have hrows := Valid.rows_le h
  have hbits := h.queryBits_le.trans (min_le_left _ _)
  exact packedLen_ok o (fields_fit (by omega) (by omega))

/-- **The lengths of a request fit** at every valid profile, in either build. -/
theorem parseRequest_eq {setup : NativePublicSetup P} (h : setup.profile.Valid)
    (bytes : List UInt8) :
    parseRequest o setup bytes =
      parseFields o setup (fieldBytes (P.ell * d) (trailingZeros q)) (keysBytes setup.profile)
        (fieldBytes setup.profile.rows setup.profile.queryBits) bytes := by
  rw [parseRequest, kgLen_ok, ok_bind, keysLen_ok o h, ok_bind, queryLen_ok o h, ok_bind]

/-- Both builds parse alike. -/
theorem parseRequest_congr (o' : Overflow) {setup : NativePublicSetup P}
    (h : setup.profile.Valid) (bytes : List UInt8) :
    parseRequest o setup bytes = parseRequest o' setup bytes := by
  have hhalf := half_le P
  have hq := P.qBits_le
  have hkh := Valid.khBits_le h
  have hrows := Valid.rows_le h
  have hquery := h.queryBits_le.trans (min_le_left _ _)
  have hbits : trailingZeros q ≤ 64 := by
    rw [trailingZeros_eq P]
    omega
  have hwords (kgLen keysLen : ℕ) (bytes : List UInt8) :
      parseKeyWords o setup.profile kgLen keysLen bytes =
        parseKeyWords o' setup.profile kgLen keysLen bytes := by
    have hone : P.ell * d ≤ 2 ^ 32 := by omega
    have htwo : 2 * (P.ell * d) ≤ 2 ^ 32 := by omega
    rw [parseKeyWords, parseKeyWords]
    simp only [decode_congr o o' _ (fields_fit hone hbits),
      decode_congr o o' _ (fields_fit hone hkh), decode_congr o o' _ (fields_fit htwo hkh)]
  rw [parseRequest_eq o h, parseRequest_eq o' h, parseFields, parseFields, hwords]
  simp only [decode_congr o o' _ (fields_fit (show setup.profile.rows ≤ 2 ^ 32 by omega)
    (show setup.profile.queryBits ≤ 64 by omega))]

end Lengths

/-! ## Keys -/

/-- A polynomial rounded to `levels` multiples of `step`. -/
def roundPoly (step levels : ℕ) (a : Poly d) : Poly d := fun i => nearest step levels (a i)

theorem nearest_full (k : ℕ) {x : ℕ} (hx : x < 2 ^ k) : nearest (2 ^ (k - k)) (2 ^ k) x = x := by
  rw [nearest, Nat.sub_self, pow_zero, Nat.div_one, Nat.mod_eq_of_lt (by simpa)]
  simp

theorem roundPoly_full (P : NativeParams d q) {a : Poly d} (ha : ∀ i, a i < q) :
    roundPoly (2 ^ (P.qBits - P.qBits)) (2 ^ P.qBits) a = a :=
  funext fun i => nearest_full P.qBits (by rw [← P.q_eq]; exact ha i)

theorem roundPoly_lt (P : NativeParams d q) {bits : ℕ} (hle : bits ≤ P.qBits) (a : Poly d)
    (i : Fin d) : roundPoly (2 ^ (P.qBits - bits)) (2 ^ bits) a i < q := by
  have hlt := wrap_lt (Nat.two_pow_pos bits) (Nat.two_pow_pos (P.qBits - bits))
    ((a i + 2 ^ (P.qBits - bits) / 2) / 2 ^ (P.qBits - bits))
  rwa [← pow_add, Nat.add_sub_cancel' hle, ← P.q_eq] at hlt

/-- The keys as the server sees them. -/
def receivedKeys (profile : NativeProfile P) (keys : NativeKeys d) : NativeKeys d :=
  ⟨keys.id, keys.kg,
    keys.kh.map (roundPoly (2 ^ (P.qBits - profile.khBits)) (2 ^ profile.khBits))⟩

/-- The `h`-key is exact at full width. -/
theorem receivedKeys_full {profile : NativeProfile P} {keys : NativeKeys d}
    (hfull : profile.khBits = P.qBits) (hkeys : keys.Canonical q) :
    receivedKeys profile keys = keys := by
  have hmap : keys.kh.map (roundPoly (2 ^ (P.qBits - profile.khBits)) (2 ^ profile.khBits)) =
      keys.kh.map id :=
    List.map_inj_left.mpr fun a ha => by
      rw [hfull]
      exact roundPoly_full P (hkeys.kh_lt a ha)
  rw [receivedKeys, hmap, List.map_id]

theorem length_keyBytes {setup : NativePublicSetup P} {parts : RequestParts P}
    (hparts : parts.Fits setup) :
    (keyBytes setup.profile parts.keys).length = keysBytes setup.profile := by
  have hkg : (flatWords parts.keys.kg).length = P.ell * d := by
    rw [length_flatWords, hparts.length_kg]
  rw [keyBytes, keysBytes]
  by_cases htwo : setup.profile.twoMask = true
  · rw [if_pos htwo, if_pos htwo, length_encode, NativeKeys.kgWords, hkg]
  · have hkh : (flatWords parts.keys.kh).length = P.ell * d := by
      rw [length_flatWords, hparts.length_kh, if_neg htwo]
    have hwords : parts.keys.words.length = 2 * (P.ell * d) := by
      rw [NativeKeys.words, flatWords_append, List.length_append, hkg, hkh, two_mul]
    rw [if_neg htwo, if_neg htwo]
    split
    · rw [length_encode, hwords]
    · rw [List.length_append, length_encode, length_encode, length_down, List.length_take,
        List.length_drop, hwords, min_eq_left (by omega), two_mul, Nat.add_sub_cancel]

/-- **The key words survive the request.** -/
theorem parseKeyWords_ok (o : Overflow) {setup : NativePublicSetup P}
    (hprofile : setup.profile.Valid) {parts : RequestParts P} (hparts : parts.Fits setup)
    (rest : List UInt8) :
    parseKeyWords o setup.profile (fieldBytes (P.ell * d) (trailingZeros q))
        (keysBytes setup.profile) (keyBytes setup.profile parts.keys ++ rest) =
      .ok (flatWords (parts.keys.kg ++ (receivedKeys setup.profile parts.keys).kh)) := by
  have hlen := length_keyBytes hparts
  have hhalf := half_le P
  have hkg : (flatWords parts.keys.kg).length = P.ell * d := by
    rw [length_flatWords, hparts.length_kg]
  have hkglt : ∀ x ∈ flatWords parts.keys.kg, x < q :=
    fun x hx => lt_of_mem_flatWords hparts.canonical.kg_lt hx
  have hkhlt : ∀ x ∈ flatWords parts.keys.kh, x < q :=
    fun x hx => lt_of_mem_flatWords hparts.canonical.kh_lt hx
  rw [parseKeyWords]
  by_cases htwo : setup.profile.twoMask = true
  · -- one key, at full width
    have hnone : parts.keys.kh = [] := by
      apply List.eq_nil_of_length_eq_zero
      rw [hparts.length_kh, if_pos htwo]
    have hbytes : keyBytes setup.profile parts.keys =
        encode (flatWords parts.keys.kg) (trailingZeros q) := by
      rw [keyBytes, if_pos htwo, NativeKeys.kgWords]
    rw [if_pos htwo, List.take_left' hlen, hbytes, ← hkg, decode_words P o (by omega) hkglt,
      receivedKeys, hnone, List.map_nil, List.append_nil]
  · have hkh : (flatWords parts.keys.kh).length = P.ell * d := by
      rw [length_flatWords, hparts.length_kh, if_neg htwo]
    rw [if_neg htwo]
    by_cases hfull : setup.profile.requestMagic = asciiBytes "RNQ1"
    · -- both keys in one field at full width
      have hbits : setup.profile.khBits = trailingZeros q := by
        by_contra hne
        rw [requestMagic, if_neg htwo, if_neg hne] at hfull
        exact absurd hfull (by decide)
      have hbytes : keyBytes setup.profile parts.keys =
          encode (flatWords (parts.keys.kg ++ parts.keys.kh)) (trailingZeros q) := by
        rw [keyBytes, if_neg htwo, if_pos hfull, NativeKeys.words, hbits]
      have hlt : ∀ x ∈ flatWords (parts.keys.kg ++ parts.keys.kh), x < q := by
        intro x hx
        rw [flatWords_append] at hx
        exact (List.mem_append.mp hx).elim (hkglt x) (hkhlt x)
      have hwords : 2 * (P.ell * d) = (flatWords (parts.keys.kg ++ parts.keys.kh)).length := by
        rw [flatWords_append, List.length_append, hkg, hkh, two_mul]
      rw [if_pos hfull, List.take_left' hlen, hbytes, hbits, hwords,
        decode_words P o (by omega) hlt,
        receivedKeys_full (hbits.trans (trailingZeros_eq P)) hparts.canonical]
    · -- the first key at full width, then the second at its own
      have hpos : 0 < setup.profile.khBits ∧ setup.profile.khBits ≤ P.qBits := by
        have hq := P.qBits_ge
        rcases hprofile.khBits with hkh | hkh <;> omega
      obtain ⟨hdecode, hup⟩ := up_decode_down P o hpos.1 hpos.2 (by omega) hkhlt
      have hbytes : keyBytes setup.profile parts.keys =
          encode (flatWords parts.keys.kg) (trailingZeros q) ++
            encode (down (flatWords parts.keys.kh) q setup.profile.khBits)
              setup.profile.khBits := by
        rw [keyBytes, if_neg htwo, if_neg hfull, NativeKeys.words, flatWords_append,
          List.take_left' hkg, List.drop_left' hkg]
      have hfirst : (encode (flatWords parts.keys.kg) (trailingZeros q)).length =
          fieldBytes (P.ell * d) (trailingZeros q) := by rw [length_encode, hkg]
      have hsecond : (encode (down (flatWords parts.keys.kh) q setup.profile.khBits)
          setup.profile.khBits).length =
          keysBytes setup.profile - fieldBytes (P.ell * d) (trailingZeros q) := by
        rw [← hlen, hbytes, List.length_append, hfirst, Nat.add_sub_cancel_left]
      have hdecode' := decode_words P o (by omega) hkglt
      rw [hkh] at hdecode
      rw [hkg] at hdecode'
      rw [if_neg hfull, hbytes, List.append_assoc, List.take_left' hfirst, List.drop_left' hfirst,
        List.take_left' hsecond, hdecode', ok_bind, hdecode, ok_bind, hup, map_flatWords,
        flatWords_append]
      rfl

/-- **The keys survive the request.** -/
theorem parseKeys_ok {setup : NativePublicSetup P} (hprofile : setup.profile.Valid)
    {parts : RequestParts P} (hparts : parts.Fits setup) :
    (if setup.profile.twoMask then NativeKeys.fromKgWords setup.packing
        (flatWords (parts.keys.kg ++ (receivedKeys setup.profile parts.keys).kh))
      else NativeKeys.fromWords setup.packing
        (flatWords (parts.keys.kg ++ (receivedKeys setup.profile parts.keys).kh))) =
      .ok (receivedKeys setup.profile parts.keys) := by
  have hlt : ∀ a ∈ parts.keys.kg ++ (receivedKeys setup.profile parts.keys).kh, ∀ i, a i < q := by
    intro a ha
    rcases List.mem_append.mp ha with ha | ha
    · exact hparts.canonical.kg_lt a ha
    · obtain ⟨b, -, rfl⟩ := List.mem_map.mp ha
      have hle : setup.profile.khBits ≤ P.qBits := by
        rcases hprofile.khBits with hkh | hkh <;> omega
      exact roundPoly_lt P hle b
  have hcanonical : ¬∃ x ∈ flatWords
      (parts.keys.kg ++ (receivedKeys setup.profile parts.keys).kh), x ≥ q := by
    rintro ⟨x, hx, hge⟩
    exact absurd (lt_of_mem_flatWords hlt hx) (not_lt.mpr hge)
  have hlen : (receivedKeys setup.profile parts.keys).kh.length = parts.keys.kh.length :=
    List.length_map _
  have hwords : (flatWords
      (parts.keys.kg ++ (receivedKeys setup.profile parts.keys).kh)).length =
        (P.ell + parts.keys.kh.length) * d := by
    rw [length_flatWords, List.length_append, hlen, hparts.length_kg]
  have hid := hparts.id_eq
  have hkh := hparts.length_kh
  by_cases htwo : setup.profile.twoMask = true
  · rw [if_pos htwo] at hkh ⊢
    have hnone : (receivedKeys setup.profile parts.keys).kh = [] :=
      List.eq_nil_of_length_eq_zero (hlen.trans hkh)
    rw [NativeKeys.fromKgWords, if_neg, chunksExact_flatWords P.d_pos, hnone,
      List.append_nil, ← hid]
    · rw [receivedKeys] at hnone ⊢
      dsimp only at hnone
      rw [hnone]
    · rintro (hne | hge)
      · rw [hwords, hkh, add_zero] at hne
        exact hne rfl
      · exact hcanonical hge
  · rw [if_neg htwo] at hkh ⊢
    rw [NativeKeys.fromWords, if_neg]
    · dsimp only
      rw [chunksExact_flatWords P.d_pos, List.take_left' hparts.length_kg,
        List.drop_left' hparts.length_kg, ← hid]
      rfl
    · rintro (hne | hge)
      · rw [hwords, hkh, ← two_mul] at hne
        exact hne rfl
      · exact hcanonical hge

/-! ## The selection -/

/-- The selection as the server sees it: the plain rounding, or the dithered one with the words of
the generator after the sampling of the request. -/
def receivedQuery (gen : Generator R) (profile : NativeProfile P) (query : List ℕ) (rng : R) :
    List ℕ :=
  let step := 2 ^ (P.qBits - profile.queryBits)
  let levels := 2 ^ profile.queryBits
  if profile.ditheredQuery then
    List.zipWith (fun word x => dithered step levels (word % step) x)
      (drawWords gen query.length rng) query
  else query.map (nearest step levels)

theorem Valid.queryBits_le_qBits {profile : NativeProfile P} (h : profile.Valid) :
    profile.queryBits ≤ P.qBits := h.queryBits_le.trans (min_le_right _ _)

/-- **The selection survives the request.** -/
theorem parseQuery_ok (o : Overflow) (gen : Generator R) {profile : NativeProfile P}
    (hprofile : profile.Valid) {query : List ℕ} (hlen : query.length = profile.rows)
    (hquery : ∀ x ∈ query, x < q) (rng : R) :
    decode o (encode (roundQuery gen profile query rng).1 profile.queryBits) query.length
        profile.queryBits = .ok (roundQuery gen profile query rng).1 ∧
      up (roundQuery gen profile query rng).1 q profile.queryBits =
        receivedQuery gen profile query rng := by
  have hle := Valid.queryBits_le_qBits hprofile
  have hbits := P.qBits_le
  have hrows : query.length ≤ 2 ^ 32 := hlen ▸ (Valid.rows_le hprofile).trans (by norm_num)
  rw [roundQuery, receivedQuery]
  by_cases hdither : profile.ditheredQuery = true
  · rw [if_pos hdither, if_pos hdither]
    constructor
    · have hfit : (downDithered gen q profile.queryBits query rng).1.length *
          profile.queryBits < 2 ^ 64 := by
        rw [length_downDithered]
        exact fields_fit hrows (by omega)
      have hdecode := decode_encode o hprofile.queryBits_pos (by omega) hfit
        (downDithered_lt gen q profile.queryBits query rng)
      rwa [length_downDithered] at hdecode
    · have hup := up_downDithered gen (by omega) hle query rng
      rwa [← P.q_eq] at hup
  · rw [if_neg hdither, if_neg hdither]
    exact up_decode_down P o hprofile.queryBits_pos hle hrows hquery

theorem receivedQuery_lt (gen : Generator R) {profile : NativeProfile P} (hprofile : profile.Valid)
    (query : List ℕ) (rng : R) : ∀ y ∈ receivedQuery gen profile query rng, y < q := by
  have hle := Valid.queryBits_le_qBits hprofile
  have hwrap (u : ℕ) : u % 2 ^ profile.queryBits * 2 ^ (P.qBits - profile.queryBits) < q := by
    have hlt := wrap_lt (Nat.two_pow_pos profile.queryBits)
      (Nat.two_pow_pos (P.qBits - profile.queryBits)) u
    rwa [← pow_add, Nat.add_sub_cancel' hle, ← P.q_eq] at hlt
  intro y hy
  rw [receivedQuery] at hy
  split at hy
  · rw [← List.map_uncurry_zip_eq_zipWith] at hy
    obtain ⟨⟨word, x⟩, -, rfl⟩ := List.mem_map.mp hy
    exact hwrap _
  · obtain ⟨x, -, rfl⟩ := List.mem_map.mp hy
    exact hwrap _

/-! ## Requests -/

theorem length_requestMagic (profile : NativeProfile P) : profile.requestMagic.length = 4 := by
  rw [requestMagic]
  split
  · rfl
  · split <;> rfl

/-- **An encoded request is parsed.** -/
theorem parseRequest_encode (o : Overflow) (prim : Primitives) (gen : Generator R)
    {setup : NativePublicSetup P} (hprofile : setup.profile.Valid) {parts : RequestParts P}
    (hparts : parts.Fits setup) (rng : R) :
    parseRequest o setup (encodeRequest prim setup parts
        (roundQuery gen setup.profile parts.query rng).1).bytes =
      .ok (receivedKeys setup.profile parts.keys,
        receivedQuery gen setup.profile parts.query rng) := by
  obtain ⟨hdecode, hup⟩ :=
    parseQuery_ok o gen hprofile hparts.length_query hparts.query_lt rng
  rw [hparts.length_query] at hdecode
  have hmagic := length_requestMagic setup.profile
  have hid : (List.ofFn setup.id).length = 32 := List.length_ofFn
  have hkeys := length_keyBytes hparts
  have hrounded : (roundQuery gen setup.profile parts.query rng).1.length =
      setup.profile.rows := by
    rw [← hparts.length_query, roundQuery]
    split
    · exact length_downDithered _ _ _ _ _
    · exact length_down _ _ _
  set query := encode (roundQuery gen setup.profile parts.query rng).1 setup.profile.queryBits
    with hquery
  have hqueryLen : query.length = fieldBytes setup.profile.rows setup.profile.queryBits := by
    rw [hquery, length_encode, hrounded]
  have hbytes : (encodeRequest prim setup parts
      (roundQuery gen setup.profile parts.query rng).1).bytes =
      setup.profile.requestMagic ++ (List.ofFn setup.id ++
        (keyBytes setup.profile parts.keys ++ query)) := by
    rw [encodeRequest, List.append_assoc, List.append_assoc]
  have hhead : (setup.profile.requestMagic ++ List.ofFn setup.id).length = 36 := by
    rw [List.length_append, hmagic, hid]
  have htail : (setup.profile.requestMagic ++ List.ofFn setup.id ++
      keyBytes setup.profile parts.keys).length = 36 + keysBytes setup.profile := by
    rw [List.length_append, hhead, hkeys]
  have hprepared : preparedU16Query (receivedQuery gen setup.profile parts.query rng) q =
      .ok (receivedQuery gen setup.profile parts.query rng) := by
    rw [preparedU16Query, if_neg]
    rintro (hpow | hrange | ⟨x, hx, hge⟩)
    · exact hpow P.isPowerOfTwo
    · exact hrange ⟨(by decide : 2 ≤ 2 ^ 16).trans P.le_q, P.q_le⟩
    · exact absurd (receivedQuery_lt gen hprofile _ _ x hx) (not_lt.mpr hge)
  rw [parseRequest_eq o hprofile, hbytes, parseFields, if_neg]
  · have hbody : (setup.profile.requestMagic ++ (List.ofFn setup.id ++
        (keyBytes setup.profile parts.keys ++ query))).drop 36 =
        keyBytes setup.profile parts.keys ++ query := by
      rw [← List.append_assoc, List.drop_left' hhead]
    have hlast : (setup.profile.requestMagic ++ (List.ofFn setup.id ++
        (keyBytes setup.profile parts.keys ++ query))).drop (36 + keysBytes setup.profile) =
        query := by
      rw [← List.append_assoc, ← List.append_assoc, List.drop_left' htail]
    rw [hbody, hlast, parseKeyWords_ok o hprofile hparts, ok_bind, parseKeys_ok hprofile hparts,
      ok_bind, hdecode, ok_bind, hup, hprepared, ok_bind]
  · rintro (hlen | hne | hne)
    · apply hlen
      rw [List.length_append, List.length_append, List.length_append, hmagic, hid, hkeys, hqueryLen]
      omega
    · exact hne (List.take_left' hmagic)
    · apply hne
      rw [List.drop_left' hmagic, List.take_left' hid]

/-- How the server's selection agrees with the client's: the nearest multiple, or the dithered
rounding with the low bits of the next words of the generator as coins. -/
structure SelectionAgrees (gen : Generator R) (profile : NativeProfile P) (rng : R)
    (selection query : List ℕ) : Prop where
  nearest : profile.ditheredQuery = false →
    List.Forall₂ (IsNearest (2 ^ (P.qBits - profile.queryBits)) q) selection query
  dithered : profile.ditheredQuery = true → query = List.zipWith
    (fun word x => Rounding.dithered (2 ^ (P.qBits - profile.queryBits)) (2 ^ profile.queryBits)
      (word % 2 ^ (P.qBits - profile.queryBits)) x) (drawWords gen selection.length rng) selection
  fair : profile.ditheredQuery = true → ∀ x ∈ selection,
    IsFair (2 ^ (P.qBits - profile.queryBits)) (2 ^ profile.queryBits) q x

theorem two_le_levels {bits : ℕ} (hpos : 0 < bits) : 2 ≤ 2 ^ bits :=
  Nat.le_self_pow hpos.ne' 2

/-- Rounded words are the nearest ones. -/
theorem forall₂_isNearest (P : NativeParams d q) {bits : ℕ} (hpos : 0 < bits)
    (hle : bits ≤ P.qBits) (words : List ℕ) :
    List.Forall₂ (IsNearest (2 ^ (P.qBits - bits)) q) words
      (words.map (nearest (2 ^ (P.qBits - bits)) (2 ^ bits))) := by
  rw [List.forall₂_map_right_iff, List.forall₂_same]
  intro x _
  have hnearest := nearest_isNearest (two_le_levels hpos) (Nat.two_pow_pos (P.qBits - bits)) x
  rwa [levels_mul_step P hle] at hnearest

theorem receivedQuery_agrees (gen : Generator R) {profile : NativeProfile P}
    (hprofile : profile.Valid) (selection : List ℕ) (rng : R) :
    SelectionAgrees gen profile rng selection (receivedQuery gen profile selection rng) where
  nearest hplain := by
    rw [receivedQuery, hplain, if_neg Bool.false_ne_true]
    exact forall₂_isNearest P hprofile.queryBits_pos (Valid.queryBits_le_qBits hprofile) selection
  dithered hdither := by rw [receivedQuery, if_pos hdither]
  fair _ x _ := by
    have hfair := isFair (two_le_levels hprofile.queryBits_pos)
      (Nat.two_pow_pos (P.qBits - profile.queryBits)) x
    rwa [levels_mul_step P (Valid.queryBits_le_qBits hprofile)] at hfair

/-- **Client and server agree on the request**, for every profile, setup, row and state of the
generator: the server recovers the `g`-key exactly, the `h`-key up to its rounding and the selection
up to its own, and refuses bytes of another length, with another magic or of another setup. -/
theorem parse_generate (o : Overflow) {prim : Primitives} {lib : NumberTheory} {gen : Generator R}
    {setup : NativePublicSetup P} (hprofile : setup.profile.Reachable) {target : ℕ} {rng rng' : R}
    {request : NativeRequest P}
    (h : NativeRequest.generateWithRng prim lib gen setup target rng = .ok (request, rng')) :
    (∃ parts rng₁ keys query, drawParts lib gen setup target rng = .ok (parts, rng₁) ∧
      request.secret = parts.secret ∧ parseRequest o setup request.bytes = .ok (keys, query) ∧
      keys.id = setup.packing.id ∧ keys.kg = parts.keys.kg ∧
      flatWords keys.kh = up (down (flatWords parts.keys.kh) q setup.profile.khBits) q
        setup.profile.khBits ∧
      List.Forall₂ (IsNearest (2 ^ (P.qBits - setup.profile.khBits)) q)
        (flatWords parts.keys.kh) (flatWords keys.kh) ∧
      (setup.profile.khBits = P.qBits → keys.kh = parts.keys.kh) ∧
      SelectionAgrees gen setup.profile rng₁ parts.query query) ∧
    ∀ bytes : List UInt8, bytes.length ≠ request.bytes.length ∨
      bytes.take 4 ≠ setup.profile.requestMagic ∨
      (bytes.drop 4).take 32 ≠ List.ofFn setup.id →
      parseRequest o setup bytes = invalidParams "request/profile/setup mismatch" := by
  have hvalid := hprofile.valid
  obtain ⟨-, parts, rng₁, hdraw, hparts, rfl⟩ := generate_spec hvalid h
  have hparse := parseRequest_encode o prim gen hvalid hparts rng₁
  have hkh : 0 < setup.profile.khBits ∧ setup.profile.khBits ≤ P.qBits := by
    have hq := P.qBits_ge
    rcases hvalid.khBits with hkh | hkh <;> omega
  have hlt : ∀ x ∈ flatWords parts.keys.kh, x < q :=
    fun x hx => lt_of_mem_flatWords hparts.canonical.kh_lt hx
  -- the words of the received `h`-key
  have hwords : flatWords (receivedKeys setup.profile parts.keys).kh =
      (flatWords parts.keys.kh).map
        (nearest (2 ^ (P.qBits - setup.profile.khBits)) (2 ^ setup.profile.khBits)) :=
    (map_flatWords _ _).symm
  constructor
  · refine ⟨parts, rng₁, _, _, hdraw, rfl, hparse, hparts.id_eq, rfl, ?_, ?_, fun hfull => ?_,
      receivedQuery_agrees gen hvalid parts.query rng₁⟩
    · have hlen : (flatWords parts.keys.kh).length ≤ 2 ^ 32 := by
        rw [length_flatWords, hparts.length_kh]
        have hhalf := half_le P
        split <;> omega
      rw [hwords, (up_decode_down P o hkh.1 hkh.2 hlen hlt).2]
    · rw [hwords]
      exact forall₂_isNearest P hkh.1 hkh.2 _
    · rw [receivedKeys_full hfull hparts.canonical]
  · intro bytes hbytes
    -- the request itself passed the check of its length
    have hlen : (encodeRequest prim setup parts
        (roundQuery gen setup.profile parts.query rng₁).1).bytes.length =
        36 + keysBytes setup.profile + fieldBytes setup.profile.rows setup.profile.queryBits := by
      by_contra hne
      rw [parseRequest_eq o hvalid, parseFields, if_pos (Or.inl hne)] at hparse
      cases hparse
    rw [hlen] at hbytes
    rw [parseRequest_eq o hvalid, parseFields, if_pos hbytes]

/-- A request of the dithered two-mask profile is parsed. -/
theorem parse_generate_small : ∃ request rng',
    NativeRequest.generateWithRng smallPrimitives nativeNumberTheory counterGenerator ditherSetup 1
      0 = .ok (request, rng') ∧
    ∀ o, ∃ keys query, parseRequest o ditherSetup request.bytes = .ok (keys, query) := by
  obtain ⟨lift, hlift⟩ := liftContext_new_dither
  obtain ⟨request, rng', hrequest⟩ := returns_generate smallPrimitives
    counterGenerator_bounded ditherProfile_reachable.valid hlift
      (show 1 < ditherSetup.profile.rows by decide) 0
  refine ⟨request, rng', hrequest, fun o => ?_⟩
  obtain ⟨⟨-, -, keys, query, -, -, hparse, -⟩, -⟩ :=
    parse_generate o ditherProfile_reachable hrequest
  exact ⟨keys, query, hparse⟩

end NativeServer
