import IpirSp.Inspiring.BodyCollapse
import IpirSp.Inspiring.Preprocess
import IpirSp.NativeClient.Wire
import Mathlib.Data.Nat.Size

/-!
# Request bodies

A request of the odd-modulus protocol is the two packing-key bodies at the width of the modulus,
followed by the rounded query at the width of the profile.  Client and server compute the place
where the two meet on their own.  A body is stored in fields that also fit words above the modulus,
so the parser checks every residue; what it does not check are the bits after the last field.
-/

namespace SimplePir

open Inspiring Reinspiring SpiralRs Codec Loops NativeClient

/-- `modulus_bits`, for a modulus above one. -/
def modulusBits (modulus : ℕ) : ℕ := (modulus - 1).size

/-- `query_coeff_down`. -/
def queryCoeffDown (coeff q bits : ℕ) : ℕ :=
  if bits ≥ modulusBits q then coeff
  else
    let target := 2 ^ bits
    let scaled := (coeff * target + q / 2) / q
    scaled &&& (target - 1)

/-- `IPIRSimpleQuery`. -/
structure IPIRSimpleQuery where
  firstDim : List ℕ

/-- `to_switched_bytes`. -/
def IPIRSimpleQuery.toSwitchedBytes (query : IPIRSimpleQuery) (modulus bits : ℕ) : List UInt8 :=
  u64sToContiguousBytes (query.firstDim.map fun coeff => queryCoeffDown coeff modulus bits) bits

/-- `YpirSchemeParams`, as far as a request depends on it. -/
structure YpirSchemeParams where
  dbRows : ℕ
  queryBits : ℕ

section Params

variable (P : RlweParams)

/-- `packing_key_body_u64_len`. -/
def packingKeyBodyU64Len : ℕ := P.gadget.ell * P.d

/-- `serialized_packing_keys_len`. -/
def serializedPackingKeysLen : ℕ := (2 * packingKeyBodyU64Len P * modulusBits P.q + 7) / 8

/-- `serialized_fresh_query_len`. -/
def serializedFreshQueryLen (ypir : YpirSchemeParams) : ℕ :=
  serializedPackingKeysLen P + (ypir.dbRows * ypir.queryBits + 7) / 8

/-- `as_slice`. -/
def asSlice (body : PolyMatrixNTT P.d P.q) : List ℕ :=
  (List.range (body.rows * body.cols)).flatMap fun i =>
    List.ofFn (body.poly (i / body.cols) (i % body.cols)).word

/-- `validate_packing_key_body`. -/
def validatePackingKeyBody (body : PolyMatrixNTT P.d P.q) (label : String) : Outcome Unit :=
  if body.rows ≠ 1 ∨ body.cols ≠ P.gadget.ell then
    mismatch s!"{label} must have shape 1x{P.gadget.ell}, got {body.rows}x{body.cols}"
  else if (asSlice P body).length ≠ packingKeyBodyU64Len P then
    mismatch (s!"{label} coefficient length must be {packingKeyBodyU64Len P}, " ++
      s!"got {(asSlice P body).length}")
  else
    match (asSlice P body).find? (· ≥ P.q) with
    | some bad =>
        mismatch s!"{label} contains coefficient {bad} which is not reduced modulo q={P.q}"
    | none => .ok ()

/-- `serialize_packing_keys`. -/
def serializePackingKeys (keys : PackingKeys P) : Outcome (List UInt8) := do
  validatePackingKeyBody P keys.kgBody "packing key K_g body"
  validatePackingKeyBody P keys.khBody "packing key K_h body"
  .ok (u64sToContiguousBytes (asSlice P keys.kgBody ++ asSlice P keys.khBody) (modulusBits P.q))

/-- `packing_key_body_from_coeffs`, with the check of the body that it builds. -/
def packingKeyBodyFromCoeffs (coeffs : List ℕ) (label : String) :
    Outcome (PolyMatrixNTT P.d P.q) :=
  if coeffs.length ≠ packingKeyBodyU64Len P then
    mismatch (s!"{label} coefficient length must be {packingKeyBodyU64Len P}, " ++
      s!"got {coeffs.length}")
  else
    match hfind : coeffs.find? (· ≥ P.q) with
    | some bad =>
        mismatch s!"{label} contains coefficient {bad} which is not reduced modulo q={P.q}"
    | none => .ok (PolyMatrixNTT.ofRow P.gadget.ell fun c => {
        word := fun s => coeffs.getD (c * P.d + s) 0
        lt := fun s => by
          have hlt : ∀ x ∈ coeffs, x < P.q := by simpa using hfind
          by_cases hs : c * P.d + s < coeffs.length
          · rw [List.getD_eq_getElem _ _ hs]
            exact hlt _ (List.getElem_mem hs)
          · rw [List.getD_eq_default _ _ (not_lt.mp hs)]
            exact P.q_pos })

/-- `contiguous_bytes_to_u64s`, which returns or panics. -/
def unpackFields (data : List UInt8) (bits : ℕ) : Outcome (List ℕ) :=
  match contiguousBytesToU64s data bits with
  | .ok fields => .ok fields
  | .error (.panic msg) => .error (.panic msg)
  | .error (.err _) => .error (.panic "contiguous_bytes_to_u64s has no error")

/-- `deserialize_packing_keys`. -/
def deserializePackingKeys (data : List UInt8) : Outcome (PackingKeys P) :=
  if data.length ≠ serializedPackingKeysLen P then
    mismatch (s!"serialized packing keys must be {serializedPackingKeysLen P} bytes, " ++
      s!"got {data.length}")
  else do
    let coeffs ← unpackFields data (modulusBits P.q)
    let bodyLen := packingKeyBodyU64Len P
    if coeffs.length < 2 * bodyLen then
      mismatch (s!"serialized packing keys hold {coeffs.length} coefficients, " ++
        s!"expected {2 * bodyLen}")
    else do
      let kgBody ← packingKeyBodyFromCoeffs P (coeffs.take bodyLen) "packing key K_g body"
      let khBody ← packingKeyBodyFromCoeffs P ((coeffs.take (2 * bodyLen)).drop bodyLen)
        "packing key K_h body"
      .ok ⟨kgBody, khBody⟩

/-- The errors of the backend. -/
inductive BackendError
  | bail (msg : String)
  | context (msg : String) (source : Failure InspiringError)

/-- `parse_fresh_query`. -/
def parseFreshQuery (ypir : YpirSchemeParams) (query : List UInt8) :
    Except BackendError (PackingKeys P × List UInt8) :=
  let packingKeysLen := serializedPackingKeysLen P
  let expectedLen := serializedFreshQueryLen P ypir
  if query.length ≠ expectedLen then
    .error (.bail
      s!"local-ipir reference query must be {expectedLen} bytes, got {query.length}")
  else
    match deserializePackingKeys P (query.take packingKeysLen) with
    | .error e => .error (.context "deserialize local-ipir packing keys" e)
    | .ok packingKeys => .ok (packingKeys, query.drop packingKeysLen)

end Params

/-! ## Widths -/

theorem modulusBits_pos_of_lt {q : ℕ} (hq : 1 < q) : 0 < modulusBits q := by
  rw [modulusBits, Nat.size_pos]
  omega

theorem modulusBits_le_of_lt {q : ℕ} (hq : q < 2 ^ 64) : modulusBits q ≤ 64 := by
  rw [modulusBits, Nat.size_le]
  omega

theorem modulusBits_pos (P : RlweParams) : 0 < modulusBits P.q :=
  modulusBits_pos_of_lt (lt_of_lt_of_le (by decide) P.three_le_q)

theorem modulusBits_le (P : RlweParams) : modulusBits P.q ≤ 64 :=
  modulusBits_le_of_lt P.spiral.modulus_lt

/-- Every residue fits the width. -/
theorem lt_two_pow_modulusBits {q x : ℕ} (hx : x < q) : x < 2 ^ modulusBits q := by
  have hsize := Nat.lt_size_self (q - 1)
  rw [modulusBits]
  omega

/-! ## Bodies -/

section Bodies

variable {P : RlweParams}

/-- The words of a body, entry after entry. -/
theorem asSlice_eq {body : PolyMatrixNTT P.d P.q} (hshape : BodyShape body P.gadget.ell) :
    asSlice P body =
      flatWords ((List.range P.gadget.ell).map fun c => (body.poly 0 c).word) := by
  obtain ⟨hrows, hcols⟩ := hshape
  rw [asSlice, hrows, hcols, one_mul, flatWords, List.flatMap_map]
  refine List.flatMap_congr fun c hc => ?_
  have hlt := List.mem_range.mp hc
  rw [Nat.div_eq_of_lt hlt, Nat.mod_eq_of_lt hlt]

theorem length_asSlice {body : PolyMatrixNTT P.d P.q} (hshape : BodyShape body P.gadget.ell) :
    (asSlice P body).length = packingKeyBodyU64Len P := by
  rw [asSlice_eq hshape, length_flatWords, List.length_map, List.length_range]
  rfl

theorem asSlice_lt (body : PolyMatrixNTT P.d P.q) : ∀ x ∈ asSlice P body, x < P.q := by
  intro x hx
  obtain ⟨i, -, hx⟩ := List.mem_flatMap.mp hx
  obtain ⟨s, rfl⟩ := (List.mem_ofFn' _ _).mp hx
  exact (body.poly _ _).lt s

/-- A body passes its check exactly if it has the shape of a key body. -/
theorem validatePackingKeyBody_ok_iff (body : PolyMatrixNTT P.d P.q) (label : String) :
    validatePackingKeyBody P body label = .ok () ↔ BodyShape body P.gadget.ell := by
  rw [validatePackingKeyBody]
  constructor
  · intro h
    split at h
    · cases h
    · rename_i hshape
      obtain ⟨hrows, hcols⟩ := not_or.mp hshape
      exact ⟨not_not.mp hrows, not_not.mp hcols⟩
  · intro hshape
    have hfind : (asSlice P body).find? (· ≥ P.q) = none := by
      simpa using asSlice_lt body
    rw [if_neg (by
      rintro (hne | hne)
      · exact hne hshape.1
      · exact hne hshape.2), if_neg (not_not.mpr (length_asSlice hshape)), hfind]

/-- What a body is built from. -/
theorem packingKeyBodyFromCoeffs_ok {coeffs : List ℕ} {label : String}
    {body : PolyMatrixNTT P.d P.q} (h : packingKeyBodyFromCoeffs P coeffs label = .ok body) :
    BodyShape body P.gadget.ell ∧ asSlice P body = coeffs ∧ ∀ x ∈ coeffs, x < P.q := by
  rw [packingKeyBodyFromCoeffs] at h
  split at h
  · cases h
  rename_i hlen
  split at h
  · cases h
  rename_i hfind
  obtain rfl := Except.ok.inj h
  have hd := P.d_pos
  have hcoeffs : coeffs.length = P.gadget.ell * P.d := not_not.mp hlen
  have hcount : coeffs.length / P.d = P.gadget.ell := by rw [hcoeffs, Nat.mul_div_cancel _ hd]
  have hdvd : P.d ∣ coeffs.length := ⟨P.gadget.ell, by rw [hcoeffs, mul_comm]⟩
  have hwords := flatWords_chunksExact hdvd hd
  rw [chunksExact, hcount] at hwords
  refine ⟨⟨rfl, rfl⟩, ?_, by simpa using hfind⟩
  rw [asSlice_eq ⟨rfl, rfl⟩]
  exact hwords

/-- **A body is built** from as many residues as it has. -/
theorem exists_packingKeyBody {coeffs : List ℕ} (label : String)
    (hlen : coeffs.length = packingKeyBodyU64Len P) (hlt : ∀ x ∈ coeffs, x < P.q) :
    ∃ body, packingKeyBodyFromCoeffs P coeffs label = .ok body := by
  have hfind : coeffs.find? (· ≥ P.q) = none := by simpa using hlt
  rw [packingKeyBodyFromCoeffs, if_neg (not_not.mpr hlen)]
  split
  · rename_i hbad
    rw [hfind] at hbad
    cases hbad
  · exact ⟨_, rfl⟩

/-- The bodies of two keys have the same shape and the same words. -/
structure SameBodies (keys keys' : PackingKeys P) : Prop where
  kgShape : BodyShape keys.kgBody P.gadget.ell ∧ BodyShape keys'.kgBody P.gadget.ell
  khShape : BodyShape keys.khBody P.gadget.ell ∧ BodyShape keys'.khBody P.gadget.ell
  kgWords : asSlice P keys'.kgBody = asSlice P keys.kgBody
  khWords : asSlice P keys'.khBody = asSlice P keys.khBody

/-! ## Keys -/

/-- The words of both bodies. -/
def keyWords (keys : PackingKeys P) : List ℕ := asSlice P keys.kgBody ++ asSlice P keys.khBody

theorem keyWords_lt (keys : PackingKeys P) : ∀ x ∈ keyWords keys, x < P.q := by
  intro x hx
  rcases List.mem_append.mp hx with hx | hx
  · exact asSlice_lt _ x hx
  · exact asSlice_lt _ x hx

/-- What is serialized. -/
theorem serializePackingKeys_ok_iff {keys : PackingKeys P} {bytes : List UInt8} :
    serializePackingKeys P keys = .ok bytes ↔
      BodyShape keys.kgBody P.gadget.ell ∧ BodyShape keys.khBody P.gadget.ell ∧
        bytes = u64sToContiguousBytes (keyWords keys) (modulusBits P.q) := by
  constructor
  · intro h
    obtain ⟨_, hkg, h⟩ := bind_eq_ok h
    obtain ⟨_, hkh, h⟩ := bind_eq_ok h
    exact ⟨(validatePackingKeyBody_ok_iff _ _).mp hkg, (validatePackingKeyBody_ok_iff _ _).mp hkh,
      (Except.ok.inj h).symm⟩
  · rintro ⟨hkg, hkh, rfl⟩
    rw [serializePackingKeys, (validatePackingKeyBody_ok_iff _ _).mpr hkg, ok_bind,
      (validatePackingKeyBody_ok_iff _ _).mpr hkh, ok_bind]
    rfl

theorem length_keyWords {keys : PackingKeys P} (hkg : BodyShape keys.kgBody P.gadget.ell)
    (hkh : BodyShape keys.khBody P.gadget.ell) :
    (keyWords keys).length = 2 * packingKeyBodyU64Len P := by
  rw [keyWords, List.length_append, length_asSlice hkg, length_asSlice hkh, two_mul]

/-- The fields of a string of key bodies. -/
theorem exists_fields {data : List UInt8} (hlen : data.length = serializedPackingKeysLen P) :
    ∃ fields, contiguousBytesToU64s data (modulusBits P.q) = .ok fields ∧
      2 * packingKeyBodyU64Len P ≤ fields.length := by
  obtain ⟨fields, hfields, hcount, -⟩ :=
    contiguousBytesToU64s_ok data (modulusBits_pos P) (modulusBits_le P)
  refine ⟨fields, hfields, ?_⟩
  rw [hcount, hlen]
  exact le_fields (2 * packingKeyBodyU64Len P) (modulusBits_pos P)

/-- **What is deserialized**: the fields of the string, if they are all residues. -/
theorem deserializePackingKeys_ok {data : List UInt8} {keys : PackingKeys P}
    (h : deserializePackingKeys P data = .ok keys) :
    data.length = serializedPackingKeysLen P ∧
      ∃ fields, contiguousBytesToU64s data (modulusBits P.q) = .ok fields ∧
        2 * packingKeyBodyU64Len P ≤ fields.length ∧
        keyWords keys = fields.take (2 * packingKeyBodyU64Len P) ∧
        BodyShape keys.kgBody P.gadget.ell ∧ BodyShape keys.khBody P.gadget.ell := by
  rw [deserializePackingKeys] at h
  split at h
  · cases h
  rename_i hlen
  obtain ⟨fields, hfields, hcount⟩ := exists_fields (not_not.mp hlen)
  rw [unpackFields, hfields, ok_bind, if_neg (not_lt.mpr hcount)] at h
  obtain ⟨kgBody, hkg, h⟩ := bind_eq_ok h
  obtain ⟨khBody, hkh, h⟩ := bind_eq_ok h
  obtain rfl := Except.ok.inj h
  obtain ⟨hkgShape, hkgWords, -⟩ := packingKeyBodyFromCoeffs_ok hkg
  obtain ⟨hkhShape, hkhWords, -⟩ := packingKeyBodyFromCoeffs_ok hkh
  refine ⟨not_not.mp hlen, fields, hfields, hcount, ?_, hkgShape, hkhShape⟩
  have hfirst : fields.take (packingKeyBodyU64Len P) =
      (fields.take (2 * packingKeyBodyU64Len P)).take (packingKeyBodyU64Len P) := by
    rw [List.take_take, min_eq_left (by omega)]
  rw [keyWords, hkgWords, hkhWords, hfirst, List.take_append_drop]

/-- **Fields that are residues are accepted.** -/
theorem exists_deserializePackingKeys {data : List UInt8}
    (hlen : data.length = serializedPackingKeysLen P) {fields : List ℕ}
    (hfields : contiguousBytesToU64s data (modulusBits P.q) = .ok fields)
    (hlt : ∀ x ∈ fields.take (2 * packingKeyBodyU64Len P), x < P.q) :
    ∃ keys, deserializePackingKeys P data = .ok keys := by
  obtain ⟨fields', hfields', hcount⟩ := exists_fields hlen
  obtain rfl := Except.ok.inj (hfields.symm.trans hfields')
  have hkgLen : (fields.take (packingKeyBodyU64Len P)).length = packingKeyBodyU64Len P := by
    rw [List.length_take]
    omega
  have hkhLen : ((fields.take (2 * packingKeyBodyU64Len P)).drop (packingKeyBodyU64Len P)).length =
      packingKeyBodyU64Len P := by
    rw [List.length_drop, List.length_take]
    omega
  obtain ⟨kgBody, hkg⟩ := exists_packingKeyBody "packing key K_g body" hkgLen fun x hx =>
    hlt x ((List.take_subset_take_left fields (by omega)) hx)
  obtain ⟨khBody, hkh⟩ := exists_packingKeyBody "packing key K_h body" hkhLen fun x hx =>
    hlt x (List.mem_of_mem_drop hx)
  refine ⟨⟨kgBody, khBody⟩, ?_⟩
  rw [deserializePackingKeys, if_neg (not_not.mpr hlen), unpackFields, hfields, ok_bind,
    if_neg (not_lt.mpr hcount), hkg, ok_bind, hkh, ok_bind]

/-- **Serialized keys are read back.** -/
theorem deserialize_serialize {keys : PackingKeys P} {bytes : List UInt8}
    (h : serializePackingKeys P keys = .ok bytes) :
    bytes.length = serializedPackingKeysLen P ∧
      ∃ keys', deserializePackingKeys P bytes = .ok keys' ∧ SameBodies keys keys' := by
  obtain ⟨hkg, hkh, rfl⟩ := serializePackingKeys_ok_iff.mp h
  have hwords := length_keyWords hkg hkh
  have hlen : (u64sToContiguousBytes (keyWords keys) (modulusBits P.q)).length =
      serializedPackingKeysLen P := by
    rw [length_u64sToContiguousBytes, hwords]
    rfl
  obtain ⟨fields, hfields, -, htake⟩ := take_fields (modulusBits_pos P) (modulusBits_le P)
    fun w hw => lt_two_pow_modulusBits (keyWords_lt keys w hw)
  rw [hwords] at htake
  obtain ⟨keys', hkeys'⟩ := exists_deserializePackingKeys hlen hfields (by
    rw [htake]
    exact keyWords_lt keys)
  refine ⟨hlen, keys', hkeys', ?_⟩
  obtain ⟨-, fields', hfields', -, hwords', hkg', hkh'⟩ := deserializePackingKeys_ok hkeys'
  obtain rfl := Except.ok.inj (hfields.symm.trans hfields')
  rw [htake] at hwords'
  obtain ⟨hkgWords, hkhWords⟩ := List.append_inj hwords' (by
    rw [length_asSlice hkg, length_asSlice hkg'])
  exact ⟨⟨hkg, hkg'⟩, ⟨hkh, hkh'⟩, hkgWords, hkhWords⟩

/-- **Accepted keys are serialized to the accepted string**, up to the bits after the last field. -/
theorem serialize_deserialize {data : List UInt8} {keys : PackingKeys P}
    (h : deserializePackingKeys P data = .ok keys) :
    ∃ data', serializePackingKeys P keys = .ok data' ∧ data'.length = data.length ∧
      ∀ k < 2 * packingKeyBodyU64Len P * modulusBits P.q, streamBit data' k = streamBit data k := by
  obtain ⟨hlen, fields, hfields, hcount, hwords, hkg, hkh⟩ := deserializePackingKeys_ok h
  refine ⟨_, serializePackingKeys_ok_iff.mpr ⟨hkg, hkh, rfl⟩, ?_, fun k hk => ?_⟩
  · rw [length_u64sToContiguousBytes, length_keyWords hkg hkh, hlen]
    rfl
  · rw [hwords]
    exact streamBit_written (modulusBits_pos P) (modulusBits_le P) hfields hcount hk

/-! ## Requests -/

/-- **The request is split where it was joined**, for every parameter set. -/
theorem parseFreshQuery_append (ypir : YpirSchemeParams) {keys : PackingKeys P}
    {bytes : List UInt8} (h : serializePackingKeys P keys = .ok bytes) {query : IPIRSimpleQuery}
    (hquery : query.firstDim.length = ypir.dbRows) :
    ∃ keys', parseFreshQuery P ypir (bytes ++ query.toSwitchedBytes P.q ypir.queryBits) =
        .ok (keys', query.toSwitchedBytes P.q ypir.queryBits) ∧ SameBodies keys keys' := by
  obtain ⟨hlen, keys', hkeys', hsame⟩ := deserialize_serialize h
  refine ⟨keys', ?_, hsame⟩
  have htotal : (bytes ++ query.toSwitchedBytes P.q ypir.queryBits).length =
      serializedFreshQueryLen P ypir := by
    rw [List.length_append, hlen, IPIRSimpleQuery.toSwitchedBytes, length_u64sToContiguousBytes,
      List.length_map, hquery]
    rfl
  rw [parseFreshQuery, if_neg (not_not.mpr htotal), ← hlen, List.take_left' rfl,
    List.drop_left' rfl, hkeys']

/-- **The request body round-trips.**  The server reads the bodies of the keys and the bytes of the
query that the client wrote; it accepts keys exactly if their string has the right length and every
field is a residue; and what it accepts is written again, up to the bits after the last field. -/
theorem request_roundTrip (P : RlweParams) (ypir : YpirSchemeParams) :
    (∀ (keys : PackingKeys P) (bytes : List UInt8) (query : IPIRSimpleQuery),
      serializePackingKeys P keys = .ok bytes → query.firstDim.length = ypir.dbRows →
      ∃ keys', parseFreshQuery P ypir (bytes ++ query.toSwitchedBytes P.q ypir.queryBits) =
        .ok (keys', query.toSwitchedBytes P.q ypir.queryBits) ∧ SameBodies keys keys') ∧
    (∀ data : List UInt8, (∃ keys, deserializePackingKeys P data = .ok keys) ↔
      data.length = serializedPackingKeysLen P ∧
        ∃ fields, contiguousBytesToU64s data (modulusBits P.q) = .ok fields ∧
          ∀ x ∈ fields.take (2 * packingKeyBodyU64Len P), x < P.q) ∧
    ∀ (data : List UInt8) (keys : PackingKeys P), deserializePackingKeys P data = .ok keys →
      ∃ data', serializePackingKeys P keys = .ok data' ∧ data'.length = data.length ∧
        8 * data.length < 2 * packingKeyBodyU64Len P * modulusBits P.q + 8 ∧
        ∀ k < 2 * packingKeyBodyU64Len P * modulusBits P.q,
          streamBit data' k = streamBit data k := by
  refine ⟨fun keys bytes query h hquery => parseFreshQuery_append ypir h hquery,
    fun data => ⟨?_, ?_⟩, fun data keys h => ?_⟩
  · rintro ⟨keys, h⟩
    obtain ⟨hlen, fields, hfields, -, hwords, -⟩ := deserializePackingKeys_ok h
    refine ⟨hlen, fields, hfields, ?_⟩
    rw [← hwords]
    exact keyWords_lt keys
  · rintro ⟨hlen, fields, hfields, hlt⟩
    exact exists_deserializePackingKeys hlen hfields hlt
  · obtain ⟨data', hdata', hlen', hbits⟩ := serialize_deserialize h
    have hlen := (deserializePackingKeys_ok h).1
    refine ⟨data', hdata', hlen', ?_, hbits⟩
    rw [hlen, serializedPackingKeysLen]
    omega

/-- Key bodies with a different residue in every place. -/
def smallKeys : PackingKeys smallParams where
  kgBody := PolyMatrixNTT.ofRow 2 fun c => {
    word := fun s => (4 * c + s) % 17
    lt := fun _ => Nat.mod_lt _ (by decide) }
  khBody := PolyMatrixNTT.ofRow 2 fun c => {
    word := fun s => (4 * c + s + 9) % 17
    lt := fun _ => Nat.mod_lt _ (by decide) }

/-- The keys and three query words arrive, all ones are no keys, and zeros are written again. -/
theorem request_roundTrip_small :
    (∃ bytes keys', serializePackingKeys smallParams smallKeys = .ok bytes ∧
      parseFreshQuery smallParams ⟨3, 3⟩ (bytes ++ [164, 0]) = .ok (keys', [164, 0]) ∧
      SameBodies smallKeys keys') ∧
    (¬∃ keys, deserializePackingKeys smallParams (List.replicate 10 255) = .ok keys) ∧
    ∃ keys data', deserializePackingKeys smallParams (List.replicate 10 0) = .ok keys ∧
      serializePackingKeys smallParams keys = .ok data' ∧ data'.length = 10 ∧
      ∀ k < 80, streamBit data' k = false := by
  obtain ⟨hparse, haccept, hwrite⟩ := request_roundTrip smallParams ⟨3, 3⟩
  refine ⟨?_, ?_, ?_⟩
  · have hbytes : serializePackingKeys smallParams smallKeys = .ok _ :=
      serializePackingKeys_ok_iff.mpr ⟨⟨rfl, rfl⟩, ⟨rfl, rfl⟩, rfl⟩
    have hquery : (⟨[9, 8, 4]⟩ : IPIRSimpleQuery).toSwitchedBytes smallParams.q 3 = [164, 0] := by
      decide
    obtain ⟨keys', hkeys', hsame⟩ := hparse smallKeys _ ⟨[9, 8, 4]⟩ hbytes rfl
    exact ⟨_, keys', hbytes, hquery ▸ hkeys', hsame⟩
  · rw [haccept]
    rintro ⟨-, fields, hfields, hlt⟩
    have hones : contiguousBytesToU64s (List.replicate 10 255) (modulusBits smallParams.q) =
        .ok (List.replicate 16 31) := by decide
    obtain rfl := Except.ok.inj (hones.symm.trans hfields)
    exact absurd (hlt 31 (by decide)) (by decide)
  · have hzeros : contiguousBytesToU64s (List.replicate 10 0) (modulusBits smallParams.q) =
        .ok (List.replicate 16 0) := by decide
    obtain ⟨keys, hkeys⟩ := (haccept (List.replicate 10 0)).mpr
      ⟨by decide, List.replicate 16 0, hzeros, by decide⟩
    obtain ⟨data', hdata', hlen, -, hbits⟩ := hwrite _ keys hkeys
    refine ⟨keys, data', hkeys, hdata', hlen, fun k hk => ?_⟩
    rw [hbits k (lt_of_lt_of_eq hk (by decide))]
    revert k
    decide

end Bodies

end SimplePir
