import IpirSp.Codec.BitStream
import IpirSp.Inspiring.Params
import IpirSp.Loops.Iterator
import IpirSp.Loops.Writes

/-!
# Rows of nullifiers

A row of the database holds 1792 nullifiers of 32 bytes in 32768 coefficients of 14 bits, without
alignment.  The encoder reads and the decoder writes one machine word for each coefficient.  Both
act on the bit stream of the row: `readBitsLe_testBit` and `writeBitsLe_bits` say how, and
`decode_encode` is that decoding returns the encoded bytes, padded with zeros to a whole row.
-/

namespace NullifierPir

open Codec Loops

/-- The result of a fallible call. -/
abbrev Result (α : Type) := Except (Failure String) α

/-- `NULLIFIER_BYTES`. -/
def nullifierBytes : ℕ := 32

/-- `SIMPLEPIR_COEFF_BITS`. -/
def simplepirCoeffBits : ℕ := 14

/-- `SIMPLEPIR_INSTANCES_PER_ITEM`. -/
def simplepirInstancesPerItem : ℕ := 16

/-- `SIMPLEPIR_COEFFS_PER_ITEM`. -/
def simplepirCoeffsPerItem : ℕ := simplepirInstancesPerItem * 2048

/-- `ITEM_BYTES`. -/
def itemBytes : ℕ := simplepirCoeffBits * simplepirCoeffsPerItem / 8

/-- `NULLIFIERS_PER_ITEM`. -/
def nullifiersPerItem : ℕ := itemBytes / nullifierBytes

/-- `pir_row_count`. -/
def pirRowCount (recordCount : ℕ) : ℕ := (recordCount + (nullifiersPerItem - 1)) / nullifiersPerItem

/-- `nullifier_offset`. -/
def nullifierOffset (globalIndex : ℕ) : ℕ × ℕ :=
  (globalIndex / nullifiersPerItem, globalIndex % nullifiersPerItem)

/-- The eight bytes from `byte` on as a word, with zeros past the end of the data. -/
def wordAt (data : List UInt8) (byte : ℕ) : ℕ :=
  let stop := min (byte + 8) data.length
  fromLe ((data.take stop).drop byte ++ List.replicate (8 - (stop - byte)) 0)

/-- `read_bits_le`. -/
def readBitsLe (data : List UInt8) (bitOffset bitCount : ℕ) : ℕ :=
  let byte := bitOffset / 8
  if byte ≥ data.length then 0
  else
    let shift := bitOffset % 8
    (wordAt data byte >>> shift) &&& (2 ^ bitCount - 1)

/-- `write_bits_le`, for a field that starts inside the data. -/
def writeBitsLe (data : List UInt8) (value bitOffset bitCount : ℕ) : List UInt8 :=
  let byte := bitOffset / 8
  let shift := bitOffset % 8
  let stop := min (byte + 8) data.length
  let mask := (2 ^ bitCount - 1) <<< shift
  let spliced := (wordAt data byte &&& (mask ^^^ (2 ^ 64 - 1))) |||
    ((value <<< shift % 2 ^ 64) &&& mask)
  data.take byte ++ (leBytes 8 spliced).take (stop - byte) ++ data.drop stop

/-- `encode_item_into`, from the coefficients that the buffer holds. -/
def encodeItemInto (item : List UInt8) (out : List ℕ) : Result (List ℕ) :=
  if item.length > itemBytes then .error (.panic "item must fit in one SimplePIR plaintext item")
  else if out.length ≠ simplepirCoeffsPerItem then
    .error (.panic "output must hold exactly one SimplePIR item")
  else .ok (out.zipIdx.map fun coeff =>
    readBitsLe item (coeff.2 * simplepirCoeffBits) simplepirCoeffBits)

/-- `decode_item_coefficients`. -/
def decodeItemCoefficients (coefficients : List ℕ) : Result (List UInt8) :=
  if coefficients.length < simplepirCoeffsPerItem then
    .error (.panic "decoded row must contain at least one SimplePIR item")
  else .ok ((coefficients.take simplepirCoeffsPerItem).zipIdx.foldl
    (fun out (coeff, idx) => writeBitsLe out coeff (idx * simplepirCoeffBits) simplepirCoeffBits)
    (List.replicate itemBytes 0))

/-- `extract_nullifier`. -/
def extractNullifier (item : List UInt8) (offsetInItem : ℕ) : Option (List UInt8) :=
  if offsetInItem ≥ nullifiersPerItem then none
  else
    let start := offsetInItem * nullifierBytes
    let stop := start + nullifierBytes
    if stop ≤ item.length then some ((item.take stop).drop start) else none

/-! ## Fields of a bit stream -/

/-- The bits of a word are those of the stream. -/
theorem wordAt_testBit (data : List UInt8) (byte j : ℕ) :
    (wordAt data byte).testBit j = (decide (j < 64) && streamBit data (8 * byte + j)) := by
  rw [wordAt, testBit_fromLe, streamBit_append, List.length_drop, List.length_take, streamBit_drop,
    streamBit_take, streamBit_replicate]
  by_cases hword : j < 64
  · rw [decide_eq_true hword, Bool.true_and]
    split
    · rename_i hinside
      rw [decide_eq_true (by omega), Bool.true_and]
    · rename_i hpast
      rw [streamBit_of_le (by omega)]
  · rw [decide_eq_false hword, Bool.false_and]
    split
    · omega
    · rfl

/-- **What is read**: the bits of the stream, zeros past its end. -/
theorem readBitsLe_testBit (data : List UInt8) (bitOffset : ℕ) {bitCount : ℕ}
    (hcount : bitCount ≤ 57) (j : ℕ) :
    (readBitsLe data bitOffset bitCount).testBit j =
      (decide (j < bitCount) && streamBit data (bitOffset + j)) := by
  rw [readBitsLe]
  dsimp only
  split
  · rename_i hpast
    rw [Nat.zero_testBit, streamBit_of_le (by omega), Bool.and_false]
  · have hsplit : 8 * (bitOffset / 8) + (bitOffset % 8 + j) = bitOffset + j := by omega
    rw [Nat.and_two_pow_sub_one_eq_mod, Nat.testBit_mod_two_pow, Nat.testBit_shiftRight,
      wordAt_testBit, hsplit]
    by_cases hj : j < bitCount
    · have hword : bitOffset % 8 + j < 64 := by omega
      rw [decide_eq_true hword, Bool.true_and]
    · rw [decide_eq_false hj, Bool.false_and, Bool.false_and]

theorem readBitsLe_lt (data : List UInt8) (bitOffset bitCount : ℕ) :
    readBitsLe data bitOffset bitCount < 2 ^ bitCount := by
  rw [readBitsLe]
  dsimp only
  split
  · exact Nat.two_pow_pos bitCount
  · rw [Nat.and_two_pow_sub_one_eq_mod]
    exact Nat.mod_lt _ (Nat.two_pow_pos bitCount)

theorem length_writeBitsLe {data : List UInt8} {bitOffset : ℕ}
    (hinside : bitOffset < 8 * data.length)
    (value bitCount : ℕ) : (writeBitsLe data value bitOffset bitCount).length = data.length := by
  rw [writeBitsLe]
  simp only [List.length_append, List.length_take, length_leBytes, List.length_drop]
  omega

/-- The bits of a spliced word. -/
theorem testBit_splice (word value shift : ℕ) {bitCount j : ℕ} (hj : j < 64) :
    ((word &&& (((2 ^ bitCount - 1) <<< shift) ^^^ (2 ^ 64 - 1))) |||
        ((value <<< shift % 2 ^ 64) &&& ((2 ^ bitCount - 1) <<< shift))).testBit j =
      if shift ≤ j ∧ j < shift + bitCount then value.testBit (j - shift) else word.testBit j := by
  rw [Nat.testBit_or, Nat.testBit_and, Nat.testBit_and, Nat.testBit_xor, Nat.testBit_shiftLeft,
    Nat.testBit_mod_two_pow, Nat.testBit_shiftLeft, Nat.testBit_two_pow_sub_one,
    Nat.testBit_two_pow_sub_one, decide_eq_true hj, Bool.true_and]
  by_cases hlow : shift ≤ j
  · by_cases hhigh : j < shift + bitCount
    · have hsub : j - shift < bitCount := by omega
      simp [hlow, hhigh, hsub]
    · have hsub : ¬j - shift < bitCount := by omega
      simp [hlow, hhigh, hsub]
  · simp [hlow]

/-- **What is written**: the low bits of the value into its field, and nothing else. -/
theorem writeBitsLe_bits {data : List UInt8} {bitOffset bitCount : ℕ} (value : ℕ)
    (hcount : bitCount ≤ 57) (hinside : bitOffset < 8 * data.length) {k : ℕ}
    (hk : k < 8 * data.length) :
    streamBit (writeBitsLe data value bitOffset bitCount) k =
      if bitOffset ≤ k ∧ k < bitOffset + bitCount then value.testBit (k - bitOffset)
      else streamBit data k := by
  set byte := bitOffset / 8 with hbyte
  set shift := bitOffset % 8 with hshift
  have hbyteLen : (data.take byte).length = byte := by
    rw [List.length_take]
    omega
  rw [writeBitsLe, List.append_assoc, streamBit_append, ← hbyte, ← hshift, hbyteLen]
  split
  · rename_i hbefore
    rw [if_neg (by omega), streamBit_take, decide_eq_true hbefore, Bool.true_and]
  · rename_i hbefore
    rw [streamBit_append, List.length_take, length_leBytes, streamBit_drop, streamBit_take,
      streamBit_leBytes]
    split
    · rename_i hword
      -- a bit of the word that is spliced
      rw [decide_eq_true (by omega), decide_eq_true (by omega), Bool.true_and, Bool.true_and,
        testBit_splice _ _ _ (by omega), wordAt_testBit, decide_eq_true (by omega),
        Bool.true_and]
      have hindex : 8 * byte + (k - 8 * byte) = k := by omega
      have hfield : (shift ≤ k - 8 * byte ∧ k - 8 * byte < shift + bitCount) ↔
          (bitOffset ≤ k ∧ k < bitOffset + bitCount) := by omega
      have hsub : k - 8 * byte - shift = k - bitOffset := by omega
      rw [hindex, hsub]
      exact if_congr hfield rfl rfl
    · rename_i hword
      have hindex : 8 * min (byte + 8) data.length +
          (k - 8 * byte - 8 * min (min (byte + 8) data.length - byte) 8) = k := by omega
      rw [hindex, if_neg (by omega)]

/-! ## Rows -/

/-- The coefficients of a row. -/
def encodeItem (item : List UInt8) : List ℕ :=
  (List.range simplepirCoeffsPerItem).map fun idx =>
    readBitsLe item (idx * simplepirCoeffBits) simplepirCoeffBits

@[simp] theorem length_encodeItem (item : List UInt8) :
    (encodeItem item).length = simplepirCoeffsPerItem := by
  rw [encodeItem, List.length_map, List.length_range]

/-- **The encoder** fills the whole buffer, whatever it held before. -/
theorem encodeItemInto_ok {item : List UInt8} {out : List ℕ} (hitem : item.length ≤ itemBytes)
    (hout : out.length = simplepirCoeffsPerItem) :
    encodeItemInto item out = .ok (encodeItem item) := by
  have hfill (f : ℕ → ℕ) (l : List ℕ) :
      (l.zipIdx.map fun x => f x.2) = (List.range l.length).map f := by
    refine List.ext_getElem (by simp) fun i hi hi' => ?_
    simp
  have hrow := hfill (fun idx => readBitsLe item (idx * simplepirCoeffBits) simplepirCoeffBits) out
  rw [encodeItemInto, if_neg (not_lt.mpr hitem), if_neg (not_not.mpr hout), hrow, hout]
  rfl

theorem encodeItem_lt (item : List UInt8) : ∀ c ∈ encodeItem item, c < 2 ^ 14 := by
  intro c hc
  obtain ⟨idx, -, rfl⟩ := List.mem_map.mp hc
  exact readBitsLe_lt _ _ _

/-- Fields written one after the other. -/
theorem writeFields_bits {bits : ℕ} (hpos : 0 < bits) (hbits : bits ≤ 57) (words : List ℕ)
    {data : List UInt8} (hdata : ∀ k, streamBit data k = false)
    (hroom : words.length * bits ≤ 8 * data.length) :
    let out := words.zipIdx.foldl (fun out (word, idx) =>
      writeBitsLe out word (idx * bits) bits) data
    out.length = data.length ∧ ∀ k < 8 * data.length, streamBit out k =
      (decide (k < words.length * bits) && (words.getD (k / bits) 0).testBit (k % bits)) := by
  refine foldl_zipIdx (fun i out => out.length = data.length ∧ ∀ k < 8 * data.length,
    streamBit out k = (decide (k < i * bits) && (words.getD (k / bits) 0).testBit (k % bits)))
    words ⟨rfl, fun k _ => by rw [hdata, zero_mul, decide_eq_false (Nat.not_lt_zero k),
      Bool.false_and]⟩ fun i hi out hinv => ?_
  obtain ⟨hlen, hold⟩ := hinv
  have hend : (i + 1) * bits ≤ words.length * bits := Nat.mul_le_mul_right bits hi
  rw [Nat.add_mul, one_mul] at hend
  have hinside : i * bits < 8 * out.length := by omega
  refine ⟨by rw [length_writeBitsLe hinside, hlen], fun k hk => ?_⟩
  dsimp only
  rw [writeBitsLe_bits _ hbits hinside (by rwa [hlen]), Nat.add_mul, one_mul]
  split
  · rename_i hfield
    -- the field of the word
    obtain ⟨j, rfl⟩ := Nat.exists_eq_add_of_le hfield.1
    have hj : j < bits := by omega
    rw [flat_div hj, flat_mod hj, decide_eq_true hfield.2, Bool.true_and, Nat.add_sub_cancel_left,
      List.getD_eq_getElem _ _ hi]
  · rename_i hfield
    rw [hold k hk]
    by_cases hbefore : k < i * bits
    · rw [decide_eq_true hbefore, decide_eq_true (by omega)]
    · rw [decide_eq_false hbefore, decide_eq_false (by omega)]

theorem simplepirCoeffBits_eq : simplepirCoeffBits = 14 := rfl

theorem simplepirCoeffsPerItem_eq : simplepirCoeffsPerItem = 32768 := rfl

theorem itemBytes_eq : itemBytes = 57344 := rfl

theorem nullifiersPerItem_eq : nullifiersPerItem = 1792 := rfl

theorem nullifierBytes_eq : nullifierBytes = 32 := rfl

/-- **What is decoded**: the low bits of the coefficients, one after the other. -/
theorem decodeItemCoefficients_ok {coefficients : List ℕ}
    (hlen : simplepirCoeffsPerItem ≤ coefficients.length) :
    ∃ out, decodeItemCoefficients coefficients = .ok out ∧ out.length = itemBytes ∧
      ∀ k < 8 * itemBytes, streamBit out k = (coefficients.getD (k / 14) 0).testBit (k % 14) := by
  have htake : (coefficients.take simplepirCoeffsPerItem).length = simplepirCoeffsPerItem := by
    rw [List.length_take, min_eq_left hlen]
  have hroom : (coefficients.take simplepirCoeffsPerItem).length * simplepirCoeffBits ≤
      8 * (List.replicate itemBytes (0 : UInt8)).length := by
    rw [htake, List.length_replicate]
    decide
  obtain ⟨hout, hbits⟩ := writeFields_bits (by decide) (by decide)
    (coefficients.take simplepirCoeffsPerItem) (streamBit_replicate itemBytes) hroom
  rw [List.length_replicate] at hout hbits
  refine ⟨_, if_neg (not_lt.mpr hlen), hout, fun k hk => ?_⟩
  have hidx : k / 14 < simplepirCoeffsPerItem := by
    rw [simplepirCoeffsPerItem_eq]
    rw [itemBytes_eq] at hk
    omega
  have hwritten : k < (coefficients.take simplepirCoeffsPerItem).length * simplepirCoeffBits := by
    rw [htake, simplepirCoeffsPerItem_eq, simplepirCoeffBits_eq]
    rw [itemBytes_eq] at hk
    omega
  have hfirst : (coefficients.take simplepirCoeffsPerItem).getD (k / 14) 0 =
      coefficients.getD (k / 14) 0 := by
    rw [List.getD_eq_getElem _ _ (by rwa [htake]), List.getElem_take,
      List.getD_eq_getElem _ _ (hidx.trans_le hlen)]
  rw [hbits k hk, decide_eq_true hwritten, Bool.true_and, simplepirCoeffBits_eq, hfirst]

/-- The bits of an encoded row are those of its bytes. -/
theorem encodeItem_bit (item : List UInt8) {k : ℕ} (hk : k < 8 * itemBytes) :
    ((encodeItem item).getD (k / 14) 0).testBit (k % 14) = streamBit item k := by
  have hidx : k / 14 < simplepirCoeffsPerItem := by
    rw [simplepirCoeffsPerItem_eq]
    rw [itemBytes_eq] at hk
    omega
  have hsplit : k / 14 * 14 + k % 14 = k := Nat.div_add_mod' k 14
  have hmod : k % 14 < 14 := Nat.mod_lt k (by decide)
  rw [List.getD_eq_getElem _ _ (by rwa [length_encodeItem])]
  simp only [encodeItem, List.getElem_map, List.getElem_range]
  rw [simplepirCoeffBits_eq, readBitsLe_testBit _ _ (by decide), hsplit, decide_eq_true hmod,
    Bool.true_and]

/-- **Decoding an encoded row** returns its bytes, padded with zeros to a whole row. -/
theorem decode_encode {item : List UInt8} (hitem : item.length ≤ itemBytes) :
    decodeItemCoefficients (encodeItem item) =
      .ok (item ++ List.replicate (itemBytes - item.length) 0) := by
  obtain ⟨out, hdecode, hout, hbits⟩ := decodeItemCoefficients_ok (length_encodeItem item).ge
  rw [hdecode]
  refine congrArg Except.ok (ext_streamBit ?_ fun k hk => ?_)
  · rw [hout, List.length_append, List.length_replicate]
    omega
  · rw [hout] at hk
    rw [hbits k hk, encodeItem_bit item hk, streamBit_append, streamBit_replicate]
    split
    · rfl
    · rename_i hpast
      exact streamBit_of_le (not_lt.mp hpast)

/-- **The nullifier of a slot** of a decoded row. -/
theorem extractNullifier_padded {item : List UInt8} (hitem : item.length ≤ itemBytes) {slot : ℕ}
    (hslot : slot < nullifiersPerItem) :
    extractNullifier (item ++ List.replicate (itemBytes - item.length) 0) slot =
      some (((item ++ List.replicate (itemBytes - item.length) 0).drop (slot * nullifierBytes)).take
        nullifierBytes) := by
  have hlen : (item ++ List.replicate (itemBytes - item.length) (0 : UInt8)).length =
      itemBytes := by
    rw [List.length_append, List.length_replicate]
    omega
  have hstop : slot * nullifierBytes + nullifierBytes ≤ itemBytes := by
    rw [nullifiersPerItem_eq] at hslot
    rw [nullifierBytes_eq, itemBytes_eq]
    omega
  rw [extractNullifier, if_neg (not_le.mpr hslot)]
  dsimp only
  rw [if_pos (by rwa [hlen]), List.drop_take, Nat.add_sub_cancel_left]

end NullifierPir
