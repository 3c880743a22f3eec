import IpirSp.NativeClient.Bits
import IpirSp.NullifierPir.Encoding

/-!
# Word access and the bit codec

The rows are read and written a machine word at a time, the requests of the protocol by a codec that
walks the bytes.  On fields of up to 57 bits the two are the same: both are determined by the bits
that they return or leave.  A write of the codec only adds bits, so it agrees with a spliced word
where the field was zero before.
-/

namespace NullifierPir

open Codec NativeClient

/-- **One load reads what the loop over the bytes reads**, at any offset. -/
theorem readBits_eq_readBitsLe (data : List UInt8) (bitOffset : ℕ) {bitCount : ℕ}
    (hpos : 1 ≤ bitCount) (hcount : bitCount ≤ 57) :
    readBits data bitOffset bitCount = .ok (readBitsLe data bitOffset bitCount) := by
  obtain ⟨w, hread, -, hbit⟩ := readBits_testBit data bitOffset hpos (hcount.trans (by decide))
  have hword : w = readBitsLe data bitOffset bitCount := by
    refine Nat.eq_of_testBit_eq fun j => ?_
    rw [hbit, readBitsLe_testBit data bitOffset hcount]
  rw [hread, hword]

/-- **One store writes what the loop over the bytes writes** over a field of zeros. -/
theorem writeBitsLe_eq_writeBits {data : List UInt8} {bitOffset bitCount : ℕ} (value : ℕ)
    (hpos : 1 ≤ bitCount) (hcount : bitCount ≤ 57) (hfit : bitOffset + bitCount ≤ 8 * data.length)
    (hzero : ∀ k, bitOffset ≤ k → k < bitOffset + bitCount → streamBit data k = false) :
    writeBitsLe data value bitOffset bitCount = writeBits data value bitOffset bitCount := by
  have hinside : bitOffset < 8 * data.length := by omega
  have hlen := length_writeBitsLe hinside value bitCount
  refine ext_streamBit (by rw [hlen, length_writeBits]) fun k hk => ?_
  rw [hlen] at hk
  rw [writeBitsLe_bits value hcount hinside hk, writeBits_bits data value bitOffset bitCount hk]
  split
  · rename_i hfield
    rw [decide_eq_true hfield, hzero k hfield.1 hfield.2, Bool.false_or, Bool.true_and]
  · rename_i hfield
    rw [decide_eq_false hfield, Bool.false_and, Bool.or_false]

/-- **A decoded row is a prefix of the packed coefficients.** -/
theorem decodeItemCoefficients_eq_take {coefficients : List ℕ}
    (hlen : simplepirCoeffsPerItem ≤ coefficients.length) :
    decodeItemCoefficients coefficients =
      .ok ((u64sToContiguousBytes coefficients simplepirCoeffBits).take itemBytes) := by
  obtain ⟨out, hdecode, hout, hbits⟩ := decodeItemCoefficients_ok hlen
  have hroom : 8 * itemBytes ≤ coefficients.length * simplepirCoeffBits := by
    rw [itemBytes_eq, simplepirCoeffBits_eq]
    rw [simplepirCoeffsPerItem_eq] at hlen
    omega
  have hpacked : itemBytes ≤ (u64sToContiguousBytes coefficients simplepirCoeffBits).length := by
    rw [length_u64sToContiguousBytes]
    omega
  rw [hdecode]
  refine congrArg Except.ok (ext_streamBit ?_ fun k hk => ?_)
  · rw [hout, List.length_take, min_eq_left hpacked]
  · rw [hout] at hk
    rw [hbits k hk, streamBit_take, decide_eq_true hk, Bool.true_and, u64sToContiguousBytes_holds,
      decide_eq_true (hk.trans_le hroom), Bool.true_and, simplepirCoeffBits_eq]

/-- Coefficients that make no row are packed to fewer bytes than a row has. -/
theorem length_packed_lt {coefficients : List ℕ}
    (hlen : coefficients.length < simplepirCoeffsPerItem) :
    (u64sToContiguousBytes coefficients simplepirCoeffBits).length < itemBytes := by
  rw [length_u64sToContiguousBytes, itemBytes_eq, simplepirCoeffBits_eq]
  rw [simplepirCoeffsPerItem_eq] at hlen
  omega

/-- A nullifier is a slice of the packed coefficients. -/
theorem extractNullifier_decoded {coefficients : List ℕ}
    (hlen : simplepirCoeffsPerItem ≤ coefficients.length) {slot : ℕ}
    (hslot : slot < nullifiersPerItem) :
    extractNullifier ((u64sToContiguousBytes coefficients simplepirCoeffBits).take itemBytes) slot =
      some (((u64sToContiguousBytes coefficients simplepirCoeffBits).drop
        (slot * nullifierBytes)).take nullifierBytes) := by
  have hpacked : itemBytes ≤ (u64sToContiguousBytes coefficients simplepirCoeffBits).length := by
    rw [length_u64sToContiguousBytes, itemBytes_eq, simplepirCoeffBits_eq]
    rw [simplepirCoeffsPerItem_eq] at hlen
    omega
  have hstop : slot * nullifierBytes + nullifierBytes ≤ itemBytes := by
    rw [nullifiersPerItem_eq] at hslot
    rw [nullifierBytes_eq, itemBytes_eq]
    omega
  rw [extractNullifier, if_neg (not_le.mpr hslot)]
  dsimp only
  rw [List.length_take, min_eq_left hpacked, if_pos hstop, List.take_take, min_eq_left hstop,
    List.drop_take, Nat.add_sub_cancel_left]

/-- **Word access is the bit codec.**  On widths up to 57 a load reads what the codec reads, a store
sets the bits of its field and no other, as the codec does over zeros, and a decoded row is cut from
the packed coefficients: where there are enough of them, and nowhere else. -/
theorem wordAccess_eq_bitCodec :
    (∀ (data : List UInt8) (bitOffset bitCount : ℕ), 1 ≤ bitCount → bitCount ≤ 57 →
      readBits data bitOffset bitCount = .ok (readBitsLe data bitOffset bitCount)) ∧
    (∀ (data : List UInt8) (value bitOffset bitCount : ℕ), 1 ≤ bitCount → bitCount ≤ 57 →
      bitOffset + bitCount ≤ 8 * data.length →
      (writeBitsLe data value bitOffset bitCount).length = data.length ∧
      (∀ k < 8 * data.length, streamBit (writeBitsLe data value bitOffset bitCount) k =
        if bitOffset ≤ k ∧ k < bitOffset + bitCount then value.testBit (k - bitOffset)
        else streamBit data k) ∧
      ((∀ k, bitOffset ≤ k → k < bitOffset + bitCount → streamBit data k = false) →
        writeBitsLe data value bitOffset bitCount = writeBits data value bitOffset bitCount)) ∧
    ∀ coefficients : List ℕ,
      (simplepirCoeffsPerItem ≤ coefficients.length →
        decodeItemCoefficients coefficients =
          .ok ((u64sToContiguousBytes coefficients simplepirCoeffBits).take itemBytes) ∧
        ∀ slot < nullifiersPerItem, extractNullifier
            ((u64sToContiguousBytes coefficients simplepirCoeffBits).take itemBytes) slot =
          some (((u64sToContiguousBytes coefficients simplepirCoeffBits).drop
            (slot * nullifierBytes)).take nullifierBytes)) ∧
      (coefficients.length < simplepirCoeffsPerItem →
        decodeItemCoefficients coefficients =
          .error (.panic "decoded row must contain at least one SimplePIR item") ∧
        (u64sToContiguousBytes coefficients simplepirCoeffBits).length < itemBytes) := by
  refine ⟨fun data bitOffset bitCount hpos hcount =>
    readBits_eq_readBitsLe data bitOffset hpos hcount,
    fun data value bitOffset bitCount hpos hcount hfit => ?_, fun coefficients => ⟨?_, ?_⟩⟩
  · have hinside : bitOffset < 8 * data.length := by omega
    exact ⟨length_writeBitsLe hinside value bitCount,
      fun k hk => writeBitsLe_bits value hcount hinside hk,
      writeBitsLe_eq_writeBits value hpos hcount hfit⟩
  · intro hlen
    exact ⟨decodeItemCoefficients_eq_take hlen, fun slot hslot =>
      extractNullifier_decoded hlen hslot⟩
  · intro hlen
    exact ⟨if_pos hlen, length_packed_lt hlen⟩

/-- A field of ten bits that starts three bits before the end reads zeros past it, a store of ten
bits keeps the bits around it, and a row of coefficients is decoded where a shorter one is not. -/
theorem wordAccess_eq_bitCodec_tail :
    readBits [0xff, 0xe0] 13 10 = .ok (readBitsLe [0xff, 0xe0] 13 10) ∧
      readBitsLe [0xff, 0xe0] 13 10 = 7 ∧
    (∀ k < 24, streamBit (writeBitsLe [0xff, 0xff, 0xff] 5 3 10) k =
      if 3 ≤ k ∧ k < 13 then (5 : ℕ).testBit (k - 3) else streamBit [0xff, 0xff, 0xff] k) ∧
    writeBitsLe [1, 0, 0] 5 3 10 = writeBits [1, 0, 0] 5 3 10 ∧
    decodeItemCoefficients (List.replicate simplepirCoeffsPerItem 9) =
      .ok ((u64sToContiguousBytes (List.replicate simplepirCoeffsPerItem 9)
        simplepirCoeffBits).take itemBytes) ∧
    decodeItemCoefficients [9] =
      .error (.panic "decoded row must contain at least one SimplePIR item") := by
  obtain ⟨hread, hwrite, hdecode⟩ := wordAccess_eq_bitCodec
  have hones := hwrite [0xff, 0xff, 0xff] 5 3 10 (by decide) (by decide) (by decide)
  have hzeros := hwrite [1, 0, 0] 5 3 10 (by decide) (by decide) (by decide)
  refine ⟨hread [0xff, 0xe0] 13 10 (by decide) (by decide), by decide, hones.2.1,
    hzeros.2.2 fun k hlow hhigh => ?_, ((hdecode _).1 ?_).1, ((hdecode [9]).2 (by decide)).1⟩
  · interval_cases k <;> rfl
  · rw [List.length_replicate]

end NullifierPir
