import IpirSp.Codec.BitStream
import IpirSp.Loops.Writes
import IpirSp.Reinspiring.Params

/-!
# Bit packing

The bit-packing helpers.  Both loops walk the string byte by byte and move the part of the value
that fits the current byte.  `writeLoop_bits` and `readLoop_bits` say what a loop does to single
bits; `u64sToContiguousBytes_holds` and `readBits_testBit` are the results for whole words.
-/

namespace NativeClient

open Reinspiring Codec Loops

/-- The loop of `write_bits`. -/
def writeLoop : ℕ → List UInt8 → ℕ → ℕ → ℕ → ℕ → List UInt8
  | 0, data, _, _, _, _ => data
  | fuel + 1, data, val, byteIndex, bitIndex, numBits =>
    if numBits > 0 ∧ byteIndex < data.length then
      let bitsToWrite := min (8 - bitIndex) numBits
      let bitmask := 2 ^ bitsToWrite - 1
      let bits := (val &&& bitmask) <<< bitIndex
      let data := data.modify byteIndex (· ||| UInt8.ofNat bits)
      let next := if bitIndex + bitsToWrite = 8 then (byteIndex + 1, 0)
        else (byteIndex, bitIndex + bitsToWrite)
      writeLoop fuel data (val >>> bitsToWrite) next.1 next.2 (numBits - bitsToWrite)
    else data

/-- `write_bits`; every turn of the loop writes at least one bit. -/
def writeBits (data : List UInt8) (val bitOffs numBits : ℕ) : List UInt8 :=
  writeLoop numBits data val (bitOffs / 8) (bitOffs % 8) numBits

/-- The loop of `read_bits`. -/
def readLoop (numBits : ℕ) : List UInt8 → ℕ → ℕ → ℕ → ℕ
  | [], _, result, _ => result
  | byte :: rest, bitPos, result, remainingBits =>
    let canTake := min (8 - bitPos) remainingBits
    let value := if canTake < 8 then (byte.toNat >>> bitPos) &&& (2 ^ canTake - 1)
      else byte.toNat >>> bitPos
    let result := result ||| value <<< (numBits - remainingBits)
    let remainingBits := remainingBits - canTake
    if remainingBits = 0 then result else readLoop numBits rest 0 result remainingBits

/-- `read_bits`. -/
def readBits (data : List UInt8) (bitOffs numBits : ℕ) : Result ℕ :=
  if ¬(1 ≤ numBits ∧ numBits ≤ 64) then .error (.panic s!"invalid number of bits: {numBits}")
  else .ok (readLoop numBits (data.drop (bitOffs / 8)) (bitOffs % 8) 0 numBits)

/-- `u64s_to_contiguous_bytes`. -/
def u64sToContiguousBytes (data : List ℕ) (inpModBits : ℕ) : List UInt8 :=
  let totalSz := (data.length * inpModBits + 7) / 8
  (data.foldl (fun (out, bitOffs) val =>
    (writeBits out val bitOffs inpModBits, bitOffs + inpModBits)) (List.replicate totalSz 0, 0)).1

/-- `contiguous_bytes_to_u64s`. -/
def contiguousBytesToU64s (data : List UInt8) (outModBits : ℕ) : Result (List ℕ) :=
  if outModBits = 0 then .error (.panic "attempt to divide by zero")
  else (List.range (data.length * 8 / outModBits)).mapM fun i =>
    readBits data (i * outModBits) outModBits

/-! ## Writing -/

@[simp] theorem length_writeLoop (fuel : ℕ) (data : List UInt8)
    (val byteIndex bitIndex numBits : ℕ) :
    (writeLoop fuel data val byteIndex bitIndex numBits).length = data.length := by
  induction fuel generalizing data val byteIndex bitIndex numBits with
  | zero => rfl
  | succ fuel ih =>
      rw [writeLoop]
      split
      · rw [ih, List.length_modify]
      · rfl

@[simp] theorem length_writeBits (data : List UInt8) (val bitOffs numBits : ℕ) :
    (writeBits data val bitOffs numBits).length = data.length :=
  length_writeLoop _ _ _ _ _ _

/-- The bits that one turn of the loop moves into its byte. -/
theorem testBit_chunk (val bitIndex count j : ℕ) :
    ((val &&& (2 ^ count - 1)) <<< bitIndex).testBit j =
      (decide (bitIndex ≤ j ∧ j < bitIndex + count) && val.testBit (j - bitIndex)) := by
  rw [Nat.testBit_shiftLeft, Nat.and_two_pow_sub_one_eq_mod, Nat.testBit_mod_two_pow]
  by_cases hlow : bitIndex ≤ j
  · have hiff : j - bitIndex < count ↔ j < bitIndex + count := by omega
    simp [hlow, hiff]
  · simp [hlow]

/-- **What the loop writes**: the low bits of the value, from the position of the cursor on. -/
theorem writeLoop_bits {fuel : ℕ} {data : List UInt8} {val byteIndex bitIndex numBits : ℕ}
    (hfuel : numBits ≤ fuel) (hbit : bitIndex < 8) {k : ℕ} (hk : k < 8 * data.length) :
    streamBit (writeLoop fuel data val byteIndex bitIndex numBits) k =
      (streamBit data k ||
        (decide (8 * byteIndex + bitIndex ≤ k ∧ k < 8 * byteIndex + bitIndex + numBits) &&
          val.testBit (k - (8 * byteIndex + bitIndex)))) := by
  induction fuel generalizing data val byteIndex bitIndex numBits with
  | zero =>
      obtain rfl : numBits = 0 := by omega
      have hempty : ¬(8 * byteIndex + bitIndex ≤ k ∧ k < 8 * byteIndex + bitIndex + 0) := by omega
      rw [writeLoop, decide_eq_false hempty, Bool.false_and, Bool.or_false]
  | succ fuel ih =>
      rw [writeLoop]
      split
      · rename_i hgo
        obtain ⟨hpos, hbyte⟩ := hgo
        set count := min (8 - bitIndex) numBits with hcount
        set next := if bitIndex + count = 8 then (byteIndex + 1, 0)
          else (byteIndex, bitIndex + count) with hnext
        -- the cursor moves on by the bits written
        have hcursor : 8 * next.1 + next.2 = 8 * byteIndex + bitIndex + count ∧ next.2 < 8 := by
          rw [hnext]
          split <;> constructor <;> dsimp only <;> omega
        have hlen : k < 8 * (data.modify byteIndex
            (· ||| UInt8.ofNat ((val &&& (2 ^ count - 1)) <<< bitIndex))).length := by
          rwa [List.length_modify]
        rw [ih (by omega) hcursor.2 hlen, streamBit_modify_or hbyte, testBit_chunk, hcursor.1,
          Nat.testBit_shiftRight, Bool.or_assoc]
        congr 1
        -- a bit of the value is written in this turn or in a later one
        by_cases hhere : 8 * byteIndex + bitIndex ≤ k ∧ k < 8 * byteIndex + bitIndex + count
        · have hdiv : k / 8 = byteIndex := by omega
          have hin : bitIndex ≤ k % 8 ∧ k % 8 < bitIndex + count := by omega
          have hlater : ¬(8 * byteIndex + bitIndex + count ≤ k ∧
              k < 8 * byteIndex + bitIndex + count + (numBits - count)) := by omega
          have hall : 8 * byteIndex + bitIndex ≤ k ∧
              k < 8 * byteIndex + bitIndex + numBits := by omega
          have hsub : k % 8 - bitIndex = k - (8 * byteIndex + bitIndex) := by omega
          simp only [hdiv, hin, hlater, hall, hsub, decide_true, and_self, decide_false,
            Bool.true_and, Bool.false_and, Bool.or_false]
        · have hchunk : ¬(k / 8 = byteIndex ∧ bitIndex ≤ k % 8 ∧ k % 8 < bitIndex + count) := by
            omega
          have hiff : (8 * byteIndex + bitIndex + count ≤ k ∧
              k < 8 * byteIndex + bitIndex + count + (numBits - count)) ↔
              8 * byteIndex + bitIndex ≤ k ∧ k < 8 * byteIndex + bitIndex + numBits := by omega
          have hthis : (decide (k / 8 = byteIndex) &&
              (decide (bitIndex ≤ k % 8 ∧ k % 8 < bitIndex + count) &&
                val.testBit (k % 8 - bitIndex))) = false := by
            rw [← Bool.and_assoc, ← Bool.decide_and, decide_eq_false hchunk, Bool.false_and]
          rw [hthis, Bool.false_or, decide_eq_decide.mpr hiff]
          by_cases hin : 8 * byteIndex + bitIndex ≤ k ∧ k < 8 * byteIndex + bitIndex + numBits
          · have hsub : count + (k - (8 * byteIndex + bitIndex + count)) =
                k - (8 * byteIndex + bitIndex) := by omega
            rw [hsub]
          · rw [decide_eq_false hin, Bool.false_and, Bool.false_and]
      · rename_i hstop
        have hempty : ¬(8 * byteIndex + bitIndex ≤ k ∧ k < 8 * byteIndex + bitIndex + numBits) := by
          omega
        rw [decide_eq_false hempty, Bool.false_and, Bool.or_false]

theorem writeBits_bits (data : List UInt8) (val bitOffs numBits : ℕ) {k : ℕ}
    (hk : k < 8 * data.length) :
    streamBit (writeBits data val bitOffs numBits) k = (streamBit data k ||
      (decide (bitOffs ≤ k ∧ k < bitOffs + numBits) && val.testBit (k - bitOffs))) := by
  have hmod : bitOffs % 8 < 8 := Nat.mod_lt bitOffs (by decide)
  rw [writeBits, writeLoop_bits le_rfl hmod hk, Nat.div_add_mod]

theorem length_u64sToContiguousBytes (data : List ℕ) (bits : ℕ) :
    (u64sToContiguousBytes data bits).length = (data.length * bits + 7) / 8 := by
  have hloop (words : List ℕ) (out : List UInt8) (offs : ℕ) :
      (words.foldl (fun (out, bitOffs) val =>
        (writeBits out val bitOffs bits, bitOffs + bits)) (out, offs)).1.length = out.length := by
    induction words generalizing out offs with
    | nil => rfl
    | cons w words ih => rw [List.foldl_cons, ih, length_writeBits]
  rw [u64sToContiguousBytes, hloop, List.length_replicate]

/-- The fields of the words that the loop has written. -/
theorem writeWords_bits (bits : ℕ) (words rest : List ℕ) {out : List UInt8}
    (hout : (words.length + rest.length) * bits ≤ 8 * out.length)
    (h : HoldsWords bits words out) :
    HoldsWords bits (words ++ rest) (rest.foldl (fun (out, bitOffs) val =>
      (writeBits out val bitOffs bits, bitOffs + bits)) (out, words.length * bits)).1 := by
  induction rest generalizing words out with
  | nil => rwa [List.append_nil]
  | cons w rest ih =>
      rw [List.foldl_cons, List.append_cons]
      have hfit : words.length * bits + bits ≤ 8 * out.length := by
        have hone : words.length * bits + bits = (words.length + 1) * bits := by ring
        rw [hone]
        refine (Nat.mul_le_mul_right bits ?_).trans hout
        rw [List.length_cons]
        omega
      have hstep : HoldsWords bits (words ++ [w]) (writeBits out w (words.length * bits) bits) :=
        h.snoc (length_writeBits _ _ _ _) hfit fun k hk => writeBits_bits _ _ _ _ hk
      have hfit' : ((words ++ [w]).length + rest.length) * bits ≤
          8 * (writeBits out w (words.length * bits) bits).length := by
        rw [length_writeBits, List.length_append, List.length_singleton]
        rwa [List.length_cons, ← add_assoc, add_right_comm] at hout
      have hnext := ih (words ++ [w]) hfit' hstep
      rwa [List.length_append, List.length_singleton, Nat.add_mul, one_mul] at hnext

/-- **What is written**: the fields of the words, and zeros. -/
theorem u64sToContiguousBytes_holds (data : List ℕ) (bits : ℕ) :
    HoldsWords bits data (u64sToContiguousBytes data bits) := by
  have hrun := writeWords_bits bits [] data (by
    rw [List.length_replicate, List.length_nil, zero_add]
    omega) (holdsWords_nil bits ((data.length * bits + 7) / 8))
  rwa [List.nil_append, List.length_nil, zero_mul] at hrun

/-! ## Reading -/

/-- The bits that one turn of the loop takes from its byte. -/
theorem testBit_take (byte : UInt8) (bitPos count j : ℕ) :
    (if count < 8 then (byte.toNat >>> bitPos) &&& (2 ^ count - 1)
      else byte.toNat >>> bitPos).testBit j =
      (decide (j < count) && byte.toNat.testBit (bitPos + j)) := by
  split
  · rw [Nat.and_two_pow_sub_one_eq_mod, Nat.testBit_mod_two_pow, Nat.testBit_shiftRight]
  · rename_i hfull
    rw [Nat.testBit_shiftRight]
    by_cases hj : j < count
    · rw [decide_eq_true hj, Bool.true_and]
    · rw [decide_eq_false hj, Bool.false_and, toNat_testBit_of_le _ (by omega)]

/-- **What the loop reads**: the bits of the stream that are not yet in the result. -/
theorem readLoop_bits {numBits : ℕ} (data : List UInt8) {bitPos result remainingBits : ℕ}
    (hbit : bitPos < 8) (hpos : 0 < remainingBits) (hle : remainingBits ≤ numBits)
    (hresult : result < 2 ^ (numBits - remainingBits)) (j : ℕ) :
    (readLoop numBits data bitPos result remainingBits).testBit j =
      (result.testBit j || (decide (numBits - remainingBits ≤ j ∧ j < numBits) &&
        streamBit data (bitPos + (j - (numBits - remainingBits))))) := by
  induction data generalizing bitPos result remainingBits with
  | nil => simp [readLoop, streamBit]
  | cons byte rest ih =>
      rw [readLoop]
      set count := min (8 - bitPos) remainingBits with hcount
      set value := if count < 8 then (byte.toNat >>> bitPos) &&& (2 ^ count - 1)
        else byte.toNat >>> bitPos with hvalue
      set start := numBits - remainingBits with hstart
      have hbits (j : ℕ) : (result ||| value <<< start).testBit j = (result.testBit j ||
          (decide (start ≤ j ∧ j < start + count) && byte.toNat.testBit
            (bitPos + (j - start)))) := by
        rw [Nat.testBit_or, Nat.testBit_shiftLeft, hvalue, testBit_take]
        congr 1
        by_cases hlow : start ≤ j
        · have hiff : j - start < count ↔ start ≤ j ∧ j < start + count := by omega
          rw [decide_eq_true hlow, Bool.true_and, decide_eq_decide.mpr hiff]
        · have hnone : ¬(start ≤ j ∧ j < start + count) := fun hj => hlow hj.1
          rw [decide_eq_false hlow, decide_eq_false hnone, Bool.false_and, Bool.false_and]
      -- the bits of this byte
      have hbyte {j : ℕ} (hj : start ≤ j ∧ j < start + count) :
          streamBit (byte :: rest) (bitPos + (j - start)) =
            byte.toNat.testBit (bitPos + (j - start)) := by
        rw [streamBit_cons, if_pos (by omega)]
      by_cases hdone : remainingBits - count = 0
      · rw [if_pos hdone, hbits]
        congr 1
        by_cases hj : start ≤ j ∧ j < numBits
        · have hj' : start ≤ j ∧ j < start + count := by omega
          rw [decide_eq_true hj, decide_eq_true hj', hbyte hj']
        · have hj' : ¬(start ≤ j ∧ j < start + count) := by omega
          rw [decide_eq_false hj, decide_eq_false hj', Bool.false_and, Bool.false_and]
      · rw [if_neg hdone]
        have hwhole : bitPos + count = 8 := by omega
        have hstart' : numBits - (remainingBits - count) = start + count := by omega
        have hlt : result ||| value <<< start < 2 ^ (start + count) := by
          refine Nat.lt_pow_two_of_testBit _ fun i hi => ?_
          have hlow : ¬(start ≤ i ∧ i < start + count) := by omega
          have hi' : 2 ^ start ≤ 2 ^ i := Nat.pow_le_pow_right two_pos (by omega)
          rw [hbits, decide_eq_false hlow, Bool.false_and, Bool.or_false,
            Nat.testBit_lt_two_pow (hresult.trans_le hi')]
        rw [ih (by decide) (by omega) (by omega) (by rwa [hstart']), hbits, hstart', zero_add,
          Bool.or_assoc]
        congr 1
        by_cases hj : start ≤ j ∧ j < start + count
        · -- a bit of this byte
          have hlater : ¬(start + count ≤ j ∧ j < numBits) := by omega
          have hall : start ≤ j ∧ j < numBits := by omega
          rw [decide_eq_true hj, decide_eq_false hlater, decide_eq_true hall, hbyte hj,
            Bool.false_and, Bool.or_false]
        · rw [decide_eq_false hj, Bool.false_and, Bool.false_or]
          have hiff : (start + count ≤ j ∧ j < numBits) ↔ start ≤ j ∧ j < numBits := by omega
          rw [decide_eq_decide.mpr hiff]
          by_cases hall : start ≤ j ∧ j < numBits
          · have hsub : bitPos + (j - start) - 8 = j - (start + count) := by omega
            rw [streamBit_cons, if_neg (by omega), hsub]
          · rw [decide_eq_false hall, Bool.false_and, Bool.false_and]

/-- **What is read**: the bits of the stream, zeros past its end. -/
theorem readBits_testBit (data : List UInt8) (bitOffs : ℕ) {numBits : ℕ} (hpos : 0 < numBits)
    (hle : numBits ≤ 64) :
    ∃ w, readBits data bitOffs numBits = .ok w ∧ w < 2 ^ numBits ∧
      ∀ j, w.testBit j = (decide (j < numBits) && streamBit data (bitOffs + j)) := by
  have hmod : bitOffs % 8 < 8 := Nat.mod_lt bitOffs (by decide)
  have hbits (j : ℕ) :
      (readLoop numBits (data.drop (bitOffs / 8)) (bitOffs % 8) 0 numBits).testBit j =
        (decide (j < numBits) && streamBit data (bitOffs + j)) := by
    have hsplit : 8 * (bitOffs / 8) + (bitOffs % 8 + j) = bitOffs + j := by omega
    rw [readLoop_bits _ hmod hpos le_rfl (by rw [Nat.sub_self]; exact one_pos), Nat.zero_testBit,
      Bool.false_or, Nat.sub_self, Nat.sub_zero, streamBit_drop, hsplit,
      decide_eq_decide.mpr (and_iff_right (Nat.zero_le j))]
  refine ⟨_, if_neg (not_not.mpr ⟨hpos, hle⟩), ?_, hbits⟩
  refine Nat.lt_pow_two_of_testBit _ fun i hi => ?_
  rw [hbits, decide_eq_false (not_lt.mpr hi), Bool.false_and]

end NativeClient
