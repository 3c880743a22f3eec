import IpirSp.Codec.LittleEndian
import IpirSp.Loops.Writes
import Mathlib.Data.List.GetD

/-!
# Bit streams

Bit `k` of a byte string is bit `k % 8` of byte `k / 8`; past the end it is zero.  A byte string is
determined by its length and its bits, and an `|=` on one byte adds bits.  `HoldsWords` says which
stream holds words of a fixed width one after the other, and `HoldsWords.eq` that there is one such
string of each length.
-/

namespace Codec

open Loops

/-- Bit `k` of a byte string. -/
def streamBit (data : List UInt8) (k : ℕ) : Bool := (data.getD (k / 8) 0).toNat.testBit (k % 8)

theorem streamBit_of_le {data : List UInt8} {k : ℕ} (hk : 8 * data.length ≤ k) :
    streamBit data k = false := by
  have hbyte : data.length ≤ k / 8 := by omega
  rw [streamBit, List.getD_eq_default _ _ hbyte, UInt8.toNat_zero, Nat.zero_testBit]

theorem streamBit_replicate (n k : ℕ) : streamBit (List.replicate n 0) k = false := by
  rw [streamBit, List.getD_eq_getElem?_getD, List.getElem?_replicate]
  split <;> simp

theorem streamBit_cons (b : UInt8) (data : List UInt8) (k : ℕ) :
    streamBit (b :: data) k = if k < 8 then b.toNat.testBit k else streamBit data (k - 8) := by
  split
  · rename_i hk
    rw [streamBit, Nat.div_eq_of_lt hk, Nat.mod_eq_of_lt hk, List.getD_cons_zero]
  · rename_i hk
    have hdiv : k / 8 = (k - 8) / 8 + 1 := by omega
    have hmod : k % 8 = (k - 8) % 8 := by omega
    rw [streamBit, hdiv, hmod, List.getD_cons_succ, streamBit]

theorem streamBit_drop (data : List UInt8) (n k : ℕ) :
    streamBit (data.drop n) k = streamBit data (8 * n + k) := by
  have hdiv : (8 * n + k) / 8 = n + k / 8 := by omega
  have hmod : (8 * n + k) % 8 = k % 8 := by omega
  rw [streamBit, streamBit, hdiv, hmod, List.getD_eq_getElem?_getD, List.getD_eq_getElem?_getD,
    List.getElem?_drop]

theorem streamBit_append (data data' : List UInt8) (k : ℕ) :
    streamBit (data ++ data') k =
      if k < 8 * data.length then streamBit data k else streamBit data' (k - 8 * data.length) := by
  split
  · rename_i hk
    have hbyte : k / 8 < data.length := by omega
    rw [streamBit, streamBit, List.getD_append _ _ _ _ hbyte]
  · rename_i hk
    have hbyte : data.length ≤ k / 8 := by omega
    have hdiv : k / 8 - data.length = (k - 8 * data.length) / 8 := by omega
    have hmod : k % 8 = (k - 8 * data.length) % 8 := by omega
    rw [streamBit, streamBit, List.getD_append_right _ _ _ _ hbyte, hdiv, hmod]

theorem streamBit_take (data : List UInt8) (n k : ℕ) :
    streamBit (data.take n) k = (decide (k < 8 * n) && streamBit data k) := by
  rw [streamBit, streamBit, List.getD_eq_getElem?_getD, List.getD_eq_getElem?_getD,
    List.getElem?_take]
  by_cases hk : k < 8 * n
  · rw [if_pos (by omega), decide_eq_true hk, Bool.true_and]
  · rw [if_neg (by omega), decide_eq_false hk, Bool.false_and, Option.getD_none, UInt8.toNat_zero,
      Nat.zero_testBit]

/-- A byte has no bit past the eighth. -/
theorem toNat_testBit_of_le (b : UInt8) {j : ℕ} (hj : 8 ≤ j) : b.toNat.testBit j = false :=
  Nat.testBit_lt_two_pow (b.toNat_lt.trans_le (Nat.pow_le_pow_right two_pos hj))

/-- The bits of a little-endian word are those of its bytes. -/
theorem testBit_fromLe (bytes : List UInt8) (k : ℕ) :
    (fromLe bytes).testBit k = streamBit bytes k := by
  induction bytes generalizing k with
  | nil => rw [fromLe, Nat.zero_testBit, streamBit_of_le (Nat.zero_le k)]
  | cons b bytes ih =>
      have hword : fromLe (b :: bytes) = 2 ^ 8 * fromLe bytes + b.toNat := by
        rw [fromLe]
        omega
      rw [hword, Nat.testBit_two_pow_mul_add _ b.toNat_lt, streamBit_cons, ih]

/-- The bytes of a word hold its low bits. -/
theorem streamBit_leBytes (width w k : ℕ) :
    streamBit (leBytes width w) k = (decide (k < 8 * width) && w.testBit k) := by
  have hpow : 256 ^ width = 2 ^ (8 * width) := by
    rw [pow_mul]
    rfl
  rw [← testBit_fromLe, fromLe_leBytes_mod, hpow, Nat.testBit_mod_two_pow]

/-- **A byte string is its bits.** -/
theorem ext_streamBit {data data' : List UInt8} (hlen : data.length = data'.length)
    (hbits : ∀ k < 8 * data.length, streamBit data k = streamBit data' k) : data = data' := by
  refine List.ext_getElem hlen fun i hi hi' => ?_
  apply UInt8.toNat_inj.mp
  refine Nat.eq_of_testBit_eq fun j => ?_
  by_cases hj : j < 8
  · have hbit := hbits (8 * i + j) (by omega)
    have hdiv : (8 * i + j) / 8 = i := by omega
    have hmod : (8 * i + j) % 8 = j := by omega
    rwa [streamBit, streamBit, hdiv, hmod, List.getD_eq_getElem _ _ hi,
      List.getD_eq_getElem _ _ hi'] at hbit
  · rw [toNat_testBit_of_le _ (not_lt.mp hj), toNat_testBit_of_le _ (not_lt.mp hj)]

/-- `data[i] |= v as u8` adds the bits of `v`. -/
theorem streamBit_modify_or {data : List UInt8} {i : ℕ} (hi : i < data.length) (v k : ℕ) :
    streamBit (data.modify i (· ||| UInt8.ofNat v)) k =
      (streamBit data k || (decide (k / 8 = i) && v.testBit (k % 8))) := by
  have hmod : k % 8 < 8 := Nat.mod_lt k (by decide)
  rw [streamBit, streamBit, List.getD_eq_getElem?_getD, List.getD_eq_getElem?_getD,
    List.getElem?_modify]
  by_cases hk : k / 8 = i
  · subst hk
    rw [List.getElem?_eq_getElem hi]
    simp [Nat.testBit_mod_two_pow _ 8, hmod]
  · have hne : i ≠ k / 8 := Ne.symm hk
    simp [hk, hne]

/-- A stream that holds words of `bits` bits, one after the other, and zeros. -/
def HoldsWords (bits : ℕ) (words : List ℕ) (data : List UInt8) : Prop :=
  ∀ k, streamBit data k =
    (decide (k < words.length * bits) && (words.getD (k / bits) 0).testBit (k % bits))

/-- One string of each length holds given words. -/
theorem HoldsWords.eq {bits : ℕ} {words : List ℕ} {data data' : List UInt8}
    (h : HoldsWords bits words data) (h' : HoldsWords bits words data')
    (hlen : data.length = data'.length) : data = data' :=
  ext_streamBit hlen fun k _ => (h k).trans (h' k).symm

/-- No words, no bits. -/
theorem holdsWords_nil (bits n : ℕ) : HoldsWords bits [] (List.replicate n 0) := by
  intro k
  rw [streamBit_replicate, List.length_nil, zero_mul, decide_eq_false (Nat.not_lt_zero k),
    Bool.false_and]

/-- **Writing the next word**: a write that adds the bits of one word after those that are there. -/
theorem HoldsWords.snoc {bits : ℕ} {words : List ℕ} {out out' : List UInt8} {w : ℕ}
    (h : HoldsWords bits words out) (hlen : out'.length = out.length)
    (hfit : words.length * bits + bits ≤ 8 * out.length)
    (hwrite : ∀ k < 8 * out.length, streamBit out' k = (streamBit out k ||
      (decide (words.length * bits ≤ k ∧ k < words.length * bits + bits) &&
        w.testBit (k - words.length * bits)))) :
    HoldsWords bits (words ++ [w]) out' := by
  intro k
  have hend : (words ++ [w]).length * bits = words.length * bits + bits := by
    rw [List.length_append, List.length_singleton, Nat.add_mul, one_mul]
  rw [hend]
  by_cases hk : k < 8 * out.length
  · rw [hwrite k hk, h k]
    by_cases hold : k < words.length * bits
    · -- a field written before
      have hdiv : k / bits < words.length := (Nat.div_lt_iff_lt_mul (by
        by_contra hzero
        obtain rfl : bits = 0 := by omega
        omega)).mpr hold
      have hnew : ¬(words.length * bits ≤ k ∧ k < words.length * bits + bits) := by omega
      rw [List.getD_append _ _ _ _ hdiv, decide_eq_true hold, decide_eq_false hnew,
        Bool.false_and, Bool.or_false, decide_eq_true (by omega)]
    · rw [decide_eq_false hold, Bool.false_and, Bool.false_or]
      by_cases hnew : k < words.length * bits + bits
      · -- the field of the word
        obtain ⟨j, rfl⟩ := Nat.exists_eq_add_of_le (not_lt.mp hold)
        have hj : j < bits := by omega
        have hword : (words ++ [w]).getD words.length 0 = w := by
          rw [List.getD_append_right _ _ _ _ le_rfl, Nat.sub_self, List.getD_cons_zero]
        rw [flat_div hj, flat_mod hj, hword, decide_eq_true hnew,
          decide_eq_true ⟨by omega, hnew⟩, Nat.add_sub_cancel_left]
      · rw [decide_eq_false (by omega), decide_eq_false hnew, Bool.false_and, Bool.false_and]
  · rw [streamBit_of_le (by omega), decide_eq_false (by omega), Bool.false_and]

end Codec
