import Mathlib.Tactic

/-!
# Little-endian words

`leBytes` is the fixed-width little-endian form of a word and `fromLe` the word of a byte string.
The two are inverse to each other: `fromLe_leBytes` on the words that fit the width, and
`leBytes_fromLe` on every byte string, so a fixed-width field is canonical.  `leInt` and `fromLeInt`
are the same for signed words, and `leWords` reads an array of words.
-/

namespace Codec

/-- The `width` low bytes of a word, lowest first. -/
def leBytes : ℕ → ℕ → List UInt8
  | 0, _ => []
  | width + 1, w => UInt8.ofNat w :: leBytes width (w / 256)

/-- The word of a little-endian byte string. -/
def fromLe : List UInt8 → ℕ
  | [] => 0
  | b :: bytes => b.toNat + 256 * fromLe bytes

@[simp] theorem length_leBytes (width w : ℕ) : (leBytes width w).length = width := by
  induction width generalizing w with
  | zero => rfl
  | succ width ih => rw [leBytes, List.length_cons, ih]

theorem fromLe_lt (bytes : List UInt8) : fromLe bytes < 256 ^ bytes.length := by
  induction bytes with
  | nil => exact one_pos
  | cons b bytes ih =>
      have hb := b.toNat_lt
      rw [fromLe, List.length_cons, pow_succ]
      omega

/-- **A word survives**, modulo the width. -/
theorem fromLe_leBytes_mod (width w : ℕ) : fromLe (leBytes width w) = w % 256 ^ width := by
  induction width generalizing w with
  | zero => rw [pow_zero, Nat.mod_one]; rfl
  | succ width ih =>
      rw [leBytes, fromLe, ih, pow_succ, mul_comm (256 ^ width), Nat.mod_mul, UInt8.toNat_ofNat']

theorem fromLe_leBytes {width w : ℕ} (hw : w < 256 ^ width) : fromLe (leBytes width w) = w := by
  rw [fromLe_leBytes_mod, Nat.mod_eq_of_lt hw]

/-- **A byte string survives.** -/
theorem leBytes_fromLe (bytes : List UInt8) : leBytes bytes.length (fromLe bytes) = bytes := by
  induction bytes with
  | nil => rfl
  | cons b bytes ih =>
      have hb := b.toNat_lt
      have hmod : UInt8.ofNat (b.toNat + 256 * fromLe bytes) = b := by
        apply UInt8.toNat_inj.mp
        rw [UInt8.toNat_ofNat']
        omega
      have hdiv : (b.toNat + 256 * fromLe bytes) / 256 = fromLe bytes := by omega
      rw [fromLe, List.length_cons, leBytes, hmod, hdiv, ih]

theorem leBytes_injOn {width w w' : ℕ} (hw : w < 256 ^ width) (hw' : w' < 256 ^ width)
    (h : leBytes width w = leBytes width w') : w = w' := by
  rw [← fromLe_leBytes hw, h, fromLe_leBytes hw']

/-! ## Arrays of words -/

/-- The `count` words of a string, `width` bytes each. -/
def leWords (width count : ℕ) (bytes : List UInt8) : List ℕ :=
  (List.range count).map fun i => fromLe ((bytes.drop (i * width)).take width)

@[simp] theorem length_leWords (width count : ℕ) (bytes : List UInt8) :
    (leWords width count bytes).length = count := by
  rw [leWords, List.length_map, List.length_range]

theorem leWords_succ (width count : ℕ) (bytes : List UInt8) :
    leWords width (count + 1) bytes =
      fromLe (bytes.take width) :: leWords width count (bytes.drop width) := by
  rw [leWords, List.range_succ_eq_map, List.map_cons, List.map_map, zero_mul, List.drop_zero]
  congr 1
  refine List.map_congr_left fun i _ => ?_
  dsimp only [Function.comp]
  rw [List.drop_drop, Nat.succ_mul, add_comm]

/-- **Words of a fixed width are read back.** -/
theorem leWords_flatMap {width : ℕ} {words : List ℕ} (hlt : ∀ w ∈ words, w < 256 ^ width) :
    leWords width words.length (words.flatMap (leBytes width)) = words := by
  induction words with
  | nil => rfl
  | cons w words ih =>
      obtain ⟨hw, hwords⟩ := List.forall_mem_cons.mp hlt
      rw [List.flatMap_cons, List.length_cons, leWords_succ,
        List.take_left' (length_leBytes width w), List.drop_left' (length_leBytes width w),
        fromLe_leBytes hw, ih hwords]

/-- **A string of the right length is the encoding of its words.** -/
theorem flatMap_leWords {width count : ℕ} {bytes : List UInt8}
    (hlen : bytes.length = count * width) :
    (leWords width count bytes).flatMap (leBytes width) = bytes := by
  induction count generalizing bytes with
  | zero =>
      rw [zero_mul] at hlen
      rw [List.length_eq_zero_iff.mp hlen]
      rfl
  | succ count ih =>
      rw [Nat.succ_mul] at hlen
      have htake : (bytes.take width).length = width := by
        rw [List.length_take, hlen]
        omega
      have hdrop : (bytes.drop width).length = count * width := by
        rw [List.length_drop, hlen]
        omega
      have hhead := leBytes_fromLe (bytes.take width)
      rw [htake] at hhead
      rw [leWords_succ, List.flatMap_cons, ih hdrop, hhead, List.take_append_drop]

theorem flatMap_leBytes_injOn {width : ℕ} {words words' : List ℕ}
    (hlen : words.length = words'.length) (hlt : ∀ w ∈ words, w < 256 ^ width)
    (hlt' : ∀ w ∈ words', w < 256 ^ width)
    (h : words.flatMap (leBytes width) = words'.flatMap (leBytes width)) : words = words' := by
  rw [← leWords_flatMap hlt, h, hlen, leWords_flatMap hlt']

/-! ## Signed words -/

/-- The two's complement form of a signed word. -/
def leInt (width : ℕ) (z : ℤ) : List UInt8 := leBytes width (z % (256 ^ width : ℕ)).toNat

/-- The signed word of a little-endian byte string. -/
def fromLeInt (bytes : List UInt8) : ℤ :=
  let w := fromLe bytes
  if w < 256 ^ bytes.length / 2 then w else w - (256 ^ bytes.length : ℕ)

@[simp] theorem length_leInt (width : ℕ) (z : ℤ) : (leInt width z).length = width :=
  length_leBytes width _

/-- A signed word is in the range of its width. -/
theorem fromLeInt_bounds (bytes : List UInt8) {half : ℕ} (h : 256 ^ bytes.length = 2 * half) :
    -(half : ℤ) ≤ fromLeInt bytes ∧ fromLeInt bytes < half := by
  have hlt := fromLe_lt bytes
  unfold fromLeInt
  dsimp only
  rw [h] at hlt ⊢
  split <;> omega

/-- **A signed word survives**, if it is in the range of the width. -/
theorem fromLeInt_leInt {width half : ℕ} (h : 256 ^ width = 2 * half) {z : ℤ}
    (hlo : -(half : ℤ) ≤ z) (hhi : z < half) : fromLeInt (leInt width z) = z := by
  have hmod : (z % (256 ^ width : ℕ)).toNat < 256 ^ width := by
    have hpos : (0 : ℤ) < (256 ^ width : ℕ) := by exact_mod_cast Nat.pow_pos (by decide)
    have hnonneg := Int.emod_nonneg z hpos.ne'
    have hlt := Int.emod_lt_of_pos z hpos
    omega
  unfold fromLeInt
  dsimp only
  rw [length_leInt, leInt, fromLe_leBytes hmod, h]
  push_cast
  by_cases hneg : z < 0
  · have hwrap : z % (2 * half) = z + 2 * half := by
      rw [← Int.add_emod_right, Int.emod_eq_of_lt (by omega) (by omega)]
    rw [hwrap, if_neg (by omega)]
    omega
  · rw [Int.emod_eq_of_lt (by omega) (by omega), if_pos (by omega)]
    omega

end Codec
