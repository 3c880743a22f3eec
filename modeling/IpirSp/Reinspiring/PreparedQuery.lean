import IpirSp.Gadget.Balanced
import IpirSp.Loops.Windows
import IpirSp.MachineWord.ByteDot
import IpirSp.Reinspiring.NativeKernel
import IpirSp.Reinspiring.Params
import Mathlib.Data.UInt

/-!
# Prepared queries

A query is multiplied with the columns of a database of bytes or of 16-bit words.  On a host with
byte dot products the query is cut into signed bytes, once for all columns, and the lowest digits
are dropped while they vanish in all rows; other hosts multiply words.  Columns are stored one after
the other, or interleaved in bands of sixteen columns whose tiles hold the bytes of four rows.

`digitPlanes_byteDigits` is what the digits of a canonical query satisfy: with the dropped digits
they make the words modulo `q`, and a digit above the last has a weight that `q` divides.
-/

namespace Reinspiring

open Loops MachineWord Inspiring

section Code

/-- `PreparedU16Query`. -/
structure PreparedU16Query where
  words : List ℕ
  digits : List (List ℤ)
  /-- The digits below `digits` that vanish in every row. -/
  skip : ℕ
  mask : ℕ

/-- `supports_interleaved`. -/
def Host.supportsInterleaved (host : Host) : Bool :=
  host.avx512vnni && host.avx512bw && host.avx512

/-- The digits of one word: `digit = x as u8 as i8; x = (x + 128) >> 8`. -/
def wordDigits : ℕ → ℕ → List ℤ
  | 0, _ => []
  | limbs + 1, x => asI8 x :: wordDigits limbs ((x + 128) >>> 8)

/-- `byte_digits`, for `q` a power of two. -/
def byteDigits (words : List ℕ) (q : ℕ) : List (List ℤ) × ℕ :=
  let limbs := (q.log2 + 7) / 8
  let digits := (List.range limbs).map fun j => words.map fun x => (wordDigits limbs x).getD j 0
  let skip := ((digits.take (limbs - 1)).takeWhile fun d => d.all fun x => x = 0).length
  (digits.drop skip, skip)

/-- What `new` keeps of canonical words. -/
def PreparedU16Query.ofWords (host : Host) (words : List ℕ) (q : ℕ) : PreparedU16Query :=
  let prepared := if host.supportsInterleaved then byteDigits words q else ([], 0)
  ⟨words, prepared.1, prepared.2, q - 1⟩

/-- `PreparedU16Query::new`. -/
def PreparedU16Query.new (host : Host) (words : List ℕ) (q : ℕ) : Result PreparedU16Query :=
  if ¬IsPowerOfTwo q ∨ ¬(2 ≤ q ∧ q ≤ 2 ^ 56) ∨ ∃ x ∈ words, x ≥ q then
    invalidParams "invalid native dot query"
  else .ok (PreparedU16Query.ofWords host words q)

/-- The digit counts that the kernels are compiled for. -/
def limbCount (digits : List (List ℤ)) : Result Unit :=
  if 1 ≤ digits.length ∧ digits.length ≤ 7 then .ok ()
  else .error (.panic "validated byte limb count")

/-- The value of lane operations, which panic where a lane does not wrap. -/
def laneResult {α : Type} : Option α → Result α
  | some a => .ok a
  | none => .error (.panic "lane overflow")

/-- The starts of the steps of a window. -/
def stepStarts (start stop step : ℕ) : List ℕ := (blockStarts (stop - start) step).map (start + ·)

/-! ### Columns -/

/-- A window of `u16_dot_vnni`: the byte products of all digits, then their sums. -/
def dotWindow (lanes : Overflow) (a : List UInt16) (digits : List (List ℤ)) (offset base start stop
    result : ℕ) : Option ℕ := do
  let lo := fun i b => (a.getD (i + b) 0).toNat % 256
  let hi := fun i b => (a.getD (i + b) 0).toNat / 256
  let ys := digits.map fun d i b => d.getD (offset + i + b) 0
  let low ← lanes.accumulate 16 lo ys (stepStarts start stop 64)
  let high ← lanes.accumulate 16 hi ys (stepStarts start stop 64)
  let l ← low.mapM lanes.reduceAdd
  let h ← high.mapM lanes.reduceAdd
  return flush base (l.zip (h.map some)) result

/-- `u16_dot_vnni`. -/
def u16DotVnni (lanes : Overflow) (a : List UInt16) (b : List ℕ) (digits : List (List ℤ))
    (offset base : ℕ) : Result ℕ := do
  let stop := a.length / 64 * 64
  let result ← windowLoop 65536 (by decide) stop (fun start stop result =>
    laneResult (dotWindow lanes a digits offset base start stop result)) 0 0
  return (List.range' stop (a.length - stop)).foldl
    (fun s i => wrappingAdd s (wrappingMul (a.getD i 0).toNat (wordAt b i))) result

variable (host : Host) (lanes : Overflow) (Q : PreparedU16Query)

/-- `PreparedU16Query::dot_u8`. -/
def PreparedU16Query.dotU8 (column : List UInt8) : Result ℕ :=
  if column.length ≠ Q.words.length then .error (.panic "assertion `left == right` failed")
  else .ok (Reinspiring.dotU8 host column Q.words &&& Q.mask)

/-- `dot_range`. -/
def PreparedU16Query.dotRange (column : List UInt16) (offset : ℕ) : Result ℕ :=
  let words := (Q.words.drop offset).take column.length
  if Q.digits ≠ [] then do
    limbCount Q.digits
    let result ← u16DotVnni lanes column words Q.digits offset (8 * Q.skip)
    return result &&& Q.mask
  else .ok (dotU16 host column words &&& Q.mask)

/-- `PreparedU16Query::dot`. -/
def PreparedU16Query.dot (column : List UInt16) : Result ℕ :=
  if column.length ≠ Q.words.length then .error (.panic "assertion `left == right` failed")
  else Q.dotRange host lanes column 0

/-! ### Interleaved bands -/

/-- A `scratch` array of `n` elements after its writes. -/
def scratch {α : Type} [Zero α] (n : ℕ) (writes : List (ℕ × α)) : List α :=
  (List.range n).map (applyWrites (fun _ => 0) writes)

/-- The writes of `interleave_u8_columns` for one band. -/
def u8Writes (band : List UInt8) (rows : ℕ) : List (ℕ × UInt8) :=
  (blockStarts rows 4).flatMap fun row => (List.range 16).flatMap fun col =>
    (List.range 4).map fun k => (row * 16 + col * 4 + k, band.getD (col * rows + row + k) 0)

/-- The writes of `interleave_columns` for one band. -/
def u16Writes (band : List UInt16) (rows : ℕ) : List (ℕ × UInt16) :=
  (blockStarts rows 4).flatMap fun row => (List.range 16).flatMap fun col =>
    (List.range 2).flatMap fun pair =>
      let x := band.getD (col * rows + row + 2 * pair) 0
      let y := band.getD (col * rows + row + 2 * pair + 1) 0
      [(row * 16 + col * 2 + pair, (x &&& (255 : UInt16)) ||| ((y &&& (255 : UInt16)) <<<
        (8 : UInt16))),
        (row * 16 + 32 + col * 2 + pair, (x >>> (8 : UInt16)) ||| (y &&& (0xff00 : UInt16)))]

/-- The bands of an interleaved database. -/
def interleaveBands {α : Type} [Zero α] (writes : List α → ℕ → List (ℕ × α)) (db : List α)
    (rows : ℕ) : Result (List α) :=
  if ¬(0 < rows ∧ rows % 4 = 0 ∧ db.length % (rows * 16) = 0) then
    .error (.panic "assertion failed: rows > 0 && rows % 4 == 0 && db.len() % (rows * 16) == 0")
  else .ok ((chunks (rows * 16) db).flatMap fun band => scratch band.length (writes band rows))

/-- `interleave_u8_columns`. -/
def interleaveU8Columns (db : List UInt8) (rows : ℕ) : Result (List UInt8) :=
  interleaveBands u8Writes db rows

/-- `interleave_columns`. -/
def interleaveColumns (db : List UInt16) (rows : ℕ) : Result (List UInt16) :=
  interleaveBands u16Writes db rows

/-- A byte of the tile of 16-bit words that starts at `word`. -/
def tileByte (band : List UInt16) (word lane : ℕ) : ℕ :=
  ((band.getD (word + lane / 2) 0).toNat >>> (lane % 2 * 8)) &&& 255

/-- A window of the interleaved kernels.  There is no high plane for bytes, and none for the last
digit of 16-bit words, where its weight vanishes modulo `q`. -/
def bandWindow (lo : ℕ → ℕ → ℕ) (hi : Option (ℕ → ℕ → ℕ)) (digits : List (List ℤ))
    (base start stop : ℕ) (out : Lanes 16) : Option (Lanes 16) := do
  let ys := digits.map fun d row b => d.getD (row + b % 4) 0
  let low ← lanes.accumulate 16 lo ys (stepStarts start stop 4)
  let high ← (match hi with
    | some hi => (fun high => high.map some ++ [none]) <$>
        lanes.accumulate 16 hi ys.dropLast (stepStarts start stop 4)
    | none => some (low.map fun _ => none))
  return fun col => flush base ((low.zip high).map fun (l, h) => (l col, h.map (· col))) (out col)

/-- `interleaved_inner` and `interleaved_u8_inner`. -/
def bandVnni (rows : ℕ) (lo : ℕ → ℕ → ℕ) (hi : Option (ℕ → ℕ → ℕ)) (digits : List (List ℤ))
    (base mask : ℕ) : Result (Lanes 16) := do
  limbCount digits
  let out ← windowLoop 65536 (by decide) rows (fun start stop out =>
    laneResult (bandWindow lanes lo hi digits base start stop out)) 0 (zeroLanes 16)
  return fun col => out col &&& mask

/-- The portable loop of the interleaved products. -/
def bandPortable (rows : ℕ) (value : ℕ → ℕ → ℕ) (words : List ℕ) (mask : ℕ) : Lanes 16 :=
  let out := (blockStarts rows 4).foldl
    (fun (out : Lanes 16) row => fun col => (List.range 4).foldl
      (fun s k => wrappingAdd s (wrappingMul (value row (col * 4 + k)) (wordAt words (row + k))))
      (out col))
    (zeroLanes 16)
  fun col => out col &&& mask

/-- The bands of an interleaved product. -/
def multiplyBands {α : Type} (db : List α) (cols : ℕ) (band : List α → Result (Lanes 16)) :
    Result (List ℕ) :=
  let rows := Q.words.length
  if ¬(0 < rows ∧ rows % 4 = 0 ∧ cols % 16 = 0) then
    .error (.panic "assertion failed: rows > 0 && rows % 4 == 0 && out.len() % 16 == 0")
  else if db.length ≠ rows * cols then .error (.panic "assertion `left == right` failed")
  else do
    let bands ← (chunks (rows * 16) db).mapM band
    return bands.flatMap fun out => List.ofFn out

/-- `multiply_interleaved_u8`, for `cols` columns. -/
def PreparedU16Query.multiplyInterleavedU8 (db : List UInt8) (cols : ℕ) : Result (List ℕ) :=
  let rows := Q.words.length
  multiplyBands Q db cols fun band =>
    let lo := fun row b => (band.getD (row * 16 + b) 0).toNat
    if Q.digits ≠ [] then bandVnni lanes (band.length / 16) lo none Q.digits (8 * Q.skip) Q.mask
    else .ok (bandPortable rows lo Q.words Q.mask)

/-- `multiply_interleaved`, for `cols` columns. -/
def PreparedU16Query.multiplyInterleaved (db : List UInt16) (cols : ℕ) : Result (List ℕ) :=
  let rows := Q.words.length
  multiplyBands Q db cols fun band =>
    let lo := fun row b => tileByte band (row * 16) b
    let hi := fun row b => tileByte band (row * 16 + 32) b
    if Q.digits ≠ [] then
      bandVnni lanes (band.length / 16) lo (some hi) Q.digits (8 * Q.skip) Q.mask
    else .ok (bandPortable rows (fun row b => lo row b ||| hi row b <<< 8) Q.words Q.mask)

end Code

/-! ## Digits -/

theorem asI8_eq (x : ℕ) : asI8 x = Gadget.digit 256 x := by
  rw [asI8, Gadget.digit]
  split <;> omega

/-- The carry of a digit is what remains above it. -/
theorem carry_eq (x : ℕ) : (((x + 128) >>> 8 : ℕ) : ℤ) = Gadget.rest 256 x := by
  have hsum := Gadget.digit_add_rest 256 (x : ℤ)
  have hdigit : asI8 x + (256 : ℤ) * (((x + 128) >>> 8 : ℕ) : ℤ) = x := by
    rw [Nat.shiftRight_eq_div_pow, asI8]
    split <;> omega
  rw [← asI8_eq] at hsum
  linarith

/-- **The digits are balanced digits** in base 256. -/
theorem wordDigits_eq (limbs x : ℕ) : wordDigits limbs x = Gadget.digits 256 limbs x := by
  induction limbs generalizing x with
  | zero => rfl
  | succ limbs ih => rw [wordDigits, Gadget.digits, asI8_eq, ih, carry_eq]

/-- What the kernels need of the digits of a query. -/
structure DigitPlanes (q : ℕ) (words : List ℕ) (digits : List (List ℤ)) (skip : ℕ) : Prop where
  pos : 1 ≤ digits.length
  room : 8 * skip + 8 * digits.length ≤ 56
  abs_le : ∀ d ∈ digits, ∀ i, |d.getD i 0| ≤ 128
  /-- A digit above the last vanishes. -/
  dvd : q ∣ 2 ^ (8 * skip + 8 * digits.length)
  value : ∀ i < words.length,
    ((weighted (8 * skip) (digits.map fun d => d.getD i 0) : ℤ) : ZMod q) = words.getD i 0

/-- The digits of all words, one list for each digit. -/
def planes (limbs : ℕ) (words : List ℕ) : List (List ℤ) :=
  (List.range limbs).map fun j => words.map fun x => (wordDigits limbs x).getD j 0

/-- The planes of one word are its digits. -/
theorem planes_getD (limbs : ℕ) {words : List ℕ} {i : ℕ} (hi : i < words.length) :
    (planes limbs words).map (fun d => d.getD i 0) = wordDigits limbs (words.getD i 0) := by
  have hlen (x : ℕ) : (wordDigits limbs x).length = limbs := by
    rw [wordDigits_eq, Gadget.length_digits]
  refine List.ext_getElem (by simp [planes, hlen]) fun j hj hj' => ?_
  have hword : words[i]?.getD 0 = words.getD i 0 := (List.getD_eq_getElem?_getD).symm
  rw [← List.getD_eq_getElem _ 0 hj', ← hword]
  simp [planes, hi]

/-- The digits of a word, without the last carry. -/
theorem cast_weighted_wordDigits {q limbs : ℕ} (hdvd : q ∣ 2 ^ (8 * limbs)) (x : ℕ) :
    ((weighted 0 (wordDigits limbs x) : ℤ) : ZMod q) = x := by
  have hsum := Gadget.sum_digits 256 limbs (x : ℤ)
  have hzero : ((256 : ZMod q)) ^ limbs = 0 := by
    have hcast := (ZMod.natCast_eq_zero_iff _ _).mpr hdvd
    push_cast at hcast
    rw [pow_mul] at hcast
    norm_num at hcast
    exact hcast
  rw [wordDigits_eq, weighted_eq_sum, Gadget.length_digits, pow_zero, one_mul]
  have hcast := congrArg (Int.cast : ℤ → ZMod q) hsum
  rw [Int.cast_add, Int.cast_mul, Int.cast_pow, Int.cast_natCast] at hcast
  rw [← hcast]
  norm_num
  rw [hzero, zero_mul]

theorem abs_planes_le {limbs : ℕ} {words : List ℕ} {d : List ℤ} (hd : d ∈ planes limbs words)
    (i : ℕ) : |d.getD i 0| ≤ 128 := by
  obtain ⟨j, hj, rfl⟩ := List.mem_map.mp hd
  rw [List.getD_eq_getElem?_getD, List.getElem?_map]
  rcases words[i]? with _ | x
  · norm_num
  · rw [Option.map_some, Option.getD_some, wordDigits_eq, List.getD_eq_getElem?_getD]
    rcases hdigit : (Gadget.digits 256 limbs x)[j]? with _ | v
    · norm_num
    · have hbounds := Gadget.digits_bounds (by norm_num) (by norm_num) limbs (x : ℤ) v
        (List.mem_of_getElem? hdigit)
      rw [Option.getD_some, abs_le]
      omega

/-- **The digits of a canonical query** make its words modulo `q`. -/
theorem digitPlanes_byteDigits {q : ℕ} (hq : IsPowerOfTwo q) (htwo : 2 ≤ q) (hle : q ≤ 2 ^ 56)
    (words : List ℕ) : DigitPlanes q words (byteDigits words q).1 (byteDigits words q).2 := by
  have hlog : 1 ≤ q.log2 ∧ q.log2 ≤ 56 := by
    constructor
    · by_contra hzero
      rw [IsPowerOfTwo, Nat.lt_one_iff.mp (not_le.mp hzero)] at hq
      omega
    · rw [← hq] at hle
      exact (Nat.pow_le_pow_iff_right (by decide)).mp hle
  have hbyte : byteDigits words q =
      (let skip := (((planes ((q.log2 + 7) / 8) words).take ((q.log2 + 7) / 8 - 1)).takeWhile
        fun d => d.all fun x => x = 0).length
      ((planes ((q.log2 + 7) / 8) words).drop skip, skip)) := rfl
  rw [hbyte]
  generalize hlimbs : (q.log2 + 7) / 8 = limbs
  dsimp only
  generalize hzeros : ((planes limbs words).take (limbs - 1)).takeWhile
    (fun d => d.all fun x => x = 0) = zeros
  have hlen : (planes limbs words).length = limbs := by
    rw [planes, List.length_map, List.length_range]
  have hfront : zeros <+: (planes limbs words).take (limbs - 1) := by
    rw [← hzeros]
    exact List.takeWhile_prefix _
  have hskip : zeros.length ≤ limbs - 1 :=
    hfront.length_le.trans (List.length_take_le _ _)
  have hsplit : zeros ++ (planes limbs words).drop zeros.length = planes limbs words :=
    List.prefix_iff_eq_append.mp (hfront.trans (List.take_prefix _ _))
  have hdrop : ((planes limbs words).drop zeros.length).length = limbs - zeros.length := by
    rw [List.length_drop, hlen]
  have hdvd : q ∣ 2 ^ (8 * limbs) := by
    rw [← hq]
    exact pow_dvd_pow 2 (by omega)
  have htotal : 8 * zeros.length + 8 * (limbs - zeros.length) = 8 * limbs := by omega
  refine ⟨by omega, by rw [hdrop]; omega, fun d hd i => ?_, by rwa [hdrop, htotal], fun i hi => ?_⟩
  · exact abs_planes_le (List.mem_of_mem_drop hd) i
  · have hvanish : ∀ z ∈ zeros.map fun d => d.getD i 0, z = 0 := by
      intro z hz
      obtain ⟨d, hd, rfl⟩ := List.mem_map.mp hz
      rw [← hzeros] at hd
      have hall := List.all_eq_true.mp List.all_takeWhile d hd
      rw [List.all_eq_true] at hall
      rw [List.getD_eq_getElem?_getD]
      rcases hget : d[i]? with _ | v
      · rfl
      · exact of_decide_eq_true (hall v (List.mem_of_getElem? hget))
    have hword := planes_getD limbs hi
    rw [← hsplit, List.map_append] at hword
    have hweighted := congrArg (weighted 0) hword
    rw [weighted_append, weighted_eq_zero 0 hvanish, zero_add, zero_add,
      List.length_map] at hweighted
    rw [hweighted]
    exact cast_weighted_wordDigits hdvd _

end Reinspiring
