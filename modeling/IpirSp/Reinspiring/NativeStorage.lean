import IpirSp.Loops.Iterator
import IpirSp.Loops.Windows
import IpirSp.Reinspiring.NativeKernel
import IpirSp.Reinspiring.NativeMatrix

/-!
# The arrays of a compact matrix

A compact matrix holds its entries in row-major order: as 32-bit words, as 64-bit words, or as a bit
stream of 27 or 28 bits an entry in which rows start at byte boundaries.  This module is the layer
of arrays under `NativeMatrix`: how a row is packed, how entries are read back, and which kernel
multiplies which tile of rows on which host.

`toCompiled_store` says that the arrays hold the entries, `multiply_store` that the kernels compute
the products of the entries, and `storage_irrelevant` puts both together with the choice of the
storage form.
-/

namespace Reinspiring

open Codec Loops MachineWord

/-- `Words`: the arrays. -/
inductive StoredWords
  | narrow (data : List ℤ)
  | packed (bits : ℕ) (data : List UInt8)
  | wide (data : List ℤ)

/-- `NativeMatrix`, with its arrays. -/
structure StoredMatrix where
  rows : ℕ
  cols : ℕ
  q : ℕ
  words : StoredWords

/-- Entries in row-major order. -/
def rowMajor {α : Type} (rows cols : ℕ) (entry : ℕ → ℕ → α) : List α :=
  (List.range rows).flatMap fun r => (List.range cols).map (entry r)

/-- `row[offset + byte] |= (shifted >> (8 * byte)) as u8`, for the bytes that an entry touches. -/
def writePacked (bits : ℕ) (row : List UInt8) (col value : ℕ) : List UInt8 :=
  let offset := col * bits / 8
  let shifted := value <<< (col * bits % 8)
  (List.range ((bits + col * bits % 8 + 7) / 8)).foldl
    (fun row byte => row.modify (offset + byte) (· ||| UInt8.ofNat (shifted >>> (8 * byte)))) row

/-- One row of packed entries. -/
def packRow (bits stride : ℕ) (codes : List ℕ) : List UInt8 :=
  codes.zipIdx.foldl (fun row (value, col) => writePacked bits row col value)
    (List.replicate stride 0)

/-- The packed rows, with eight bytes behind the last one. -/
def packRows (bits rows cols : ℕ) (code : ℕ → ℕ → ℕ) : List UInt8 :=
  let stride := cols / 8 * bits
  (List.range rows).flatMap (fun r => packRow bits stride ((List.range cols).map (code r))) ++
    List.replicate 8 0

/-- The arrays that `from_blocks` fills. -/
def NativeMatrix.store (M : NativeMatrix) : StoredMatrix where
  rows := M.rows
  cols := M.cols
  q := M.q
  words := match M.words with
    | .narrow entry => .narrow (rowMajor M.rows M.cols entry)
    | .packed bits code => .packed bits (packRows bits M.rows M.cols code)
    | .wide entry => .wide (rowMajor M.rows M.cols entry)

/-- `NativeMatrix::from_blocks`. -/
def StoredMatrix.fromBlocks (host : Host) (blocks : List PackingMatrix) : Result StoredMatrix := do
  let M ← NativeMatrix.fromBlocks host.supportsPacked blocks
  return M.store

/-- The stored entry at an index of the arrays. -/
def StoredWords.read : StoredWords → ℕ → ℤ
  | narrow data, i | wide data, i => data.getD i 0
  | packed bits data, i => readPackedAt bits data i

/-- `to_compiled`. -/
def StoredMatrix.toCompiled (S : StoredMatrix) : PackingMatrix where
  rows := S.rows
  cols := S.cols
  q := S.q
  entry r c := (S.words.read (r * S.cols + c) % (S.q : ℤ)).toNat

/-- The product over a power of two. -/
def StoredMatrix.multiplyEven (host : Host) (S : StoredMatrix) (y : List ℕ) : List ℕ :=
  match S.words with
  | .packed bits data =>
      let stride := S.cols / 8 * bits
      let size := if S.rows % 8 = 0 then 8 else 4
      mapTiles size S.rows fun tile _ r =>
        let bytes := (data.drop (tile * size * stride)).take (size * stride + 8)
        dotPackedRows host bits (16 / size) bytes stride y r &&& (S.q - 1)
  | .narrow data =>
      mapTiles 4 S.rows fun tile count r =>
        let start := tile * 4 * S.cols
        if count = 4 then
          dotI32Rows4 host ((data.drop start).take (4 * S.cols)) y r &&& (S.q - 1)
        else dotI32 host ((data.drop (start + r * S.cols)).take S.cols) y &&& (S.q - 1)
  | .wide data =>
      (List.range S.rows).map fun r =>
        scalarI32 ((data.drop (r * S.cols)).take S.cols) y &&& (S.q - 1)

/-- `multiply_odd`. -/
def StoredMatrix.multiplyOdd (host : Host) (S : StoredMatrix) (y : List ℕ) : Result (List ℕ) :=
  match S.words with
  | .packed _ _ => .error (.panic "packed storage requires power-of-two modulus")
  | .narrow data =>
      let limbs := (List.range 4).map fun j => y.map (limb j)
      .ok ((List.range S.rows).map fun r =>
        let row := (data.drop (r * S.cols)).take S.cols
        let sum := limbs.zipIdx.foldl
          (fun (s : ℤ) part => s + toInt (dotI32 host row part.1) * 2 ^ (part.2 * 16)) 0
        (sum % (S.q : ℤ)).toNat)
  | .wide data =>
      .ok ((List.range S.rows).map fun r =>
        let row := (data.drop (r * S.cols)).take S.cols
        ((row.zip y).foldl (fun (s : ℤ) (a, b) => s + a * b) 0 % (S.q : ℤ)).toNat)

/-- The sum of the row `r` for an odd modulus, after `n` turns of its loop. -/
def StoredMatrix.oddSum (host : Host) (S : StoredMatrix) (y : List ℕ) (r n : ℕ) : ℤ :=
  match S.words with
  | .packed _ _ => 0
  | .narrow data =>
      (((List.range 4).map fun j => y.map (limb j)).zipIdx.take n).foldl
        (fun (s : ℤ) part =>
          s + toInt (dotI32 host ((data.drop (r * S.cols)).take S.cols) part.1) *
            2 ^ (part.2 * 16)) 0
  | .wide data =>
      ((((data.drop (r * S.cols)).take S.cols).zip y).take n).foldl
        (fun (s : ℤ) (a, b) => s + a * b) 0

/-- `multiply`. -/
def StoredMatrix.multiply (host : Host) (S : StoredMatrix) (y : List ℕ) : Result (List ℕ) :=
  if y.length ≠ S.cols ∨ ∃ v ∈ y, v ≥ S.q then lweShape "invalid native matrix operand"
  else if ¬IsPowerOfTwo S.q then S.multiplyOdd host y
  else .ok (S.multiplyEven host y)

/-! ## Arrays -/

section RowMajor

variable {α : Type} {rows cols : ℕ} {entry : ℕ → ℕ → α} {r : ℕ}

/-- A row of an array. -/
theorem row_rowMajor (hr : r < rows) :
    ((rowMajor rows cols entry).drop (r * cols)).take cols = (List.range cols).map (entry r) :=
  take_drop_flatMap (fun _ => by rw [List.length_map, List.length_range]) hr

/-- An entry of an array. -/
theorem getD_rowMajor (hr : r < rows) {c : ℕ} (hc : c < cols) (default : α) :
    (rowMajor rows cols entry).getD (r * cols + c) default = entry r c := by
  have hslice : ((rowMajor rows cols entry).drop (r * cols)).take cols =
      (List.range cols).map (entry r) := row_rowMajor hr
  have hrow := congrArg (fun row => row.getD c default) hslice
  rw [List.getD_eq_getElem?_getD] at hrow ⊢
  rw [List.getElem?_take_of_lt hc] at hrow
  rw [← List.getElem?_drop, hrow, List.getD_eq_getElem _ _ (by simpa using hc), List.getElem_map,
    List.getElem_range]

end RowMajor

/-! ## Packed rows -/

theorem length_writePacked (bits : ℕ) (row : List UInt8) (col value : ℕ) :
    (writePacked bits row col value).length = row.length := by
  unfold writePacked
  dsimp only
  generalize (bits + col * bits % 8 + 7) / 8 = count
  induction count with
  | zero => rfl
  | succ count ih =>
      rw [List.range_succ, List.foldl_append, List.foldl_cons, List.foldl_nil,
        List.length_modify, ih]

/-- The bytes of a shifted entry. -/
theorem foldl_modify_bits {row : List UInt8} {offset count : ℕ} (hfit : offset + count ≤ row.length)
    (shifted k : ℕ) :
    streamBit ((List.range count).foldl
        (fun row byte => row.modify (offset + byte) (· ||| UInt8.ofNat (shifted >>> (8 * byte))))
          row) k =
      (streamBit row k || (decide (8 * offset ≤ k ∧ k < 8 * (offset + count)) &&
        shifted.testBit (k - 8 * offset))) := by
  have hrun : ∀ count, offset + count ≤ row.length →
      ((List.range count).foldl (fun row byte =>
        row.modify (offset + byte) (· ||| UInt8.ofNat (shifted >>> (8 * byte)))) row).length =
          row.length ∧
      streamBit ((List.range count).foldl (fun row byte =>
        row.modify (offset + byte) (· ||| UInt8.ofNat (shifted >>> (8 * byte)))) row) k =
      (streamBit row k || (decide (8 * offset ≤ k ∧ k < 8 * (offset + count)) &&
        shifted.testBit (k - 8 * offset))) := by
    intro count
    induction count with
    | zero =>
        intro _
        have hnone : ¬(8 * offset ≤ k ∧ k < 8 * (offset + 0)) := by omega
        refine ⟨rfl, ?_⟩
        rw [decide_eq_false hnone, Bool.false_and, Bool.or_false]
        rfl
    | succ count ih =>
        intro hfit
        obtain ⟨hlen, hbits⟩ := ih (by omega)
        rw [List.range_succ, List.foldl_append, List.foldl_cons, List.foldl_nil, List.length_modify]
        refine ⟨hlen, ?_⟩
        rw [streamBit_modify_or (by omega), hbits, Nat.testBit_shiftRight, Bool.or_assoc]
        congr 1
        by_cases hlast : k / 8 = offset + count
        · have hold : ¬(8 * offset ≤ k ∧ k < 8 * (offset + count)) := by omega
          have hnew : 8 * offset ≤ k ∧ k < 8 * (offset + (count + 1)) := by omega
          have hindex : 8 * count + k % 8 = k - 8 * offset := by omega
          rw [decide_eq_true hlast, decide_eq_false hold, decide_eq_true hnew, hindex,
            Bool.false_and, Bool.false_or]
        · have hiff : (8 * offset ≤ k ∧ k < 8 * (offset + count)) ↔
              8 * offset ≤ k ∧ k < 8 * (offset + (count + 1)) := by omega
          rw [decide_eq_false hlast, Bool.false_and, Bool.or_false, decide_eq_decide.mpr hiff]
  exact (hrun count hfit).2

/-- **What is written**: the bits of the entry, at its place. -/
theorem writePacked_bits {bits : ℕ} {row : List UInt8} {col value : ℕ} (hvalue : value < 2 ^ bits)
    (hfit : col * bits + bits ≤ 8 * row.length) (k : ℕ) :
    streamBit (writePacked bits row col value) k = (streamBit row k ||
      (decide (col * bits ≤ k ∧ k < col * bits + bits) && value.testBit (k - col * bits))) := by
  unfold writePacked
  rw [foldl_modify_bits (by omega), Nat.testBit_shiftLeft]
  congr 1
  have hhigh (j : ℕ) (hj : bits ≤ j) : value.testBit j = false :=
    Nat.testBit_lt_two_pow (hvalue.trans_le (Nat.pow_le_pow_right two_pos hj))
  by_cases hin : col * bits ≤ k ∧ k < col * bits + bits
  · have hbytes : 8 * (col * bits / 8) ≤ k ∧
        k < 8 * (col * bits / 8 + (bits + col * bits % 8 + 7) / 8) := by omega
    have hshift : col * bits % 8 ≤ k - 8 * (col * bits / 8) := by omega
    have hindex : k - 8 * (col * bits / 8) - col * bits % 8 = k - col * bits := by omega
    rw [decide_eq_true hin, decide_eq_true hbytes, decide_eq_true hshift, hindex, Bool.true_and,
      Bool.true_and]
  · rw [decide_eq_false hin, Bool.false_and]
    by_cases hlow : col * bits ≤ k
    · have hindex : bits ≤ k - 8 * (col * bits / 8) - col * bits % 8 := by omega
      rw [hhigh _ hindex, Bool.and_false, Bool.and_false]
    · by_cases hbyte : 8 * (col * bits / 8) ≤ k
      · have hshift : ¬(col * bits % 8 ≤ k - 8 * (col * bits / 8)) := by omega
        rw [decide_eq_false hshift, Bool.false_and, Bool.and_false]
      · have hbytes : ¬(8 * (col * bits / 8) ≤ k ∧
            k < 8 * (col * bits / 8 + (bits + col * bits % 8 + 7) / 8)) := fun h => hbyte h.1
        rw [decide_eq_false hbytes, Bool.false_and]

/-- **A packed row holds its entries**, one after the other. -/
theorem packRow_holds {bits stride : ℕ} {codes : List ℕ} (hcodes : ∀ v ∈ codes, v < 2 ^ bits)
    (hfit : codes.length * bits ≤ 8 * stride) :
    HoldsWords bits codes (packRow bits stride codes) ∧
      (packRow bits stride codes).length = stride := by
  have hstart : HoldsWords bits (codes.take 0) (List.replicate stride 0) ∧
      (List.replicate stride (0 : UInt8)).length = stride :=
    ⟨holdsWords_nil bits stride, List.length_replicate⟩
  have hrun := foldl_zipIdx (f := fun row (value, col) => writePacked bits row col value)
    (fun i row => HoldsWords bits (codes.take i) row ∧ row.length = stride) codes hstart ?_
  · rwa [List.take_length] at hrun
  · rintro i hi row ⟨hrow, hlen⟩
    have htake : (codes.take i).length = i := by
      rw [List.length_take]
      omega
    have hroom : (i + 1) * bits ≤ codes.length * bits := Nat.mul_le_mul_right _ hi
    rw [Nat.add_mul, one_mul] at hroom
    refine ⟨?_, (length_writePacked _ _ _ _).trans hlen⟩
    rw [List.take_add_one, List.getElem?_eq_getElem hi]
    refine hrow.snoc (length_writePacked _ _ _ _) (by rw [htake, hlen]; omega) fun k _ => ?_
    rw [htake]
    exact writePacked_bits (hcodes _ (List.getElem_mem hi)) (by rw [hlen]; omega) k

/-- **The bits of an entry in the packed rows.** -/
theorem packRows_bits {bits rows cols : ℕ} {code : ℕ → ℕ → ℕ} (hcols : cols % 8 = 0)
    (hcode : ∀ r < rows, ∀ c < cols, code r c < 2 ^ bits) {r c k : ℕ} (hr : r < rows)
    (hc : c < cols) (hk : k < bits) :
    streamBit (packRows bits rows cols code) (8 * (r * (cols / 8 * bits)) + (c * bits + k)) =
      (code r c).testBit k := by
  have hstride : 8 * (cols / 8 * bits) = cols * bits := by
    rw [← mul_assoc, Nat.mul_div_cancel' (Nat.dvd_of_mod_eq_zero hcols)]
  have hcodes (r : ℕ) (hr : r < rows) : ∀ v ∈ (List.range cols).map (code r), v < 2 ^ bits := by
    intro v hv
    obtain ⟨c, hc, rfl⟩ := List.mem_map.mp hv
    exact hcode r hr c (List.mem_range.mp hc)
  have hlen (r : ℕ) : (packRow bits (cols / 8 * bits) ((List.range cols).map (code r))).length =
      cols / 8 * bits := by
    unfold packRow
    generalize (List.range cols).map (code r) = codes
    induction codes using List.reverseRecOn with
    | nil => exact List.length_replicate
    | append_singleton codes v ih =>
        rw [List.zipIdx_append, List.foldl_append]
        exact (length_writePacked _ _ _ _).trans ih
  have hinside : c * bits + k < cols * bits := by
    have hnext : (c + 1) * bits ≤ cols * bits := Nat.mul_le_mul_right _ hc
    rw [Nat.add_mul] at hnext
    omega
  have hrow := take_drop_flatMap hlen hr
  have htotal : 8 * (r * (cols / 8 * bits)) + (c * bits + k) <
      8 * ((List.range rows).flatMap fun r =>
        packRow bits (cols / 8 * bits) ((List.range cols).map (code r))).length := by
    have hcount : ((List.range rows).flatMap fun r =>
        packRow bits (cols / 8 * bits) ((List.range cols).map (code r))).length =
          rows * (cols / 8 * bits) := by
      simp [List.length_flatMap, hlen]
    have hnext : (r + 1) * (cols / 8 * bits) ≤ rows * (cols / 8 * bits) := Nat.mul_le_mul_right _ hr
    rw [Nat.add_mul, one_mul] at hnext
    rw [hcount]
    omega
  have hfit : ((List.range cols).map (code r)).length * bits ≤ 8 * (cols / 8 * bits) := by
    rw [List.length_map, List.length_range, hstride]
  obtain ⟨hholds, -⟩ := packRow_holds (hcodes r hr) hfit
  have hdiv : (c * bits + k) / bits = c := flat_div hk
  have hmod : (c * bits + k) % bits = k := flat_mod hk
  have hbit := hholds (c * bits + k)
  rw [List.length_map, List.length_range, decide_eq_true hinside, Bool.true_and, hdiv, hmod,
    List.getD_eq_getElem _ _ (by simpa using hc), List.getElem_map, List.getElem_range] at hbit
  rw [← hbit, packRows, streamBit_append, if_pos htotal, ← streamBit_drop, ← hrow, streamBit_take,
    decide_eq_true (by rwa [hstride]), Bool.true_and]

/-! ## Reading -/

/-- What holds of the packed form when it is chosen. -/
def NativeMatrix.PackedShape (M : NativeMatrix) : Prop :=
  ∀ bits code, M.words = .packed bits code →
    (bits = 27 ∨ bits = 28) ∧ M.cols % 8 = 0 ∧ M.rows % 4 = 0 ∧
      ∀ r < M.rows, ∀ c < M.cols, code r c < 2 ^ bits

theorem toNat_emod_two_pow_lt (bits : ℕ) (z : ℤ) : (z % 2 ^ bits).toNat < 2 ^ bits := by
  have hlt := toNat_emod_lt (Nat.two_pow_pos bits) z
  push_cast at hlt
  exact hlt

/-- The constructor packs only whole groups of entries and whole tiles of rows. -/
theorem NativeMatrix.packedShape_fromBlocks {supportsPacked : Bool} {blocks : List PackingMatrix}
    {M : NativeMatrix} (h : NativeMatrix.fromBlocks supportsPacked blocks = .ok M) :
    M.PackedShape := by
  intro bits code hwords
  unfold NativeMatrix.fromBlocks at h
  split at h
  · cases h
  dsimp only at h
  split at h; · cases h
  split at h
  · cases h
  cases h
  unfold chooseWords at hwords
  dsimp only at hwords
  split at hwords
  · rename_i hpacked
    obtain ⟨⟨-, hrows, -, -⟩, hcols⟩ := hpacked
    obtain ⟨rfl, rfl⟩ := Words.packed.inj hwords
    refine ⟨?_, hcols, hrows, fun r _ c _ => ?_⟩
    · split
      · exact Or.inl rfl
      · exact Or.inr rfl
    · exact toNat_emod_two_pow_lt _ _
  · split at hwords <;> cases hwords

variable {M : NativeMatrix}

/-- **The arrays hold the entries.** -/
theorem read_store (hshape : M.PackedShape) {r c : ℕ} (hr : r < M.rows) (hc : c < M.cols) :
    M.store.words.read (r * M.cols + c) = M.words.value r c := by
  unfold NativeMatrix.store
  rcases hwords : M.words with entry | ⟨bits, code⟩ | entry
  · exact getD_rowMajor hr hc 0
  · obtain ⟨hbits, hcols, -, hcode⟩ := hshape bits code hwords
    refine readPackedAt_eq (by omega) _ fun k hk => ?_
    have hindex : (r * M.cols + c) * bits + k =
        8 * (r * (M.cols / 8 * bits)) + (c * bits + k) := by
      have hsplit : M.cols = 8 * (M.cols / 8) :=
        (Nat.mul_div_cancel' (Nat.dvd_of_mod_eq_zero hcols)).symm
      conv_lhs => rw [hsplit]
      ring
    rw [hindex]
    exact packRows_bits hcols hcode hr hc hk
  · exact getD_rowMajor hr hc 0

/-- **Materializing the arrays** gives the entries. -/
theorem toCompiled_store (hshape : M.PackedShape) {r c : ℕ} (hr : r < M.rows) (hc : c < M.cols) :
    M.store.toCompiled.entry r c = M.toCompiled.entry r c := by
  show (M.store.words.read (r * M.cols + c) % (M.q : ℤ)).toNat = _
  rw [read_store hshape hr hc]
  rfl

/-! ## Products -/

/-- The row that a kernel multiplies. -/
theorem entries_cast {y : List ℕ} (row : ℕ → ℤ) (n : ℕ) :
    ∑ c ∈ Finset.range n, ((ofInt (row c) : ℕ) : ZMod W64) * (wordAt y c : ℕ) =
      ∑ c ∈ Finset.range n, ((row c : ℤ) : ZMod W64) * (y.getD c 0 : ℕ) := by
  refine Finset.sum_congr rfl fun c _ => ?_
  rw [cast_ofInt dvd_rfl]
  rfl

theorem dispatch_lt (host : Host) (x b : ℕ → ℕ) (n : ℕ) : dispatch host x b n < W64 := by
  unfold dispatch
  split
  · exact vectorDot_lt _ _ _ _ _ _
  split
  · exact vectorDot_lt _ _ _ _ _ _
  · exact scalarSum_lt _ _ _

section Kernels

variable (host : Host) {y : List ℕ} (hy : ∀ v ∈ y, v < W64)

include hy

theorem wordAt_lt (i : ℕ) : wordAt y i < W64 := by
  unfold wordAt
  rw [List.getD_eq_getElem?_getD]
  rcases hget : y[i]? with _ | v
  · exact W64_pos
  · exact hy v (List.mem_of_getElem? hget)

/-- **The kernels for signed words** compute the low word of the dot product. -/
theorem dotI32_eq {a : List ℤ} (hlen : a.length = y.length) :
    dotI32 host a y = wrappingDot (fun c => a.getD c 0) y := by
  have hdispatch : dotI32 host a y = dispatch host (signedAt a) (wordAt y) a.length := rfl
  rw [hdispatch]
  refine word_ext (dispatch_lt _ _ _ _) (wrappingDot_lt _ _) ?_
  rw [cast_dispatch (x := signedAt a) (fun i _ => ofInt_lt _) (fun i _ => wordAt_lt hy i),
    cast_wrappingDot dvd_rfl, hlen]
  exact entries_cast (fun c => a.getD c 0) y.length

omit hy in
/-- The vector kernel for four rows. -/
theorem i32Rows4512_eq (a : List ℤ) (r : ℕ) :
    i32Rows4512 a y r = wrappingDot (fun c => a.getD (r * y.length + c) 0) y := by
  refine word_ext (vectorDot_lt _ _ _ _ _ _) (wrappingDot_lt _ _) ?_
  rw [i32Rows4512, cast_dot512, cast_wrappingDot dvd_rfl]
  exact entries_cast (fun c => a.getD (r * y.length + c) 0) y.length

theorem dotI32Rows4_eq {a : List ℤ} (hlen : a.length = 4 * y.length) {r : ℕ} (hr : r < 4) :
    dotI32Rows4 host a y r = wrappingDot (fun c => a.getD (r * y.length + c) 0) y := by
  unfold dotI32Rows4
  split
  · exact i32Rows4512_eq a r
  · have hroom : (r + 1) * y.length ≤ 4 * y.length := Nat.mul_le_mul_right _ hr
    rw [Nat.add_mul, one_mul] at hroom
    rw [dotI32_eq host hy (by rw [List.length_take, List.length_drop]; omega)]
    refine wrappingDot_congr fun c hc => ?_
    rw [List.getD_eq_getElem?_getD, List.getElem?_take_of_lt hc, List.getElem?_drop,
      ← List.getD_eq_getElem?_getD]

omit hy in
/-- **The kernels for packed rows** compute the low word of the dot product. -/
theorem dotPackedRows_eq {bits groups stride r : ℕ} (hbits : bits = 27 ∨ bits = 28)
    {bytes : List UInt8} {row : ℕ → ℕ}
    (hrow : ∀ c < y.length, ∀ k < bits,
      streamBit bytes (8 * (r * stride) + (c * bits + k)) = (row c).testBit k) :
    dotPackedRows host bits groups bytes stride y r =
      wrappingDot (fun c => readPacked bits (row c)) y := by
  have htail (c : ℕ) (hc : c < y.length) :
      readPackedAt bits (bytes.drop (r * stride)) c = readPacked bits (row c) := by
    refine readPackedAt_eq (by omega) _ fun k hk => ?_
    rw [streamBit_drop]
    exact hrow c hc k hk
  have hlane (c : ℕ) (hc : c < y.length) :
      packedLane bits bytes (r * stride + c / 8 * bits) (c % 8) = readPacked bits (row c) := by
    refine packedLane_eq hbits _ fun k hk => ?_
    have hindex : 8 * (r * stride + c / 8 * bits) + c % 8 * bits + k =
        8 * (r * stride) + (c * bits + k) := by
      conv_rhs => rw [← Nat.div_add_mod c 8]
      ring
    rw [hindex]
    exact hrow c hc k hk
  have hterm (z : ℤ) (c : ℕ) : ((wrappingMul (ofInt z) (wordAt y c) : ℕ) : ZMod W64) =
      (z : ZMod W64) * (y.getD c 0 : ℕ) := by
    rw [cast_wrappingMul dvd_rfl, cast_ofInt dvd_rfl]
    rfl
  refine word_ext ?_ (wrappingDot_lt _ _) ?_
  · unfold dotPackedRows
    split
    · exact vectorDot_lt _ _ _ _ _ _
    · exact scalarSum_lt _ _ _
  · rw [cast_wrappingDot dvd_rfl]
    unfold dotPackedRows
    split
    · refine cast_vectorDot (isJoin_joinFold 8 groups) _ (fun c hc => ?_) fun c hc => ?_
      · rw [hterm, hlane c hc]
      · rw [hterm, htail c hc]
    · rw [dotScalar, cast_scalarSum, Nat.Ico_zero_eq_range]
      refine Finset.sum_congr rfl fun c hc => ?_
      rw [hterm, htail c (Finset.mem_range.mp hc)]

end Kernels

section Products

variable (hshape : M.PackedShape) (host : Host) {y : List ℕ} (hlen : y.length = M.cols)
  (hy : ∀ v ∈ y, v < W64)

/-- The slice of a row. -/
theorem row_slice (entry : ℕ → ℕ → ℤ) {rows cols r : ℕ} (hr : r < rows) (hlen : y.length = cols) :
    ((((rowMajor rows cols entry).drop (r * cols)).take cols).length = y.length) ∧
      ∀ c < y.length, (((rowMajor rows cols entry).drop (r * cols)).take cols).getD c 0 =
        entry r c := by
  rw [row_rowMajor hr]
  refine ⟨by rw [List.length_map, List.length_range, hlen], fun c hc => ?_⟩
  rw [List.getD_eq_getElem _ _ (by simpa [← hlen] using hc), List.getElem_map, List.getElem_range]

include hy in
/-- A row of 32-bit words. -/
theorem dotI32_row {entry : ℕ → ℕ → ℤ} {rows cols r : ℕ} (hr : r < rows) (hlen : y.length = cols) :
    dotI32 host (((rowMajor rows cols entry).drop (r * cols)).take cols) y =
      wrappingDot (entry r) y := by
  obtain ⟨hrow, hentry⟩ := row_slice entry hr hlen
  rw [dotI32_eq host hy hrow]
  exact wrappingDot_congr hentry

include hy in
/-- A tile of four rows of 32-bit words. -/
theorem dotI32Rows4_tile {entry : ℕ → ℕ → ℤ} {rows cols tile r : ℕ} (hr : r < 4)
    (htile : tile * 4 + 4 ≤ rows) (hlen : y.length = cols) :
    dotI32Rows4 host (((rowMajor rows cols entry).drop (tile * 4 * cols)).take (4 * cols)) y r =
      wrappingDot (entry (tile * 4 + r)) y := by
  have htotal : (rowMajor rows cols entry).length = rows * cols := by
    simp [rowMajor, List.length_flatMap]
  have hroom : (tile * 4 + 4) * cols ≤ rows * cols := Nat.mul_le_mul_right _ htile
  rw [Nat.add_mul] at hroom
  rw [dotI32Rows4_eq host hy (by rw [List.length_take, List.length_drop, htotal, hlen]; omega) hr]
  refine wrappingDot_congr fun c hc => ?_
  rw [hlen] at hc ⊢
  have hinside : r * cols + c < 4 * cols := by
    have hnext : (r + 1) * cols ≤ 4 * cols := Nat.mul_le_mul_right _ hr
    rw [Nat.add_mul] at hnext
    omega
  have hentry : (rowMajor rows cols entry).getD ((tile * 4 + r) * cols + c) 0 =
      entry (tile * 4 + r) c := getD_rowMajor (by omega) hc 0
  rw [List.getD_eq_getElem?_getD, List.getElem?_take_of_lt hinside, List.getElem?_drop,
    ← List.getD_eq_getElem?_getD, ← hentry]
  refine congrArg (fun i => (rowMajor rows cols entry).getD i 0) ?_
  ring

/-- A row of a tile of packed rows. -/
theorem dotPackedRows_tile {bits groups size rows cols tile r : ℕ} {code : ℕ → ℕ → ℕ}
    (hbits : bits = 27 ∨ bits = 28) (hcols : cols % 8 = 0)
    (hcode : ∀ r < rows, ∀ c < cols, code r c < 2 ^ bits) (hr : r < size)
    (htile : tile * size + r < rows) (hlen : y.length = cols) :
    dotPackedRows host bits groups (((packRows bits rows cols code).drop
        (tile * size * (cols / 8 * bits))).take (size * (cols / 8 * bits) + 8))
        (cols / 8 * bits) y r =
      wrappingDot (fun c => readPacked bits (code (tile * size + r) c)) y := by
  refine dotPackedRows_eq host hbits fun c hc k hk => ?_
  rw [hlen] at hc
  have hstride : 8 * (cols / 8 * bits) = cols * bits := by
    rw [← mul_assoc, Nat.mul_div_cancel' (Nat.dvd_of_mod_eq_zero hcols)]
  have hinside : c * bits + k < 8 * (cols / 8 * bits) := by
    have hnext : (c + 1) * bits ≤ cols * bits := Nat.mul_le_mul_right _ hc
    rw [Nat.add_mul] at hnext
    omega
  have hrow : (r + 1) * (cols / 8 * bits) ≤ size * (cols / 8 * bits) := Nat.mul_le_mul_right _ hr
  rw [Nat.add_mul, one_mul] at hrow
  rw [streamBit_take, decide_eq_true (by omega), Bool.true_and, streamBit_drop,
    ← packRows_bits hcols hcode htile hc hk]
  refine congrArg (streamBit _) ?_
  ring

include hshape hlen hy

/-- **The kernels compute the low words** of all rows, in every storage form on every host. -/
theorem multiplyEven_store :
    M.store.multiplyEven host y = (List.range M.rows).map fun r => M.dotWord r y &&& (M.q - 1) := by
  simp only [M.dotWord_eq]
  unfold StoredMatrix.multiplyEven NativeMatrix.store
  rcases hwords : M.words with entry | ⟨bits, code⟩ | entry
  · refine mapTiles_eq (by decide) fun tile r hr htile => ?_
    show (if min 4 (M.rows - tile * 4) = 4 then _ else _) = wrappingDot (entry _) y &&& (M.q - 1)
    by_cases hwhole : min 4 (M.rows - tile * 4) = 4
    · rw [if_pos hwhole, dotI32Rows4_tile host hy hr (by omega) hlen]
    · have hstart : tile * 4 * M.cols + r * M.cols = (tile * 4 + r) * M.cols := by ring
      rw [if_neg hwhole, hstart, dotI32_row host hy htile hlen]
  · obtain ⟨hbits, hcols, -, hcode⟩ := hshape bits code hwords
    have hsize : 0 < if M.rows % 8 = 0 then 8 else 4 := by split <;> decide
    refine mapTiles_eq hsize fun tile r hr htile => ?_
    exact congrArg (· &&& (M.q - 1)) (dotPackedRows_tile host hbits hcols hcode hr htile hlen)
  · refine List.map_congr_left fun r hr => ?_
    obtain ⟨hrow, hentry⟩ := row_slice entry (List.mem_range.mp hr) hlen
    show scalarI32 _ y &&& (M.q - 1) = wrappingDot (entry r) y &&& (M.q - 1)
    rw [← wrappingDot_congr hentry, ← dotI32_eq ⟨false, false, false, false, false⟩ hy hrow]
    rfl

omit hshape hy in
/-- The fold over a stored row is the exact dot product. -/
theorem foldl_row_eq {entry : ℕ → ℕ → ℤ} {rows r : ℕ} (hr : r < rows) :
    ((((rowMajor rows M.cols entry).drop (r * M.cols)).take M.cols).zip y).foldl
        (fun (s : ℤ) (a, b) => s + a * b) 0 = exactDot (entry r) y := by
  have hzip : (((rowMajor rows M.cols entry).drop (r * M.cols)).take M.cols).zip y =
      (List.range y.length).map fun c => (entry r c, y.getD c 0) := by
    rw [row_rowMajor hr]
    refine List.ext_getElem (by simp [hlen]) fun c hc hc' => ?_
    rw [List.length_map, List.length_range] at hc'
    rw [List.getElem_zip, List.getElem_map, List.getElem_map, List.getElem_range,
      List.getElem_range, List.getD_eq_getElem _ _ hc']
  rw [hzip, List.foldl_map]
  rfl

omit hshape hy in
/-- **The odd products of the arrays** are those of the entries. -/
theorem multiplyOdd_store :
    M.store.multiplyOdd host y = (M.multiplyOdd y).map fun out => (List.range M.rows).map out := by
  unfold StoredMatrix.multiplyOdd NativeMatrix.multiplyOdd NativeMatrix.store
  rcases hwords : M.words with entry | ⟨bits, code⟩ | entry
  · refine congrArg Except.ok (List.map_congr_left fun r hr => ?_)
    refine congrArg (fun sum : ℤ => (sum % (M.q : ℤ)).toNat) ?_
    refine List.foldl_ext _ _ _ fun s part hpart => ?_
    obtain ⟨j, -, hj⟩ := List.mem_map.mp (List.fst_mem_of_mem_zipIdx hpart)
    have hlimbs : ∀ v ∈ part.1, v < W64 := by
      rw [← hj]
      intro v hv
      obtain ⟨w, -, rfl⟩ := List.mem_map.mp hv
      exact (limb_le j w).trans_lt (by decide)
    have hlimbLen : part.1.length = M.cols := by rw [← hj, List.length_map, hlen]
    rw [← dotI32_row host hlimbs (List.mem_range.mp hr) hlimbLen]
  · rfl
  · refine congrArg Except.ok (List.map_congr_left fun r hr => ?_)
    exact congrArg (fun sum : ℤ => (sum % (M.q : ℤ)).toNat)
      (foldl_row_eq hlen (List.mem_range.mp hr))

end Products

/-- **The products of the arrays** are those of the entries, with the same refusals. -/
theorem multiply_store (hshape : M.PackedShape) (host : Host) (y : List ℕ) :
    M.store.multiply host y = (M.multiply y).map fun out => (List.range M.rows).map out := by
  have hdims : M.store.rows = M.rows ∧ M.store.cols = M.cols ∧ M.store.q = M.q := ⟨rfl, rfl, rfl⟩
  obtain ⟨hrows, hcols, hq⟩ := hdims
  unfold StoredMatrix.multiply NativeMatrix.multiply
  rw [hcols, hq]
  by_cases hcheck : y.length ≠ M.cols ∨ ∃ v ∈ y, v ≥ M.q
  · rw [if_pos hcheck, if_pos hcheck]
    rfl
  · rw [if_neg hcheck, if_neg hcheck]
    push Not at hcheck
    have hy : ∀ v ∈ y, v < W64 := fun v hv => (hcheck.2 v hv).trans_le (M.q_le.trans (by decide))
    by_cases hpow : IsPowerOfTwo M.q
    · rw [if_neg (not_not.mpr hpow), if_neg (not_not.mpr hpow),
        multiplyEven_store hshape host hcheck.1 hy]
      rfl
    · rw [if_pos hpow, if_pos hpow, multiplyOdd_store host hcheck.1]

/-- The sums of `multiply` for an odd modulus are the last ones. -/
theorem multiplyOdd_eq_oddSum {host : Host} {S : StoredMatrix} {y out : List ℕ}
    (h : S.multiplyOdd host y = .ok out) :
    out = (List.range S.rows).map fun r =>
      (S.oddSum host y r (4 + y.length) % (S.q : ℤ)).toNat := by
  obtain ⟨rows, cols, q, words⟩ := S
  cases words with
  | packed bits data => cases h
  | narrow data =>
      have hlimbs : ((List.range 4).map fun j => y.map (limb j)).zipIdx.length ≤ 4 + y.length := by
        simp
      rw [← Except.ok.inj h]
      simp only [StoredMatrix.oddSum, List.take_of_length_le hlimbs]
  | wide data =>
      have hzip (row : List ℤ) : (row.zip y).length ≤ 4 + y.length := by
        rw [List.length_zip]
        exact (min_le_right _ _).trans (Nat.le_add_left _ _)
      rw [← Except.ok.inj h]
      simp only [StoredMatrix.oddSum, List.take_of_length_le (hzip _)]

/-- A product for an odd modulus. -/
theorem multiplyOdd_of_multiply {host : Host} {S : StoredMatrix} {y out : List ℕ}
    (hodd : ¬IsPowerOfTwo S.q) (h : S.multiply host y = .ok out) :
    S.multiplyOdd host y = .ok out := by
  rw [StoredMatrix.multiply, if_pos hodd] at h
  split at h
  · cases h
  · exact h

/-- **The sums in 128 bits do not wrap**, after any number of turns. -/
theorem abs_oddSum_lt (host : Host) {y : List ℕ} (hlen : y.length = M.cols)
    (hy : ∀ v ∈ y, v < M.q) {r : ℕ} (hr : r < M.rows) (n : ℕ) :
    |M.store.oddSum host y r n| < 2 ^ 127 := by
  unfold StoredMatrix.oddSum NativeMatrix.store
  rcases hwords : M.words with entry | ⟨bits, code⟩ | entry
  · -- four terms, each a signed word that is shifted by at most 48
    refine (abs_foldl_add_le (B := 2 ^ 63 * 2 ^ 48) _ _ fun part hpart => ?_).trans_lt ?_
    · have hmem := List.mem_of_mem_take hpart
      obtain ⟨j, -, hj⟩ := List.mem_map.mp (List.fst_mem_of_mem_zipIdx hmem)
      have hturn : part.2 < 4 := by simpa using List.snd_lt_of_mem_zipIdx hmem
      have hlimbs : ∀ v ∈ part.1, v < W64 := by
        rw [← hj]
        intro v hv
        obtain ⟨w, -, rfl⟩ := List.mem_map.mp hv
        exact (limb_le j w).trans_lt (by decide)
      have hlimbLen : part.1.length = M.cols := by rw [← hj, List.length_map, hlen]
      rw [dotI32_row host hlimbs hr hlimbLen, abs_mul, abs_pow, abs_two]
      exact mul_le_mul (abs_toInt_le (wrappingDot_lt _ _))
        (pow_le_pow_right₀ one_le_two (by omega)) (by positivity) (by positivity)
    · have hcount : ((((List.range 4).map fun j => y.map (limb j)).zipIdx.take n).length : ℤ) ≤
          4 := by
        simp
      linarith
  · exact abs_zero.trans_lt (by norm_num)
  · -- as many terms as columns, each an entry of 56 bits times a word below the modulus
    have hfits := M.fits
    rw [hwords] at hfits
    have hq : (M.q : ℤ) ≤ 2 ^ 56 := by exact_mod_cast M.q_le
    refine (abs_foldl_add_le (B := 2 ^ 55 * 2 ^ 56) _ _ fun term hterm => ?_).trans_lt ?_
    · obtain ⟨hrow, hword⟩ := List.of_mem_zip (List.mem_of_mem_take hterm)
      obtain ⟨r', hr', hcell⟩ :=
        List.mem_flatMap.mp (List.mem_of_mem_drop (List.mem_of_mem_take hrow))
      obtain ⟨c, hc, hentry⟩ := List.mem_map.mp hcell
      have hbound := hfits r' (List.mem_range.mp hr') c (List.mem_range.mp hc)
      have hlt : ((term.2 : ℕ) : ℤ) < M.q := by exact_mod_cast hy _ hword
      rw [abs_mul, Nat.abs_cast, ← hentry]
      exact mul_le_mul (by omega) (by omega) (by positivity) (by positivity)
    · have hcount : (((((rowMajor M.rows M.cols entry).drop (r * M.cols)).take M.cols).zip
          y).take n).length ≤ 32768 := by
        rw [List.length_take, List.length_zip]
        exact (min_le_right _ _).trans ((min_le_right _ _).trans (hlen.le.trans M.cols_le))
      have hcast := (Nat.cast_le (α := ℤ)).mpr hcount
      push_cast at hcast
      linarith

/-! ## The storage form is irrelevant -/

/-- The blocks that `from_blocks` accepts. -/
def AdmittedBlocks (rows q : ℕ) (blocks : List PackingMatrix) : Prop :=
  blocks ≠ [] ∧ 2 ≤ q ∧ q ≤ 2 ^ 56 ∧ rows ≠ 0 ∧
    (∀ b ∈ blocks, b.rows = rows ∧ b.q = q ∧ b.cols ≠ 0 ∧
      ∀ r < b.rows, ∀ c < b.cols, b.entry r c < q) ∧
    (blocks.map PackingMatrix.cols).sum ≤ 32768

theorem admittedBlocks_of_ok {supportsPacked : Bool} {blocks : List PackingMatrix}
    {M : NativeMatrix} (h : NativeMatrix.fromBlocks supportsPacked blocks = .ok M) :
    AdmittedBlocks M.rows M.q blocks := by
  unfold NativeMatrix.fromBlocks at h
  split at h
  · cases h
  rename_i first rest
  dsimp only at h
  split at h; · cases h
  rename_i hshape
  split at h
  · cases h
  rename_i cols hcols
  cases h
  push Not at hshape
  obtain ⟨hle, hsum, hblocks⟩ := checkBlocks_ok _ (by decide) hcols
  exact ⟨List.cons_ne_nil _ _, hshape.1.1, hshape.1.2, hshape.2, hblocks, by omega⟩

/-- **The arrays of blocks**: the stored matrix of the blocks, with its arrays. -/
theorem fromBlocks_eq_ok {host : Host} {blocks : List PackingMatrix} {S : StoredMatrix} :
    StoredMatrix.fromBlocks host blocks = .ok S ↔
      ∃ M, NativeMatrix.fromBlocks host.supportsPacked blocks = .ok M ∧ M.store = S := by
  constructor
  · intro h
    obtain ⟨M, hM, hstore⟩ := bind_eq_ok h
    exact ⟨M, hM, Except.ok.inj hstore⟩
  · rintro ⟨M, hM, rfl⟩
    unfold StoredMatrix.fromBlocks
    rw [hM]
    rfl

/-- A stored matrix is as wide as its blocks, and its entries are theirs. -/
theorem value_fromBlocks {supportsPacked : Bool} {blocks : List PackingMatrix}
    {M : NativeMatrix} (h : NativeMatrix.fromBlocks supportsPacked blocks = .ok M) :
    M.cols = (blocks.map PackingMatrix.cols).sum ∧ ∀ r < M.rows, ∀ c < M.cols,
      ((M.words.value r c : ℤ) : ZMod M.q) = (PackingMatrix.concatEntry blocks r c : ℕ) := by
  cases blocks with
  | nil => cases h
  | cons first rest =>
      obtain ⟨-, -, hcols, hvalue⟩ := NativeMatrix.fromBlocks_spec h
      exact ⟨hcols, hvalue⟩

/-- A materialized entry is the entry of the blocks. -/
theorem toCompiled_fromBlocks {supportsPacked : Bool} {blocks : List PackingMatrix}
    {M : NativeMatrix} (h : NativeMatrix.fromBlocks supportsPacked blocks = .ok M) {r c : ℕ}
    (hr : r < M.rows) (hc : c < M.cols) :
    M.toCompiled.entry r c = PackingMatrix.concatEntry blocks r c ∧
      PackingMatrix.concatEntry blocks r c < M.q := by
  obtain ⟨hcols, hvalue⟩ := value_fromBlocks h
  obtain ⟨-, -, -, -, hblocks, -⟩ := admittedBlocks_of_ok h
  obtain ⟨b, hb, c', hc', hcol⟩ := exists_block_column blocks (hcols ▸ hc)
  obtain ⟨hrows, -, -, hentry⟩ := hblocks b hb
  have hlt : PackingMatrix.concatEntry blocks r c < M.q := by
    rw [hcol]
    exact hentry r (hrows ▸ hr) c' hc'
  have hcast : ((M.toCompiled.entry r c : ℕ) : ZMod M.q) =
      (PackingMatrix.concatEntry blocks r c : ℕ) := by
    rw [← hvalue r hr c hc]
    exact cast_toNat_emod M.q_pos _
  rw [ZMod.natCast_eq_natCast_iff] at hcast
  exact ⟨Nat.ModEq.eq_of_lt_of_lt hcast (toNat_emod_lt M.q_pos _) hlt, hlt⟩

/-- The product of the arrays with a canonical vector. -/
theorem multiply_fromBlocks {supportsPacked : Bool} {blocks : List PackingMatrix}
    {M : NativeMatrix} (h : NativeMatrix.fromBlocks supportsPacked blocks = .ok M) (host : Host)
    {y : List ℕ} (hlen : y.length = M.cols) (hy : ∀ v ∈ y, v < M.q) :
    M.store.multiply host y = .ok ((List.range M.rows).map fun r =>
      (∑ c ∈ Finset.range M.cols, PackingMatrix.concatEntry blocks r c * y.getD c 0) % M.q) := by
  obtain ⟨-, hvalue⟩ := value_fromBlocks h
  obtain ⟨out, hout, hspec⟩ := M.multiply_spec hlen hy
  rw [multiply_store (NativeMatrix.packedShape_fromBlocks h), hout]
  refine congrArg Except.ok (List.map_congr_left fun r hr => ?_)
  have hrow := List.mem_range.mp hr
  obtain ⟨hlt, hsum⟩ := hspec r hrow
  refine Nat.ModEq.eq_of_lt_of_lt ((ZMod.natCast_eq_natCast_iff _ _ M.q).mp ?_) hlt
    (Nat.mod_lt _ M.q_pos)
  rw [hsum, ZMod.natCast_mod]
  push_cast
  refine Finset.sum_congr rfl fun c hc => ?_
  rw [hvalue r hrow c (Finset.mem_range.mp hc)]

/-- **The storage form is irrelevant.**  A list of blocks is stored iff it is admitted.  The arrays
then materialize to the concatenation of the blocks, and on every host the product with a canonical
vector is the exact one modulo `q`, whichever form the constructor picked; for an odd modulus no
sum leaves a signed word of 128 bits on the way. -/
theorem storage_irrelevant (host : Host) (blocks : List PackingMatrix) :
    ((∃ S, StoredMatrix.fromBlocks host blocks = .ok S) ↔ ∃ rows q, AdmittedBlocks rows q blocks) ∧
    ∀ S, StoredMatrix.fromBlocks host blocks = .ok S →
      AdmittedBlocks S.rows S.q blocks ∧ S.cols = (blocks.map PackingMatrix.cols).sum ∧
      (S.toCompiled.rows = S.rows ∧ S.toCompiled.cols = S.cols ∧ S.toCompiled.q = S.q ∧
        ∀ r < S.rows, ∀ c < S.cols, S.toCompiled.entry r c = PackingMatrix.concatEntry blocks r c ∧
          PackingMatrix.concatEntry blocks r c < S.q) ∧
      ∀ (host' : Host) (y : List ℕ), y.length = S.cols → (∀ v ∈ y, v < S.q) →
        S.multiply host' y = .ok ((List.range S.rows).map fun r =>
          (∑ c ∈ Finset.range S.cols, PackingMatrix.concatEntry blocks r c * y.getD c 0) %
            S.q) ∧
        (¬IsPowerOfTwo S.q → S.multiply host' y = .ok ((List.range S.rows).map fun r =>
          (S.oddSum host' y r (4 + y.length) % (S.q : ℤ)).toNat)) ∧
        ∀ r < S.rows, ∀ n, |S.oddSum host' y r n| < 2 ^ 127 := by
  constructor
  · constructor
    · rintro ⟨S, hS⟩
      obtain ⟨M, hM, -⟩ := fromBlocks_eq_ok.mp hS
      exact ⟨M.rows, M.q, admittedBlocks_of_ok hM⟩
    · rintro ⟨rows, q, hne, hq, hle, hrows, hblocks, hwide⟩
      obtain ⟨M, hM⟩ := NativeMatrix.fromBlocks_ok host.supportsPacked hne hq hle hrows
        hblocks hwide
      exact ⟨M.store, fromBlocks_eq_ok.mpr ⟨M, hM, rfl⟩⟩
  · intro S hS
    obtain ⟨M, hM, rfl⟩ := fromBlocks_eq_ok.mp hS
    have hshape := NativeMatrix.packedShape_fromBlocks hM
    refine ⟨admittedBlocks_of_ok hM, (value_fromBlocks hM).1, ⟨rfl, rfl, rfl, ?_⟩, ?_⟩
    · intro r hr c hc
      rw [toCompiled_store hshape hr hc]
      exact toCompiled_fromBlocks hM hr hc
    · intro host' y hlen hy
      have hproduct := multiply_fromBlocks hM host' hlen hy
      refine ⟨hproduct, fun hodd => ?_, fun r hr n => abs_oddSum_lt host' hlen hy hr n⟩
      rw [hproduct]
      exact congrArg Except.ok (multiplyOdd_eq_oddSum (multiplyOdd_of_multiply hodd hproduct))

/-- The largest entry that fits 28 bits, stored on a host with the packed kernels and multiplied on
one without them. -/
theorem storage_irrelevant_packed :
    ∃ S, StoredMatrix.fromBlocks ⟨true, true, true, true, true⟩
        [⟨4, 4, 2 ^ 32, fun _ _ => 2 ^ 27 - 1⟩, ⟨4, 4, 2 ^ 32, fun _ _ => 1⟩] = .ok S ∧
      S.multiply ⟨false, false, false, false, false⟩ (List.replicate 8 (2 ^ 31 + 1)) =
        .ok (List.replicate 4 (2 ^ 29)) := by
  obtain ⟨hstored, hall⟩ := storage_irrelevant ⟨true, true, true, true, true⟩
    [⟨4, 4, 2 ^ 32, fun _ _ => 2 ^ 27 - 1⟩, ⟨4, 4, 2 ^ 32, fun _ _ => 1⟩]
  have hadmitted : AdmittedBlocks 4 (2 ^ 32)
      [⟨4, 4, 2 ^ 32, fun _ _ => 2 ^ 27 - 1⟩, ⟨4, 4, 2 ^ 32, fun _ _ => 1⟩] := by
    refine ⟨List.cons_ne_nil _ _, by decide, by decide, by decide, fun b hb => ?_, by decide⟩
    rcases List.mem_pair.mp hb with rfl | rfl
    · exact ⟨rfl, rfl, by decide, fun _ _ _ _ => by norm_num⟩
    · exact ⟨rfl, rfl, by decide, fun _ _ _ _ => by norm_num⟩
  obtain ⟨S, hS⟩ := hstored.mpr ⟨4, 2 ^ 32, hadmitted⟩
  obtain ⟨⟨-, -, -, -, hblocks, -⟩, hcols, -, hmultiply⟩ := hall S hS
  obtain ⟨hrows, hq, -, -⟩ := hblocks _ List.mem_cons_self
  dsimp only at hrows hq
  have hcols : S.cols = 8 := hcols
  refine ⟨S, hS, ?_⟩
  rw [(hmultiply _ _ (by rw [hcols]; rfl) ?_).1, ← hrows, ← hq, hcols]
  · decide
  · intro v hv
    rw [List.eq_of_mem_replicate hv, ← hq]
    norm_num

end Reinspiring
