import IpirSp.Codec.Cursor
import IpirSp.Inspiring.Preprocess
import IpirSp.Inspiring.Tables
import IpirSp.Loops.Iterator
import IpirSp.Loops.Windows
import IpirSp.MachineWord.Overflow

/-!
# Prepared packing state

`write` lists the public state of a session: a magic string, the parameters, for every block its
component and its digits, the fixed key images, and the automorphism tables.  `read` takes every
shape from the parameters, checks every residue, every exponent and every table, and refuses what is
left over.

A matrix is written as the words of its polynomials, row by row, and `artefactWords` is the whole
file as words.  `IpirSp.Inspiring.PreparedCodec` compares the two functions with it.
-/

namespace Inspiring

open Negacyclic SpiralRs Loops MachineWord Codec

/-- `std::io::Error`. -/
inductive IoError
  | unexpectedEof
  | invalidData (msg : String)
deriving DecidableEq

/-- The result of a call that reads or writes. -/
abbrev IoResult (α : Type) := Except (Failure IoError) α

/-- A parser of the artefact. -/
abbrev Read (α : Type) := Parser (Failure IoError) α

/-- `invalid`. -/
def invalid : Failure IoError :=
  .err (.invalidData "incompatible or malformed prepared packing state")

/-- What `read_exact` returns at the end of its input. -/
def eof : Failure IoError := .err .unexpectedEof

/-- `MAGIC`: `INSP-PREP-v1` and four zero bytes. -/
def MAGIC : List UInt8 := [73, 78, 83, 80, 45, 80, 82, 69, 80, 45, 118, 49, 0, 0, 0, 0]

/-- `header`. -/
def header (P : RlweParams) (blocks : ℕ) : List ℕ :=
  [P.d, P.q, P.p, P.gadget.ell, P.gadget.bitsPer, 1, blocks, P.q]

/-! ## The length of a file -/

section Length

/-- An operation of `encoded_len` whose overflow is an error. -/
def orInvalid (result : Option ℕ) : IoResult ℕ := result.elim (.error invalid) .ok

/-- An operation of `encoded_len` without a check. -/
def orPanic (result : Option ℕ) : IoResult ℕ :=
  result.elim (.error (.panic "arithmetic operation overflowed")) .ok

/-- `encoded_len`. -/
def encodedLen (o : Overflow) (P : RlweParams) (blocks : ℕ) : IoResult ℕ := do
  let words ← orInvalid (checkedMul (2 ^ 64) (some P.d) (some 1))
  let images ← orPanic (o.mul 64 (P.d - 1) P.gadget.ell)
  let perBlock ← orPanic (o.add 64 1 images)
  let polys ← orInvalid (checkedAdd (2 ^ 64) (checkedMul (2 ^ 64) (some blocks) (some perBlock))
    (some images))
  let data ← orInvalid (checkedMul (2 ^ 64) (some words) (some polys))
  let tables ← orPanic (o.mul 64 (P.d - 2) (P.d + 1))
  orInvalid (checkedAdd (2 ^ 64) (checkedMul (2 ^ 64) (checkedAdd (2 ^ 64)
    (checkedAdd (2 ^ 64) (some data) (some tables)) (some (header P blocks).length)) (some 8))
      (some 16))

/-- The polynomials of a file. -/
def polyCount (P : RlweParams) (blocks : ℕ) : ℕ :=
  blocks * (1 + (P.d - 1) * P.gadget.ell) + (P.d - 1) * P.gadget.ell

/-- The words of a file behind the magic string. -/
def wordCount (P : RlweParams) (blocks : ℕ) : ℕ :=
  8 + (P.d * polyCount P blocks + (P.d - 2) * (P.d + 1))

/-- What `encoded_len` computes if it fits. -/
def artefactLen (P : RlweParams) (blocks : ℕ) : ℕ := 16 + 8 * wordCount P blocks

/-- **The length of a file that fits is computed** without an overflow. -/
theorem encodedLen_ok (o : Overflow) {P : RlweParams} {blocks : ℕ}
    (h : artefactLen P blocks < 2 ^ 64) : encodedLen o P blocks = .ok (artefactLen P blocks) := by
  have hd := P.two_le_d
  have hell : 0 < (P.d - 1) * P.gadget.ell := Nat.mul_pos (by omega) P.ell_pos
  unfold artefactLen wordCount polyCount at h
  generalize hi : (P.d - 1) * P.gadget.ell = images at h hell
  generalize ht : (P.d - 2) * (P.d + 1) = tables at h
  have hpolys : blocks * (1 + images) + images ≤
      P.d * (blocks * (1 + images) + images) := Nat.le_mul_of_pos_left _ (by omega)
  have htwice : 2 * images ≤ P.d * (blocks * (1 + images) + images) :=
    Nat.mul_le_mul hd (Nat.le_add_left _ _)
  have hdeg : P.d ≤ P.d * (blocks * (1 + images) + images) :=
    Nat.le_mul_of_pos_right _ (by omega)
  generalize hb : blocks * (1 + images) = own at h hpolys htwice hdeg
  generalize hw : P.d * (own + images) = data at h hpolys htwice hdeg
  have himages : o.mul 64 (P.d - 1) P.gadget.ell = some images := by
    rw [o.mul_ok (by omega), hi]
  have hper : o.add 64 1 images = some (1 + images) := o.add_ok (by omega)
  have htables : o.mul 64 (P.d - 2) (P.d + 1) = some tables := by
    rw [o.mul_ok (by omega), ht]
  have hdegree : checkedMul (2 ^ 64) (some P.d) (some 1) = some P.d := by
    rw [checkedMul_some (by omega), mul_one]
  have hown : checkedMul (2 ^ 64) (some blocks) (some (1 + images)) = some own := by
    rw [checkedMul_some (by omega), hb]
  have hdata : checkedMul (2 ^ 64) (some P.d) (some (own + images)) = some data := by
    rw [checkedMul_some (by omega), hw]
  have hlength : (header P blocks).length = 8 := rfl
  simp only [encodedLen, himages, hper, htables, hdegree, orInvalid, orPanic, Option.elim_some,
    ok_bind, hown]
  rw [checkedAdd_some (by omega)]
  simp only [Option.elim_some, ok_bind, hdata, hlength]
  rw [checkedAdd_some (by omega), checkedAdd_some (by omega), checkedMul_some (by omega),
    checkedAdd_some (by omega), artefactLen, wordCount, polyCount, hi, ht, hb, hw, Option.elim_some]
  congr 1
  ring

end Length

/-! ## Matrices as words -/

section Slices

variable {d q : ℕ}

/-- The words of a polynomial. -/
def nttResidues (v : Ntt d q) : List (Fin q) := List.ofFn fun s => ⟨v.word s, v.lt s⟩

/-- `as_slice`: the polynomials of a matrix, row by row. -/
def asSlice (m : PolyMatrixNTT d q) : List (Fin q) :=
  (List.range (m.rows * m.cols)).flatMap fun k => nttResidues (m.poly (k / m.cols) (k % m.cols))

/-- The polynomial that starts at `offset`. -/
def polyAt [NeZero q] (d : ℕ) (ws : List (Fin q)) (offset : ℕ) : Ntt d q :=
  ⟨fun s => ws.getD (offset + s) 0, fun s => (ws.getD (offset + s) 0).isLt⟩

/-- A matrix over a slice. -/
def ofSlice [NeZero q] (rows cols : ℕ) (ws : List (Fin q)) : PolyMatrixNTT d q where
  rows
  cols
  poly r c := polyAt d ws ((r * cols + c) * d)

/-- Matrices with the same shape and the same entries. -/
structure Same (m m' : PolyMatrixNTT d q) : Prop where
  rows : m.rows = m'.rows
  cols : m.cols = m'.cols
  poly : ∀ r < m.rows, ∀ c < m.cols, m.poly r c = m'.poly r c

theorem Same.symm {m m' : PolyMatrixNTT d q} (h : Same m m') : Same m' m where
  rows := h.rows.symm
  cols := h.cols.symm
  poly r hr c hc := (h.poly r (h.rows ▸ hr) c (h.cols ▸ hc)).symm

@[simp] theorem length_nttResidues (v : Ntt d q) : (nttResidues v).length = d := List.length_ofFn

theorem length_asSlice (m : PolyMatrixNTT d q) : (asSlice m).length = m.rows * m.cols * d := by
  simp [asSlice, List.length_flatMap]

variable [NeZero q]

omit [NeZero q] in
theorem nttResidues_injective : Function.Injective (nttResidues : Ntt d q → List (Fin q)) := by
  intro v w h
  ext s
  exact congrArg Fin.val (congrFun (List.ofFn_injective h) s)

/-- A polynomial over a slice has the words of the slice. -/
theorem nttResidues_polyAt {ws : List (Fin q)} {offset : ℕ} (h : offset + d ≤ ws.length) :
    nttResidues (polyAt d ws offset) = (ws.drop offset).take d := by
  refine List.ext_getElem ?_ fun i hi hi' => ?_
  · rw [length_nttResidues, List.length_take_of_le (by rw [List.length_drop]; omega)]
  · rw [length_nttResidues] at hi
    have hget : offset + i < ws.length := by omega
    rw [List.getElem_take, List.getElem_drop]
    simp [nttResidues, polyAt, hget]

/-- The offset of an entry. -/
theorem flat_index (k cols : ℕ) : k / cols * cols + k % cols = k := Nat.div_add_mod' k cols

/-- **A slice is the slice of its matrix.** -/
theorem asSlice_ofSlice {rows cols : ℕ} {ws : List (Fin q)} (hlen : ws.length = rows * cols * d) :
    asSlice (ofSlice rows cols ws : PolyMatrixNTT d q) = ws := by
  have hall : ws.take (rows * cols * d) = ws := by rw [← hlen, List.take_length]
  conv_rhs => rw [← hall, ← take_mul_eq_flatMap]
  show ((List.range (rows * cols)).flatMap fun k =>
    nttResidues (polyAt d ws ((k / cols * cols + k % cols) * d))) = _
  refine List.flatMap_congr fun k hk => ?_
  have hfit : (k + 1) * d ≤ rows * cols * d :=
    Nat.mul_le_mul_right d (List.mem_range.mp hk)
  rw [flat_index, nttResidues_polyAt (by rw [hlen, ← Nat.succ_mul]; exact hfit)]

/-- **A matrix is the matrix over its slice.** -/
theorem same_ofSlice (m : PolyMatrixNTT d q) : Same m (ofSlice m.rows m.cols (asSlice m)) where
  rows := rfl
  cols := rfl
  poly r hr c hc := by
    have hk : r * m.cols + c < m.rows * m.cols := by
      calc r * m.cols + c < r * m.cols + m.cols := Nat.add_lt_add_left hc _
        _ = (r + 1) * m.cols := (Nat.succ_mul r m.cols).symm
        _ ≤ m.rows * m.cols := Nat.mul_le_mul_right _ hr
    have hfit : (r * m.cols + c) * d + d ≤ (asSlice m).length := by
      rw [length_asSlice, ← Nat.succ_mul]
      exact Nat.mul_le_mul_right d hk
    refine nttResidues_injective ?_
    show _ = nttResidues (polyAt d (asSlice m) ((r * m.cols + c) * d))
    rw [nttResidues_polyAt hfit, asSlice, take_drop_flatMap (fun _ => length_nttResidues _) hk,
      flat_div hc, flat_mod hc]

end Slices

/-! ## Writing -/

section Writer

variable {P : RlweParams}

/-- The words of a list of residues. -/
def residueBytes {q : ℕ} (ws : List (Fin q)) : List UInt8 := (ws.map Fin.val).flatMap (leBytes 8)

/-- `write_poly`; words are residues by their type. -/
def writePoly (m : PolyMatrixNTT P.d P.q) (rows cols : ℕ) : IoResult (List UInt8) :=
  if m.rows ≠ rows ∨ m.cols ≠ cols then .error invalid else .ok (residueBytes (asSlice m))

/-- A block of `write`. -/
def writeBlock (B : QueryPackPreprocessed P) : IoResult (List UInt8) :=
  if B.digitsNtt.length ≠ P.d - 1 then .error invalid
  else do
    let digits ← B.digitsNtt.mapM fun m => writePoly m P.gadget.ell 1
    pure (residueBytes (nttResidues B.collapseAFinalNtt) ++ digits.flatten)

/-- A table of `write`. -/
def writeTable (table : NttAutomorphTable P.d) : IoResult (List UInt8) :=
  if ¬validatePermutation table.entries P.d then .error invalid
  else .ok (leBytes 8 table.exponent ++ table.entries.flatMap (leBytes 8))

/-- `top.validate(p).map_err(|_| invalid())`. -/
def topValid (top : TopKeyImages P) : IoResult Unit :=
  match top.validate with
  | .ok () => .ok ()
  | .error (.err _) => .error invalid
  | .error (.panic msg) => .error (.panic msg)

/-- The images in the order of the file. -/
def TopKeyImages.images (top : TopKeyImages P) : List (PolyMatrixNTT P.d P.q) :=
  top.kgTopLeft ++ top.kgTopRight ++ [top.khTop]

/-- The tables in the order of the file. -/
def TopKeyImages.tables (top : TopKeyImages P) : List (NttAutomorphTable P.d) :=
  top.kgBodyLeftTables ++ top.kgBodyRightTables

/-- `write`. -/
def writePrepared (P : RlweParams) (blocks : List (QueryPackPreprocessed P))
    (top : TopKeyImages P) : IoResult (List UInt8) := do
  topValid top
  let blockBytes ← blocks.mapM writeBlock
  let images ← top.images.mapM fun m => writePoly m 1 P.gadget.ell
  let tables ← top.tables.mapM writeTable
  pure (MAGIC ++ (header P blocks.length).flatMap (leBytes 8) ++ blockBytes.flatten ++
    images.flatten ++ tables.flatten)

end Writer

/-! ## Reading -/

section Reader

/-- `NttAutomorphTable::from_prepared`. -/
def NttAutomorphTable.fromPrepared (d exponent : ℕ) (indices : List ℕ) :
    Option (NttAutomorphTable d) :=
  if h : validatePermutation indices d = true then
    have hvalid := (validatePermutation_iff indices d).mp h
    have hget (s : Fin d) : (s : ℕ) < indices.length := hvalid.1.symm ▸ s.isLt
    some {
      exponent
      indices := fun s => ⟨indices.get ⟨s, hget s⟩, hvalid.2.1 _ (List.get_mem _ _)⟩
      bijective := by
        refine (Finite.injective_iff_bijective).mp fun s t hst => Fin.ext ?_
        have heq := List.nodup_iff_injective_get.mp hvalid.2.2 (congrArg Fin.val hst)
        exact Fin.mk.inj heq }
  else none

variable (P : RlweParams)

/-- One word of `read_poly`. -/
def readResidue : Read (Fin P.q) := do
  let n ← word eof
  if h : n < P.q then pure ⟨n, h⟩ else throw invalid

/-- `read_poly`. -/
def readPoly (rows cols : ℕ) : Read (PolyMatrixNTT P.d P.q) := do
  let ws ← times (readResidue P) (rows * cols * P.d)
  pure (ofSlice rows cols ws)

/-- A block of `read`. -/
def readBlock : Read (QueryPackPreprocessed P) := do
  let collapseAFinalNtt ← readPoly P 1 1
  let digitsNtt ← times (readPoly P P.gadget.ell 1) (P.d - 1)
  pure ⟨collapseAFinalNtt.poly 0 0, digitsNtt⟩

/-- `u32::try_from(get(r)?)`. -/
def readIndex : Read ℕ := do
  let n ← word eof
  require invalid (n < 2 ^ 32)
  pure n

/-- A table of `read`. -/
def readTable : Read (NttAutomorphTable P.d) := do
  let exponent ← word eof
  require invalid (¬(exponent ≥ 2 * P.d ∨ exponent % 2 = 0))
  let indices ← times readIndex P.d
  match NttAutomorphTable.fromPrepared P.d exponent indices with
  | some table => pure table
  | none => throw invalid

/-- The magic string and the parameters. -/
def readHeader (blocks : ℕ) : Read Unit := do
  let magic ← take eof 16
  require invalid (magic = MAGIC)
  (header P blocks).forM fun n => do
    let word ← word eof
    require invalid (word = n)

/-- The contents of a file. -/
def readArtefact (blocks : ℕ) : Read (List (QueryPackPreprocessed P) × TopKeyImages P) := do
  readHeader P blocks
  let pre ← times (readBlock P) blocks
  let kgTopLeft ← times (readPoly P 1 P.gadget.ell) (P.d / 2 - 1)
  let kgTopRight ← times (readPoly P 1 P.gadget.ell) (P.d / 2 - 1)
  let khTop ← readPoly P 1 P.gadget.ell
  let kgBodyLeftTables ← times (readTable P) (P.d / 2 - 1)
  let kgBodyRightTables ← times (readTable P) (P.d / 2 - 1)
  let top : TopKeyImages P :=
    ⟨kgTopLeft, kgTopRight, khTop, kgBodyLeftTables, kgBodyRightTables⟩
  call (topValid top)
  pure (pre, top)

/-- `read`. -/
def readPrepared (blocks : ℕ) (bytes : List UInt8) :
    IoResult (List (QueryPackPreprocessed P) × TopKeyImages P) :=
  run invalid (readArtefact P blocks) 0 bytes

end Reader

/-! ## The file as words -/

section Words

variable {P : RlweParams} {blocks : List (QueryPackPreprocessed P)} {top : TopKeyImages P}

/-- The residues of a block. -/
def blockResidues (B : QueryPackPreprocessed P) : List (Fin P.q) :=
  nttResidues B.collapseAFinalNtt ++ B.digitsNtt.flatMap asSlice

/-- The residues of a file. -/
def fileResidues (blocks : List (QueryPackPreprocessed P)) (top : TopKeyImages P) :
    List (Fin P.q) :=
  blocks.flatMap blockResidues ++ top.images.flatMap asSlice

/-- The words of a table. -/
def tableWords (table : NttAutomorphTable P.d) : List ℕ := table.exponent :: table.entries

/-- The words of a file. -/
def artefactWords (blocks : List (QueryPackPreprocessed P)) (top : TopKeyImages P) : List ℕ :=
  header P blocks.length ++ ((fileResidues blocks top).map Fin.val ++ top.tables.flatMap tableWords)

/-- The bytes of a file. -/
def artefactBytes (blocks : List (QueryPackPreprocessed P)) (top : TopKeyImages P) : List UInt8 :=
  MAGIC ++ (artefactWords blocks top).flatMap (leBytes 8)

/-- The shapes that the parameters ask for. -/
structure Shaped (blocks : List (QueryPackPreprocessed P)) (top : TopKeyImages P) : Prop where
  digits_length : ∀ B ∈ blocks, B.digitsNtt.length = P.d - 1
  digits_shape : ∀ B ∈ blocks, ∀ m ∈ B.digitsNtt, m.rows = P.gadget.ell ∧ m.cols = 1
  left_length : top.kgTopLeft.length = P.d / 2 - 1
  right_length : top.kgTopRight.length = P.d / 2 - 1
  images_shape : ∀ m ∈ top.images, BodyShape m P.gadget.ell
  leftTables_length : top.kgBodyLeftTables.length = P.d / 2 - 1
  rightTables_length : top.kgBodyRightTables.length = P.d / 2 - 1

/-- The tables hold exponents of automorphisms and `u32` entries. -/
structure Tabled (top : TopKeyImages P) : Prop where
  exponent_lt : ∀ table ∈ top.tables, table.exponent < 2 * P.d
  exponent_odd : ∀ table ∈ top.tables, table.exponent % 2 = 1
  exponent_word : ∀ table ∈ top.tables, table.exponent < 256 ^ 8
  entry_lt : ∀ table ∈ top.tables, ∀ s, (table.indices s : ℕ) < 2 ^ 32

theorem Shaped.length_images (h : Shaped blocks top) : top.images.length = P.d - 1 := by
  have hd := P.two_le_d
  have heven := P.two_dvd_d
  rw [TopKeyImages.images, List.length_append, List.length_append, h.left_length, h.right_length,
    List.length_singleton]
  omega

theorem Shaped.length_tables (h : Shaped blocks top) : top.tables.length = P.d - 2 := by
  have heven := P.two_dvd_d
  rw [TopKeyImages.tables, List.length_append, h.leftTables_length, h.rightTables_length]
  omega

theorem length_tableWords (table : NttAutomorphTable P.d) :
    (tableWords table).length = P.d + 1 := by
  rw [tableWords, List.length_cons, NttAutomorphTable.entries, List.length_ofFn]

theorem length_flatMap_of_eq {α β : Type} {f : α → List β} {l : List α} {n : ℕ}
    (h : ∀ a ∈ l, (f a).length = n) : (l.flatMap f).length = l.length * n := by
  rw [List.length_flatMap, List.map_congr_left h, List.map_const', List.sum_replicate, smul_eq_mul]

theorem Shaped.length_blockResidues (h : Shaped blocks top) {B : QueryPackPreprocessed P}
    (hB : B ∈ blocks) :
    (blockResidues B).length = (1 + (P.d - 1) * P.gadget.ell) * P.d := by
  have hdigit (m : PolyMatrixNTT P.d P.q) (hm : m ∈ B.digitsNtt) :
      (asSlice m).length = P.gadget.ell * P.d := by
    rw [length_asSlice, (h.digits_shape B hB m hm).1, (h.digits_shape B hB m hm).2, mul_one]
  rw [blockResidues, List.length_append, length_nttResidues, length_flatMap_of_eq hdigit,
    h.digits_length B hB]
  ring

theorem Shaped.length_fileResidues (h : Shaped blocks top) :
    (fileResidues blocks top).length = P.d * polyCount P blocks.length := by
  have himage (m : PolyMatrixNTT P.d P.q) (hm : m ∈ top.images) :
      (asSlice m).length = P.gadget.ell * P.d := by
    rw [length_asSlice, (h.images_shape m hm).1, (h.images_shape m hm).2, one_mul]
  rw [fileResidues, List.length_append, length_flatMap_of_eq fun B hB => h.length_blockResidues hB,
    length_flatMap_of_eq himage, h.length_images, polyCount]
  ring

theorem Shaped.length_artefactWords (h : Shaped blocks top) :
    (artefactWords blocks top).length = wordCount P blocks.length := by
  have hheader : (header P blocks.length).length = 8 := rfl
  rw [artefactWords, List.length_append, List.length_append, List.length_map,
    h.length_fileResidues, length_flatMap_of_eq fun table _ => length_tableWords table,
    h.length_tables, hheader, wordCount]

/-- **The length of a file.** -/
theorem Shaped.length_artefactBytes (h : Shaped blocks top) :
    (artefactBytes blocks top).length = artefactLen P blocks.length := by
  rw [artefactBytes, List.length_append, length_words, h.length_artefactWords, artefactLen]
  rfl

/-- The parameters of a file that fits are words. -/
theorem header_lt {n : ℕ} (hlen : artefactLen P n < 2 ^ 64) : ∀ w ∈ header P n, w < 256 ^ 8 := by
  have hd := P.two_le_d
  have hq := P.spiral.modulus_lt
  have hp := P.p_le_q
  have hbits := P.bitsPer_lt
  have hwords : (P.d - 1) * P.gadget.ell + n ≤ polyCount P n := by
    rw [polyCount, mul_add, mul_one]
    omega
  have hell : P.gadget.ell ≤ (P.d - 1) * P.gadget.ell := Nat.le_mul_of_pos_left _ (by omega)
  have hpolys : polyCount P n ≤ P.d * polyCount P n := Nat.le_mul_of_pos_left _ P.d_pos
  have hdeg : P.d ≤ P.d * polyCount P n :=
    Nat.le_mul_of_pos_right _ (by have := P.ell_pos; omega)
  have hword : (256 : ℕ) ^ 8 = 2 ^ 64 := by norm_num
  rw [hword]
  unfold artefactLen wordCount at hlen
  generalize P.d * polyCount P n = data at *
  intro w hw
  simp only [header, List.mem_cons, List.not_mem_nil, or_false] at hw
  rcases hw with rfl | rfl | rfl | rfl | rfl | rfl | rfl | rfl <;> omega

/-- The tables of a file that fits have a small degree. -/
theorem d_lt_of_len {n : ℕ} (hlen : artefactLen P n < 2 ^ 64) : P.d < 2 ^ 31 := by
  by_contra hlarge
  have htables : (2 ^ 31 - 2) * (2 ^ 31 + 1) ≤ (P.d - 2) * (P.d + 1) :=
    Nat.mul_le_mul (by omega) (by omega)
  unfold artefactLen wordCount at hlen
  generalize (P.d - 2) * (P.d + 1) = tables at *
  omega

/-- The words of a file are words. -/
theorem artefactWords_lt (hheader : ∀ w ∈ header P blocks.length, w < 256 ^ 8)
    (htables : Tabled top) : ∀ w ∈ artefactWords blocks top, w < 256 ^ 8 := by
  intro w hw
  rw [artefactWords, List.mem_append, List.mem_append] at hw
  rcases hw with hw | hw | hw
  · exact hheader w hw
  · obtain ⟨r, -, rfl⟩ := List.mem_map.mp hw
    exact r.isLt.trans (P.spiral.modulus_lt.trans_eq (by norm_num))
  · obtain ⟨table, htable, hw⟩ := List.mem_flatMap.mp hw
    rcases List.mem_cons.mp hw with rfl | hw
    · exact htables.exponent_word table htable
    · obtain ⟨s, rfl⟩ := (List.mem_ofFn' _ _).mp hw
      exact (htables.entry_lt table htable s).trans (by norm_num)

end Words

end Inspiring
