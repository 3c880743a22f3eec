import IpirSp.Codec.Canonical
import IpirSp.Reinspiring.NativeHosts

/-!
# Files of native blocks

`write` lists the blocks of one mode: a magic string for the mode, the number of blocks, and for
each block its identifier, its masks, its matrix in signed 32-bit or 64-bit words and, in one-mask
mode, the transforms of the leftover operand.  `read` takes the shapes from the setup and checks
every section.

`BlockSections` is a block as it stands in a file, and `readArtefact_accepts_iff` says that the
reader accepts exactly the files that consist of sections.  The mode of a file is its magic string
alone.
-/

namespace Reinspiring

open SpiralRs Inspiring Loops MachineWord Codec

variable {d q : ℕ} {P : NativeParams d q}

/-- `std::io::Error`. -/
inductive IoError
  | unexpectedEof
  | invalidInput (msg : String)
  | invalidData (msg : String)
deriving DecidableEq

section Writer

/-- The words of a vector. -/
def polyBytes (a : Poly d) : List UInt8 := (List.ofFn a).flatMap (leBytes 8)

/-- The coefficients of a matrix, row by row. -/
def PackingMatrix.data (M : PackingMatrix) : List ℕ :=
  (List.range (M.rows * M.cols)).map fun n => M.entry (n / M.cols) (n % M.cols)

/-- The matrix section. -/
def matrixBytes (M : NativeMatrix) : List UInt8 :=
  let h := M.toCompiled
  let narrow := ∀ x ∈ h.data, -2 ^ 31 ≤ centered x h.q ∧ centered x h.q < 2 ^ 31
  let width := if narrow then 4 else 8
  leBytes 8 width ++ h.data.flatMap fun x => leInt width (centered x h.q)

/-- The primes of a limb. -/
def limbBytes (limb : LiftLimb d) : List UInt8 :=
  leBytes 8 limb.count ++
    ((List.finRange 3).take limb.count).flatMap fun j => polyBytes (limb.ntt j).word

/-- The leftover section. -/
def leftoverBytes (op : PreparedLiftOperand d q) : List UInt8 :=
  leBytes 8 op.transforms.length ++ leBytes 8 (if op.sumFitsTwo then 1 else 0) ++
    op.transforms.flatMap limbBytes

/-- One block of `write`. -/
def blockBytes (B : NativePreprocessed P) : List UInt8 :=
  List.ofFn B.id ++ polyBytes B.a ++ B.aOther.elim [] polyBytes ++ matrixBytes B.h ++
    B.leftover.elim [] leftoverBytes

/-- The magic string of a mode. -/
def artefactMagic (twoMask : Bool) : List UInt8 :=
  if twoMask then asciiBytes "RNMAP002" else asciiBytes "RNMAP001"

/-- `write`. -/
def writePrepared (blocks : List (NativePreprocessed P)) : Except IoError (List UInt8) :=
  let twoMask := blocks.head?.any fun B => B.aOther.isSome
  if ∃ B ∈ blocks, B.aOther.isSome ≠ twoMask then
    .error (.invalidInput "mixed preprocessing modes")
  else .ok (artefactMagic twoMask ++ leBytes 8 blocks.length ++ blocks.flatMap blockBytes)

end Writer

section Reader

/-- `bad`. -/
def badArtefact : Failure ReinspiringError :=
    .err (.invalidParams "invalid native prepared artifact")

/-- A parser of the artefact. -/
abbrev Read (α : Type) := Parser (Failure ReinspiringError) α

/-- `d` words below `bound`. -/
def readPoly (d bound : ℕ) : Read (Poly d) := do
  let ws ← times (word badArtefact) d
  require badArtefact (∀ w ∈ ws, w < bound)
  pure fun i => ws.getD i 0

/-- `storage`: `n` words of `width` bytes, in place. -/
def storage (width n : ℕ) : Read (List ℕ) := do
  aligned badArtefact width
  times (fromLe <$> take badArtefact width) n

/-- A stored word as a signed one. -/
def signedWord (width w : ℕ) : ℤ := fromLeInt (leBytes width w)

/-- Words of 32 bits as the entries of a block. -/
def narrowWords (P : NativeParams d q) (data : List ℕ) : {w : Words // w.Fits d (d * P.ell) q} :=
  ⟨.narrow fun r c => signedWord 4 (data.getD (r * (d * P.ell) + c) 0), fun r _ c _ => by
    have hlen : 256 ^ (leBytes 4 (data.getD (r * (d * P.ell) + c) 0)).length = 2 * 2 ^ 31 := by
      rw [length_leBytes]
      rfl
    obtain ⟨hlo, hhi⟩ := fromLeInt_bounds _ hlen
    exact ⟨hlo, hhi⟩⟩

/-- Words of 64 bits as the entries of a block. -/
def wideWords (P : NativeParams d q) (data : List ℕ)
    (h : ∀ w ∈ data, |signedWord 8 w| ≤ (q / 2 : ℕ)) : {w : Words // w.Fits d (d * P.ell) q} :=
  ⟨.wide fun r c => signedWord 8 (data.getD (r * (d * P.ell) + c) 0), fun r _ c _ => by
    dsimp only
    rw [List.getD_eq_getElem?_getD]
    rcases hget : data[r * (d * P.ell) + c]? with _ | w
    · exact Nat.cast_nonneg _
    · exact h w (List.mem_of_getElem? hget)⟩

/-- The matrix words of a block. -/
def readWords (P : NativeParams d q) : Read {w : Words // w.Fits d (d * P.ell) q} := do
  let width ← word badArtefact
  if width = 4 then narrowWords P <$> storage 4 (d * d * P.ell)
  else if width = 8 then
    let data ← storage 8 (d * d * P.ell)
    if h : ∀ w ∈ data, |signedWord 8 w| ≤ (q / 2 : ℕ) then pure (wideWords P data h)
    else throw badArtefact
  else throw badArtefact

/-- One prime of a limb. -/
def readNtt (d : ℕ) (j : Fin 3) : Read (Ntt d (PRIMES j)) := do
  let ws ← times (word badArtefact) d
  if h : ∀ w ∈ ws, w < PRIMES j then
    pure ⟨fun s => ws.getD s 0, fun s => by
      rw [List.getD_eq_getElem?_getD]
      rcases hget : ws[(s : ℕ)]? with _ | w
      · exact PRIMES_pos j
      · exact h w (List.mem_of_getElem? hget)⟩
  else throw badArtefact

/-- The transform that a limb of two primes does not have. -/
def absentNtt (d : ℕ) : Ntt d (PRIMES 2) := ⟨fun _ => 0, fun _ => PRIMES_pos 2⟩

/-- A limb of `count` primes. -/
def LiftLimb.ofTransforms (count : ℕ) (first : Ntt d (PRIMES 0)) (second : Ntt d (PRIMES 1))
    (third : Ntt d (PRIMES 2)) : LiftLimb d where
  count
  ntt j := match j with
    | 0 => first
    | 1 => second
    | 2 => third

/-- One limb of the leftover operand. -/
def readLimb (d : ℕ) : Read (LiftLimb d) := do
  let n ← word badArtefact
  require badArtefact (2 ≤ n ∧ n ≤ 3)
  let first ← readNtt d 0
  let second ← readNtt d 1
  let third ← sectionIf (n = 3) (readNtt d 2)
  pure (LiftLimb.ofTransforms n first second (third.getD (absentNtt d)))

/-- The leftover section of a block. -/
def readLeftover (P : NativeParams d q) : Read (PreparedLiftOperand d q) := do
  let n ← word badArtefact
  require badArtefact (n = P.ell)
  let fits ← word badArtefact
  require badArtefact (fits = 0 ∨ fits = 1)
  let transforms ← times (readLimb d) P.ell
  pure ⟨transforms, fits = 1⟩

/-- One block of `read`. -/
def readBlock (lib : NumberTheory) (S : NativeSetup P) (twoMask : Bool) :
    Read (NativePreprocessed P) := do
  let id ← take badArtefact 32
  require badArtefact (id = List.ofFn S.id)
  let a ← readPoly d q
  let aOther ← sectionIf twoMask (readPoly d q)
  let words ← readWords P
  let leftover ← sectionIf (!twoMask) (readLeftover P)
  let lift ← call (LiftContext.new lib d q)
  pure {
    id := fun i => id.getD i 0
    a, aOther
    h := {
      rows := d
      cols := d * P.ell
      q
      words := words.1
      rows_pos := P.d_pos
      cols_le := (Nat.mul_le_mul P.d_le P.ell_le).trans (by decide)
      two_le_q := le_trans (by decide) P.le_q
      q_le := P.q_le
      fits := words.2 }
    leftover, lift }

/-- The mode of an artefact. -/
def readMode : Read Bool := do
  let magic ← take badArtefact 8
  if magic = asciiBytes "RNMAP001" then pure false
  else if magic = asciiBytes "RNMAP002" then pure true
  else throw badArtefact

/-- The contents of a file. -/
def readArtefact (lib : NumberTheory) (S : NativeSetup P) (count : ℕ) :
    Read (List (NativePreprocessed P)) := do
  let twoMask ← readMode
  let n ← word badArtefact
  require badArtefact (n = count)
  times (readBlock lib S twoMask) count

/-- `read`, on a host of either byte order. -/
def readPrepared (littleEndian : Bool) (lib : NumberTheory) (file : List UInt8) (offset : ℕ)
    (S : NativeSetup P) (count : ℕ) : Result (List (NativePreprocessed P)) :=
  if ¬littleEndian ∨ offset % 8 ≠ 0 ∨ count = 0 ∨ count > 16 then .error badArtefact
  else run badArtefact (readArtefact lib S count) offset (file.drop offset)

end Reader

/-! ## Sections -/

section Sections

theorem getD_ofFn {α : Type} (a : Fin d → α) (i : Fin d) (default : α) :
    (List.ofFn a).getD i default = a i := by
  rw [List.getD_eq_getElem?_getD, List.getElem?_eq_getElem (by simp)]
  simp

theorem length_polyBytes (a : Poly d) : (polyBytes a).length = 8 * d := by
  rw [polyBytes, length_words, List.length_ofFn]

theorem mem_ofFn_lt {a : Poly d} {bound : ℕ} (ha : ∀ i, a i < bound) :
    ∀ w ∈ List.ofFn a, w < bound := by
  intro w hw
  obtain ⟨i, rfl⟩ := (List.mem_ofFn' a w).mp hw
  exact ha i

/-- The words of a vector. -/
theorem reads_polyWords {a : Poly d} {bound : ℕ} (ha : ∀ i, a i < bound) (hbound : bound ≤ 2 ^ 64)
    (start : ℕ) : Reads (times (word badArtefact) d) start (polyBytes a) (List.ofFn a) := by
  have hread := reads_words badArtefact start (List.ofFn a) fun w hw =>
    (mem_ofFn_lt ha w hw).trans_le (hbound.trans (by norm_num))
  rwa [List.length_ofFn] at hread

theorem reads_poly {a : Poly d} {bound : ℕ} (ha : ∀ i, a i < bound) (hbound : bound ≤ 2 ^ 64)
    (start : ℕ) : Reads (readPoly d bound) start (polyBytes a) a := by
  refine (reads_polyWords ha hbound start).last ?_
  refine (reads_require (mem_ofFn_lt ha) _).skip ?_
  have hself : (fun i : Fin d => (List.ofFn a).getD i 0) = a := funext fun i => getD_ofFn a i 0
  rw [hself]
  exact Reads.pure a _

theorem reads_ntt {j : Fin 3} (v : Ntt d (PRIMES j)) (start : ℕ) :
    Reads (readNtt d j) start (polyBytes v.word) v := by
  have hprime : PRIMES j ≤ 2 ^ 64 := by
    fin_cases j <;> decide
  refine (reads_polyWords v.lt hprime start).last ?_
  rw [dif_pos (mem_ofFn_lt v.lt)]
  have hself : v = ⟨fun s => (List.ofFn v.word).getD s 0, fun s => by
      rw [getD_ofFn]; exact v.lt s⟩ := by
    ext s
    exact (getD_ofFn v.word s 0).symm
  exact hself ▸ Reads.pure v _

/-- A limb without the transforms that its count leaves out. -/
def LiftLimb.stored (limb : LiftLimb d) : LiftLimb d :=
  LiftLimb.ofTransforms limb.count (limb.ntt 0) (limb.ntt 1)
    (if limb.count = 3 then limb.ntt 2 else absentNtt d)

theorem length_limbBytes {limb : LiftLimb d} (h : limb.count = 2 ∨ limb.count = 3) :
    (limbBytes limb).length = 8 + 8 * (limb.count * d) := by
  unfold limbBytes
  rcases h with h | h <;> rw [h] <;>
    simp [List.finRange, List.ofFn_succ, length_polyBytes] <;> ring

theorem reads_limb {limb : LiftLimb d} (h : limb.count = 2 ∨ limb.count = 3) (start : ℕ) :
    Reads (readLimb d) start (limbBytes limb) limb.stored := by
  have hword : limb.count < 256 ^ 8 := by
    rcases h with h | h <;> rw [h] <;> norm_num
  have hthird (third : Option (Ntt d (PRIMES 2)))
      (hlimb : third = if limb.count = 3 then some (limb.ntt 2) else none) :
      LiftLimb.ofTransforms limb.count (limb.ntt 0) (limb.ntt 1) (third.getD (absentNtt d)) =
        limb.stored := by
    rw [hlimb, LiftLimb.stored]
    split <;> rfl
  refine (reads_word badArtefact start hword).bind ?_
  refine (reads_require (by omega) _).skip ?_
  rcases h with h | h
  · -- Two primes: the third transform is left out.
    have hbytes : ((List.finRange 3).take limb.count).flatMap
        (fun j => polyBytes (limb.ntt j).word) =
        polyBytes (limb.ntt 0).word ++ polyBytes (limb.ntt 1).word := by
      rw [h]
      simp [List.finRange, List.ofFn_succ]
    rw [hbytes, ← hthird none (by rw [if_neg (by omega)]), h]
    refine (reads_ntt (limb.ntt 0) _).bind ((reads_ntt (limb.ntt 1) _).last ?_)
    exact (Reads.pure none _).skip (Reads.pure _ _)
  · have hbytes : ((List.finRange 3).take limb.count).flatMap
        (fun j => polyBytes (limb.ntt j).word) = polyBytes (limb.ntt 0).word ++
          (polyBytes (limb.ntt 1).word ++ polyBytes (limb.ntt 2).word) := by
      rw [h]
      simp [List.finRange, List.ofFn_succ]
    rw [hbytes, ← hthird (some (limb.ntt 2)) (by rw [if_pos h]), h]
    refine (reads_ntt (limb.ntt 0) _).bind ((reads_ntt (limb.ntt 1) _).bind ?_)
    exact ((reads_ntt (limb.ntt 2) _).map some).last (Reads.pure _ _)

/-- An operand without the transforms that the counts of its limbs leave out. -/
def PreparedLiftOperand.stored (op : PreparedLiftOperand d q) : PreparedLiftOperand d q :=
  ⟨op.transforms.map LiftLimb.stored, op.sumFitsTwo⟩

/-- What the leftover section relies on. -/
structure PreparedLiftOperand.Shaped (P : NativeParams d q) (op : PreparedLiftOperand d q) :
    Prop where
  length : op.transforms.length = P.ell
  counts : ∀ limb ∈ op.transforms, limb.count = 2 ∨ limb.count = 3

theorem reads_leftover {op : PreparedLiftOperand d q} (h : op.Shaped P) (start : ℕ) :
    Reads (readLeftover P) start (leftoverBytes op) op.stored := by
  have hell := P.ell_le
  have hword : op.transforms.length < 256 ^ 8 := by
    rw [h.length]
    exact lt_of_le_of_lt hell (by norm_num)
  have hfits : (if op.sumFitsTwo then 1 else 0) < 256 ^ 8 := by
    split <;> norm_num
  unfold leftoverBytes
  rw [List.append_assoc]
  refine (reads_word badArtefact start hword).bind ?_
  refine (reads_require h.length _).skip ?_
  refine (reads_word badArtefact _ hfits).bind ?_
  refine (reads_require (by split <;> simp) _).skip ?_
  have hlimbs (start : ℕ) := reads_times (p := readLimb d) limbBytes LiftLimb.stored
    (fun _ => True) op.transforms (fun limb hlimb start _ => reads_limb (h.counts limb hlimb) start)
    (fun _ _ _ _ => trivial) start trivial
  rw [h.length] at hlimbs
  refine (hlimbs _).last ?_
  have hflag : decide ((if op.sumFitsTwo then 1 else 0) = 1) = op.sumFitsTwo := by
    cases op.sumFitsTwo <;> rfl
  rw [hflag]
  exact Reads.pure _ _

/-- A limb is a word and a vector for each of its primes. -/
theorem length_leftoverBytes {op : PreparedLiftOperand d q} (h : op.Shaped P) :
    ∃ n, (leftoverBytes op).length = 8 * (2 + P.ell + d * n) := by
  have hlimbs : ∀ limbs : List (LiftLimb d), (∀ limb ∈ limbs, limb.count = 2 ∨ limb.count = 3) →
      ∃ n, (limbs.flatMap limbBytes).length = 8 * (limbs.length + d * n) := by
    intro limbs
    induction limbs with
    | nil => exact fun _ => ⟨0, by simp⟩
    | cons limb limbs ih =>
        intro hcounts
        obtain ⟨n, hn⟩ := ih fun limb' hlimb' => hcounts limb' (List.mem_cons_of_mem _ hlimb')
        refine ⟨limb.count + n, ?_⟩
        rw [List.flatMap_cons, List.length_append, hn,
          length_limbBytes (hcounts limb List.mem_cons_self), List.length_cons]
        ring
  obtain ⟨n, hn⟩ := hlimbs op.transforms h.counts
  refine ⟨n, ?_⟩
  rw [leftoverBytes, List.length_append, List.length_append, length_leBytes, length_leBytes, hn,
    h.length]
  ring

/-- Words in place. -/
theorem reads_storage (width : ℕ) (data : List ℕ) (hdata : ∀ w ∈ data, w < 256 ^ width)
    {start : ℕ} (hstart : start % width = 0) :
    Reads (storage width data.length) start (data.flatMap (leBytes width)) data := by
  refine (reads_aligned badArtefact hstart).skip ?_
  have hread := reads_times (p := fromLe <$> take badArtefact width) (leBytes width) id
    (fun _ => True) data (fun w hw start _ => by
      have hword := (reads_take badArtefact start (leBytes width w)).map fromLe
      rwa [length_leBytes, fromLe_leBytes (hdata w hw)] at hword)
    (fun _ _ _ _ => trivial) start trivial
  rwa [List.map_id] at hread

end Sections

/-! ## Layout -/

section Layout

/-- The matrix of a block as it stands in a file. -/
structure MatrixSection (P : NativeParams d q) where
  width : ℕ
  data : List ℕ
  width_eq : width = 4 ∨ width = 8
  length_eq : data.length = d * d * P.ell
  data_lt : ∀ w ∈ data, w < 256 ^ width
  wide_le : width = 8 → ∀ w ∈ data, |signedWord 8 w| ≤ (q / 2 : ℕ)

namespace MatrixSection

def bytes (s : MatrixSection P) : List UInt8 :=
  leBytes 8 s.width ++ s.data.flatMap (leBytes s.width)

/-- The entries that it stands for. -/
def words (s : MatrixSection P) : {w : Words // w.Fits d (d * P.ell) q} :=
  if h : s.width = 8 then wideWords P s.data (s.wide_le h) else narrowWords P s.data

theorem reads_words (s : MatrixSection P) {start : ℕ} (hstart : start % 8 = 0) :
    Reads (readWords P) start s.bytes s.words := by
  obtain ⟨width, data, hwidth, hlen, hdata, hwide⟩ := s
  have hword : width < 256 ^ 8 := by
    rcases hwidth with rfl | rfl <;> norm_num
  refine (reads_word badArtefact start hword).bind ?_
  rw [length_leBytes]
  rcases hwidth with rfl | rfl
  · rw [if_pos rfl, ← hlen]
    exact (reads_storage 4 data hdata (by omega)).map _
  · rw [if_neg (by decide), if_pos rfl, ← hlen]
    refine (reads_storage 8 data hdata (by omega)).last ?_
    rw [dif_pos (hwide rfl)]
    exact Reads.pure _ _

theorem length_bytes (s : MatrixSection P) : ∃ n, s.bytes.length = 8 * (1 + d * n) := by
  obtain ⟨m, hd, -⟩ := P.exists_d_eq
  have hlen : (s.data.flatMap (leBytes s.width)).length = s.data.length * s.width := by
    rw [List.length_flatMap, List.map_congr_left fun w _ => length_leBytes s.width w,
      List.map_const', List.sum_replicate, smul_eq_mul]
  rw [bytes, List.length_append, length_leBytes, hlen, s.length_eq]
  rcases s.width_eq with hwidth | hwidth
  · have hsquare : d * d = d * (2 * 2 ^ m) := congrArg (d * ·) (hd.trans (pow_succ' 2 m))
    refine ⟨2 ^ m * P.ell, ?_⟩
    rw [hwidth, hsquare]
    ring
  · refine ⟨d * P.ell, ?_⟩
    rw [hwidth]
    ring

end MatrixSection

/-- A block of one mode as it stands in a file. -/
structure BlockSections (P : NativeParams d q) (twoMask : Bool) where
  a : Poly d
  other : Option (Poly d)
  matrix : MatrixSection P
  leftover : Option (PreparedLiftOperand d q)
  a_lt : ∀ i, a i < q
  other_lt : ∀ b, other = some b → ∀ i, b i < q
  other_isSome : other.isSome = twoMask
  leftover_isSome : leftover.isSome = !twoMask
  leftover_shaped : ∀ op, leftover = some op → op.Shaped P

namespace BlockSections

variable {twoMask : Bool}

def bytes (id : Digest) (s : BlockSections P twoMask) : List UInt8 :=
  List.ofFn id ++ polyBytes s.a ++ s.other.elim [] polyBytes ++ s.matrix.bytes ++
    s.leftover.elim [] leftoverBytes

/-- The block that it stands for. -/
def block (id : Digest) (lift : LiftContext d q) (s : BlockSections P twoMask) :
    NativePreprocessed P where
  id := fun i => (List.ofFn id).getD i 0
  a := s.a
  aOther := s.other
  h := {
    rows := d
    cols := d * P.ell
    q
    words := s.matrix.words.1
    rows_pos := P.d_pos
    cols_le := (Nat.mul_le_mul P.d_le P.ell_le).trans (by decide)
    two_le_q := le_trans (by decide) P.le_q
    q_le := P.q_le
    fits := s.matrix.words.2 }
  leftover := s.leftover.map PreparedLiftOperand.stored
  lift

/-- The words that a block has before those that its degree multiplies. -/
def baseWords (P : NativeParams d q) (twoMask : Bool) : ℕ := if twoMask then 5 else P.ell + 7

theorem length_bytes (id : Digest) (s : BlockSections P twoMask) :
    ∃ n, (s.bytes id).length = 8 * (baseWords P twoMask + d * n) := by
  obtain ⟨n, hn⟩ := s.matrix.length_bytes
  have hbytes : (s.bytes id).length = 32 + 8 * d + (s.other.elim [] polyBytes).length +
      8 * (1 + d * n) + (s.leftover.elim [] leftoverBytes).length := by
    simp only [bytes, List.length_append, List.length_ofFn, length_polyBytes, hn]
  have hother := s.other_isSome
  have hleftover := s.leftover_isSome
  rw [hbytes]
  cases twoMask with
  | true =>
      obtain ⟨other, hsome⟩ := Option.isSome_iff_exists.mp hother
      have hnone : s.leftover = none := Option.not_isSome_iff_eq_none.mp (by simp [hleftover])
      refine ⟨n + 2, ?_⟩
      rw [hsome, hnone, Option.elim_some, Option.elim_none, length_polyBytes, List.length_nil,
        baseWords, if_pos rfl]
      ring
  | false =>
      obtain ⟨op, hsome⟩ := Option.isSome_iff_exists.mp hleftover
      have hnone : s.other = none := Option.not_isSome_iff_eq_none.mp (by simp [hother])
      obtain ⟨m, hm⟩ := length_leftoverBytes (s.leftover_shaped op hsome)
      refine ⟨n + m + 1, ?_⟩
      rw [hsome, hnone, Option.elim_some, Option.elim_none, hm, List.length_nil, baseWords,
        if_neg Bool.false_ne_true]
      ring

theorem reads_block {lib : NumberTheory} {S : NativeSetup P} {lift : LiftContext d q}
    (hlift : LiftContext.new lib d q = .ok lift) (s : BlockSections P twoMask) {start : ℕ}
    (hstart : start % 8 = 0) :
    Reads (readBlock lib S twoMask) start (s.bytes S.id) (s.block S.id lift) := by
  have hq : q ≤ 2 ^ 64 := P.q_le.trans (by norm_num)
  unfold bytes
  simp only [List.append_assoc]
  have hid := reads_take badArtefact start (List.ofFn S.id)
  rw [List.length_ofFn] at hid
  refine hid.bind ?_
  refine (reads_require rfl _).skip ?_
  refine (reads_poly s.a_lt hq _).bind ?_
  have hother (at' : ℕ) := reads_sectionIf (p := readPoly d q) at' polyBytes
    fun other hother => reads_poly (s.other_lt other hother) hq at'
  rw [s.other_isSome] at hother
  refine (hother _).bind ?_
  have hlen : (s.other.elim [] polyBytes).length % 8 = 0 := by
    cases s.other with
    | none => rfl
    | some other => rw [Option.elim_some, length_polyBytes, Nat.mul_mod_right]
  refine (s.matrix.reads_words ?_).bind ?_
  · rw [length_polyBytes, List.length_ofFn]
    omega
  · have hleft (at' : ℕ) : Reads (sectionIf (!twoMask) (readLeftover P)) at'
        (s.leftover.elim [] leftoverBytes) (s.leftover.map PreparedLiftOperand.stored) := by
      rw [← s.leftover_isSome]
      cases hcase : s.leftover with
      | none => exact Reads.pure none at'
      | some op => exact (reads_leftover (s.leftover_shaped op hcase) at').map some
    refine (hleft _).last ?_
    exact (reads_call hlift _).skip (Reads.pure _ _)

end BlockSections

/-- A file of blocks of one mode. -/
def fileBytes (id : Digest) (twoMask : Bool) (sections : List (BlockSections P twoMask)) :
    List UInt8 :=
  artefactMagic twoMask ++ (leBytes 8 sections.length ++
    sections.flatMap (BlockSections.bytes id))

theorem length_artefactMagic (twoMask : Bool) : (artefactMagic twoMask).length = 8 := by
  cases twoMask <;> rfl

theorem reads_mode (twoMask : Bool) (start : ℕ) :
    Reads readMode start (artefactMagic twoMask) twoMask := by
  have hread := reads_take badArtefact start (artefactMagic twoMask)
  rw [length_artefactMagic] at hread
  refine hread.last ?_
  cases twoMask with
  | false => exact Reads.pure false _
  | true =>
      have hmode : artefactMagic true = asciiBytes "RNMAP002" := rfl
      rw [if_neg (by decide), if_pos hmode]
      exact Reads.pure true _

/-- **A file is read as the blocks that it stands for.** -/
theorem reads_file {lib : NumberTheory} {S : NativeSetup P} {lift : LiftContext d q}
    (hlift : LiftContext.new lib d q = .ok lift) {twoMask : Bool}
    {sections : List (BlockSections P twoMask)} (hcount : sections.length < 256 ^ 8) {start : ℕ}
    (hstart : start % 8 = 0) :
    Reads (readArtefact lib S sections.length) start (fileBytes S.id twoMask sections)
      (sections.map (BlockSections.block S.id lift)) := by
  refine (reads_mode twoMask start).bind ?_
  refine (reads_word badArtefact _ hcount).bind ?_
  refine (reads_require rfl _).skip ?_
  refine reads_times (BlockSections.bytes S.id) (BlockSections.block S.id lift)
    (fun start => start % 8 = 0) sections (fun s _ start hstart => s.reads_block hlift hstart)
    (fun s _ start hstart => ?_) _ ?_
  · obtain ⟨n, hn⟩ := s.length_bytes S.id
    omega
  · rw [length_artefactMagic, length_leBytes]
    omega

end Layout

/-! ## What is accepted -/

section Accepted

theorem ofFn_getD {ws : List ℕ} (h : ws.length = d) :
    List.ofFn (fun i : Fin d => ws.getD i 0) = ws := by
  subst h
  refine List.ext_getElem (by simp) fun i hi hi' => ?_
  rw [List.getElem_ofFn]
  exact List.getD_eq_getElem _ _ hi'

theorem consumes_poly (d bound : ℕ) :
    Consumes (readPoly d bound) fun a bytes => bytes = polyBytes a ∧ ∀ i, a i < bound := by
  refine (consumes_times _ _ (consumes_word badArtefact) d).bind ?_
  rintro ws bytes ⟨rfl, hlen, -⟩
  refine (consumes_require _ _).bind ?_
  rintro - more ⟨rfl, hlt⟩
  refine Consumes.pure ⟨?_, fun i => ?_⟩
  · rw [polyBytes, ofFn_getD hlen, List.append_nil, List.append_nil]
  · have hi : (i : ℕ) < ws.length := i.2.trans_eq hlen.symm
    have hget : ws.getD i 0 = ws[(i : ℕ)] := List.getD_eq_getElem _ _ hi
    exact hget.trans_lt (hlt _ (List.getElem_mem hi))

theorem consumes_storage (width n : ℕ) :
    Consumes (storage width n) fun data bytes =>
      bytes = data.flatMap (leBytes width) ∧ data.length = n ∧ ∀ w ∈ data, w < 256 ^ width := by
  refine (consumes_aligned _ _).bind ?_
  rintro - bytes rfl
  exact consumes_times _ _ (consumes_fromLe badArtefact width) n

theorem consumes_words (P : NativeParams d q) :
    Consumes (readWords P) fun _ bytes => ∃ s : MatrixSection P, bytes = s.bytes := by
  refine (consumes_word badArtefact).bind ?_
  rintro width bytes ⟨rfl, -⟩
  refine Consumes.ite (fun hfour => ?_) fun _ => Consumes.ite (fun height => ?_) fun _ =>
    Consumes.throw _
  · subst hfour
    refine (consumes_storage 4 _).map ?_
    rintro data bytes ⟨rfl, hlen, hlt⟩
    exact ⟨⟨4, data, Or.inl rfl, hlen, hlt, fun h => absurd h (by decide)⟩, rfl⟩
  · subst height
    refine (consumes_storage 8 _).bind ?_
    rintro data bytes ⟨rfl, hlen, hlt⟩
    split
    · next hwide =>
      refine Consumes.pure ⟨⟨8, data, Or.inr rfl, hlen, hlt, fun _ => hwide⟩, ?_⟩
      rw [List.append_nil]
      rfl
    · exact Consumes.throw _

theorem consumes_ntt (d : ℕ) (j : Fin 3) :
    Consumes (readNtt d j) fun v bytes => bytes = polyBytes v.word := by
  refine (consumes_times _ _ (consumes_word badArtefact) d).bind ?_
  rintro ws bytes ⟨rfl, hlen, -⟩
  split
  · refine Consumes.pure ?_
    rw [polyBytes, ofFn_getD hlen, List.append_nil]
  · exact Consumes.throw _

theorem consumes_limb (d : ℕ) :
    Consumes (readLimb d) fun limb bytes =>
      bytes = limbBytes limb ∧ (limb.count = 2 ∨ limb.count = 3) := by
  refine (consumes_word badArtefact).bind ?_
  rintro n bytes ⟨rfl, -⟩
  refine (consumes_require _ _).bind ?_
  rintro - bytes ⟨rfl, hlo, hhi⟩
  refine (consumes_ntt d 0).bind ?_
  rintro first bytes rfl
  refine (consumes_ntt d 1).bind ?_
  rintro second bytes rfl
  refine ((consumes_ntt d 2).sectionIf _).bind ?_
  rintro third bytes ⟨hsome, hthird⟩
  refine Consumes.pure ⟨?_, show n = 2 ∨ n = 3 by omega⟩
  cases third with
  | none =>
      obtain rfl : bytes = [] := hthird
      obtain rfl : n = 2 := by
        have hne : n ≠ 3 := of_decide_eq_false hsome.symm
        omega
      simp [limbBytes, LiftLimb.ofTransforms, List.finRange, List.ofFn_succ]
  | some third =>
      obtain rfl : bytes = polyBytes third.word := hthird
      obtain rfl : n = 3 := of_decide_eq_true hsome.symm
      simp [limbBytes, LiftLimb.ofTransforms, List.finRange, List.ofFn_succ]

theorem consumes_leftover (P : NativeParams d q) :
    Consumes (readLeftover P) fun op bytes => bytes = leftoverBytes op ∧ op.Shaped P := by
  refine (consumes_word badArtefact).bind ?_
  rintro n bytes ⟨rfl, -⟩
  refine (consumes_require _ _).bind ?_
  rintro - bytes ⟨rfl, rfl⟩
  refine (consumes_word badArtefact).bind ?_
  rintro fits bytes ⟨rfl, -⟩
  refine (consumes_require _ _).bind ?_
  rintro - bytes ⟨rfl, hfits⟩
  refine (consumes_times _ _ (consumes_limb d) P.ell).bind ?_
  rintro transforms bytes ⟨rfl, hlen, hcounts⟩
  refine Consumes.pure ⟨?_, hlen, hcounts⟩
  have hflag : (if fits = 1 then 1 else 0) = fits := by
    rcases hfits with rfl | rfl <;> rfl
  simp [leftoverBytes, hlen, hflag]

/-- **A block that is read was its sections.** -/
theorem consumes_block (lib : NumberTheory) (S : NativeSetup P) (twoMask : Bool) :
    Consumes (readBlock lib S twoMask) fun _ bytes =>
      ∃ s : BlockSections P twoMask, s.bytes S.id = bytes := by
  refine (consumes_take badArtefact 32).bind ?_
  rintro id bytes ⟨rfl, -⟩
  refine (consumes_require _ _).bind ?_
  rintro - more ⟨rfl, rfl⟩
  refine (consumes_poly d q).bind ?_
  rintro a bytes ⟨rfl, ha⟩
  refine ((consumes_poly d q).sectionIf twoMask).bind ?_
  rintro other otherBytes ⟨hisSome, hother⟩
  refine (consumes_words P).bind ?_
  rintro - bytes ⟨matrix, rfl⟩
  refine ((consumes_leftover P).sectionIf (!twoMask)).bind ?_
  rintro leftover leftBytes ⟨hleftSome, hleft⟩
  refine (consumes_call _).bind ?_
  rintro lift more ⟨rfl, -⟩
  refine Consumes.pure ⟨{
    a
    other
    matrix
    leftover
    a_lt := ha
    other_lt := ?_
    other_isSome := hisSome
    leftover_isSome := hleftSome
    leftover_shaped := ?_ }, ?_⟩
  · rintro b rfl
    exact hother.2
  · rintro op rfl
    exact hleft.2
  · have hotherBytes : other.elim [] polyBytes = otherBytes := by
      cases other with
      | none => exact hother.symm
      | some b => exact hother.1.symm
    have hleftBytes : leftover.elim [] leftoverBytes = leftBytes := by
      cases leftover with
      | none => exact hleft.symm
      | some op => exact hleft.1.symm
    simp [BlockSections.bytes, hotherBytes, hleftBytes]

theorem consumes_mode :
    Consumes readMode fun twoMask bytes => bytes = artefactMagic twoMask := by
  refine (consumes_take badArtefact 8).bind ?_
  rintro magic bytes ⟨rfl, -⟩
  refine Consumes.ite (fun hone => ?_) fun _ => Consumes.ite (fun htwo => ?_) fun _ =>
    Consumes.throw _
  · exact Consumes.pure (by rw [List.append_nil, hone]; rfl)
  · exact Consumes.pure (by rw [List.append_nil, htwo]; rfl)

/-- What is read is a file of sections. -/
theorem consumes_file (lib : NumberTheory) (S : NativeSetup P) (count : ℕ) :
    Consumes (readArtefact lib S count) fun _ bytes =>
      ∃ (twoMask : Bool) (sections : List (BlockSections P twoMask)),
        sections.length = count ∧ bytes = fileBytes S.id twoMask sections := by
  refine consumes_mode.bind ?_
  rintro twoMask bytes rfl
  refine (consumes_word badArtefact).bind ?_
  rintro n bytes ⟨rfl, -⟩
  refine (consumes_require _ _).bind ?_
  rintro - bytes ⟨rfl, rfl⟩
  refine ((consumes_block lib S twoMask).times n).mono ?_
  rintro blocks bytes ⟨parts, hparts, hlen, rfl⟩
  have hall : ∀ part ∈ parts, ∃ s : BlockSections P twoMask, s.bytes S.id = part := by
    intro part hpart
    obtain ⟨i, hi, rfl⟩ := List.getElem_of_mem hpart
    exact hparts.get (hparts.length_eq ▸ hi) hi
  obtain ⟨sections, rfl⟩ : ∃ sections : List (BlockSections P twoMask),
      sections.map (BlockSections.bytes S.id) = parts := by
    have hmem : parts ∈ Set.range
        (List.map fun s : BlockSections P twoMask => s.bytes S.id) := by
      rw [Set.range_list_map]
      exact hall
    exact hmem
  rw [List.length_map] at hlen
  exact ⟨twoMask, sections, hlen, by rw [fileBytes, hlen, List.flatMap_def, List.nil_append]⟩

/-- **The reader accepts exactly the files of sections**, at a position of whole words. -/
theorem readArtefact_accepts_iff {lib : NumberTheory} {S : NativeSetup P} {lift : LiftContext d q}
    (hlift : LiftContext.new lib d q = .ok lift) {count : ℕ} (hcount : count < 256 ^ 8)
    {start : ℕ} (hstart : start % 8 = 0) (bytes : List UInt8) :
    (∃ blocks, run badArtefact (readArtefact lib S count) start bytes = .ok blocks) ↔
      ∃ (twoMask : Bool) (sections : List (BlockSections P twoMask)),
        sections.length = count ∧ bytes = fileBytes S.id twoMask sections := by
  constructor
  · rintro ⟨blocks, hrun⟩
    exact (consumes_file lib S count).run hrun
  · rintro ⟨twoMask, sections, rfl, rfl⟩
    exact ⟨_, run_eq_ok (reads_file hlift hcount hstart)⟩

end Accepted

/-! ## Errors -/

section Errors

/-- An error that the reader returns, not a panic. -/
def Returned (e : Failure ReinspiringError) : Prop := ∃ e', e = .err e'

theorem returned_bad : Returned badArtefact := ⟨_, rfl⟩

theorem isErr_of_returned {α : Type} {r : Result α} {e : Failure ReinspiringError}
    (h : r = .error e) (he : Returned e) : IsErr r := by
  obtain ⟨e', rfl⟩ := he
  exact ⟨e', h⟩

theorem failsWith_readPoly (d bound : ℕ) : FailsWith Returned (readPoly d bound) :=
  ((failsWith_word returned_bad).times d).bind fun _ =>
    (failsWith_require returned_bad _).bind fun _ => FailsWith.pure _

theorem failsWith_storage (width n : ℕ) : FailsWith Returned (storage width n) :=
  (failsWith_aligned returned_bad _).bind fun _ =>
    ((failsWith_take returned_bad _).map _).times n

theorem failsWith_readWords (P : NativeParams d q) : FailsWith Returned (readWords P) := by
  refine (failsWith_word returned_bad).bind fun width => ?_
  refine FailsWith.ite ((failsWith_storage _ _).map _)
    (FailsWith.ite ?_ (FailsWith.throw returned_bad))
  refine (failsWith_storage _ _).bind fun data => ?_
  split
  · exact FailsWith.pure _
  · exact FailsWith.throw returned_bad

theorem failsWith_readNtt (d : ℕ) (j : Fin 3) : FailsWith Returned (readNtt d j) := by
  refine ((failsWith_word returned_bad).times d).bind fun ws => ?_
  split
  · exact FailsWith.pure _
  · exact FailsWith.throw returned_bad

theorem failsWith_readLimb (d : ℕ) : FailsWith Returned (readLimb d) :=
  (failsWith_word returned_bad).bind fun _ => (failsWith_require returned_bad _).bind fun _ =>
    (failsWith_readNtt d 0).bind fun _ => (failsWith_readNtt d 1).bind fun _ =>
      ((failsWith_readNtt d 2).sectionIf _).bind fun _ => FailsWith.pure _

theorem failsWith_readLeftover (P : NativeParams d q) : FailsWith Returned (readLeftover P) :=
  (failsWith_word returned_bad).bind fun _ => (failsWith_require returned_bad _).bind fun _ =>
    (failsWith_word returned_bad).bind fun _ => (failsWith_require returned_bad _).bind fun _ =>
      ((failsWith_readLimb d).times _).bind fun _ => FailsWith.pure _

/-- The transforms of the profile are there, so no read panics. -/
theorem failsWith_readBlock {lib : NumberTheory} (S : NativeSetup P) {lift : LiftContext d q}
    (hlift : LiftContext.new lib d q = .ok lift) (twoMask : Bool) :
    FailsWith Returned (readBlock lib S twoMask) :=
  (failsWith_take returned_bad _).bind fun _ => (failsWith_require returned_bad _).bind fun _ =>
    (failsWith_readPoly d q).bind fun _ => ((failsWith_readPoly d q).sectionIf _).bind fun _ =>
      (failsWith_readWords P).bind fun _ => ((failsWith_readLeftover P).sectionIf _).bind fun _ =>
        (failsWith_call fun e he => by rw [hlift] at he; cases he).bind fun _ => FailsWith.pure _

theorem failsWith_readArtefact {lib : NumberTheory} (S : NativeSetup P) {lift : LiftContext d q}
    (hlift : LiftContext.new lib d q = .ok lift) (count : ℕ) :
    FailsWith Returned (readArtefact lib S count) :=
  ((failsWith_take returned_bad _).bind fun _ =>
    FailsWith.ite (FailsWith.pure _)
      (FailsWith.ite (FailsWith.pure _) (FailsWith.throw returned_bad))).bind fun _ =>
    (failsWith_word returned_bad).bind fun _ => (failsWith_require returned_bad _).bind fun _ =>
      (failsWith_readBlock S hlift _).times count

end Errors

end Reinspiring
