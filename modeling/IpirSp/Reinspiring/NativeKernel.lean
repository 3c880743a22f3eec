import IpirSp.Codec.BitStream
import IpirSp.MachineWord.Vector

/-!
# Low-word dot products

The products of the native kernels are dot products of machine words that wrap.  Each has an
AVX-512, an AVX2 and a portable form, chosen by what the host supports; `dispatch` is the choice and
`cast_dispatch` says that it does not matter modulo `2^64`.

Packed rows are read eight entries at a time: a permutation brings the bytes of an entry into its
lane, and three shifts cut the entry out and extend its sign.  `packedLane_eq` says that a lane
reads what `read_packed` reads.
-/

namespace Reinspiring

open Codec MachineWord

/-- The vector extensions of a host. -/
structure Host where
  avx2 : Bool
  /-- `avx512f` and `avx512dq`. -/
  avx512 : Bool
  avx512bw : Bool
  avx512vbmi : Bool
  avx512vnni : Bool

/-- `supports_packed`. -/
def Host.supportsPacked (host : Host) : Bool := host.avx512 && host.avx512bw && host.avx512vbmi

/-! ## Dot products -/

/-- Four registers of eight lanes; the terms are products of extended elements with words. -/
def dot512 (x b : ℕ → ℕ) (n : ℕ) : ℕ :=
  vectorDot 8 4 joinPairs (fun i => wrappingMul (x i) (b i)) (fun i => wrappingMul (x i) (b i)) n

/-- One register of four lanes. -/
def dot256 (x b : ℕ → ℕ) (n : ℕ) : ℕ :=
  vectorDot 4 1 (· 0) (fun i => mul64 (x i) (b i)) (fun i => wrappingMul (x i) (b i)) n

/-- The portable loop. -/
def dotScalar (x b : ℕ → ℕ) (n : ℕ) : ℕ := scalarSum (fun i => wrappingMul (x i) (b i)) 0 n

/-- The kernel that a host runs. -/
def dispatch (host : Host) (x b : ℕ → ℕ) (n : ℕ) : ℕ :=
  if host.avx512 then dot512 x b n else if host.avx2 then dot256 x b n else dotScalar x b n

/-- The words of a slice. -/
def wordAt (b : List ℕ) (i : ℕ) : ℕ := b.getD i 0

/-- `u8_dot_512`. -/
def u8Dot512 (a : List UInt8) (b : List ℕ) : ℕ :=
  dot512 (fun i => (a.getD i 0).toNat) (wordAt b) a.length

/-- `u8_dot`. -/
def u8Dot (a : List UInt8) (b : List ℕ) : ℕ :=
  dot256 (fun i => (a.getD i 0).toNat) (wordAt b) a.length

/-- `dot_u8`, on slices of equal length. -/
def dotU8 (host : Host) (a : List UInt8) (b : List ℕ) : ℕ :=
  if host.avx512 then u8Dot512 a b else if host.avx2 then u8Dot a b
  else dotScalar (fun i => (a.getD i 0).toNat) (wordAt b) a.length

/-- `u16_dot_512`. -/
def u16Dot512 (a : List UInt16) (b : List ℕ) : ℕ :=
  dot512 (fun i => (a.getD i 0).toNat) (wordAt b) a.length

/-- `u16_dot`. -/
def u16Dot (a : List UInt16) (b : List ℕ) : ℕ :=
  dot256 (fun i => (a.getD i 0).toNat) (wordAt b) a.length

/-- `dot_u16`, on slices of equal length. -/
def dotU16 (host : Host) (a : List UInt16) (b : List ℕ) : ℕ :=
  if host.avx512 then u16Dot512 a b else if host.avx2 then u16Dot a b
  else dotScalar (fun i => (a.getD i 0).toNat) (wordAt b) a.length

/-- The word of a signed element, `as i64 as u64`. -/
def signedAt (a : List ℤ) (i : ℕ) : ℕ := ofInt (a.getD i 0)

/-- `i32_dot_512`. -/
def i32Dot512 (a : List ℤ) (b : List ℕ) : ℕ := dot512 (signedAt a) (wordAt b) a.length

/-- `i32_dot`. -/
def i32Dot (a : List ℤ) (b : List ℕ) : ℕ := dot256 (signedAt a) (wordAt b) a.length

/-- `scalar_i32`. -/
def scalarI32 (a : List ℤ) (b : List ℕ) : ℕ := dotScalar (signedAt a) (wordAt b) a.length

/-- `dot_i32`, on slices of equal length. -/
def dotI32 (host : Host) (a : List ℤ) (b : List ℕ) : ℕ :=
  if host.avx512 then i32Dot512 a b else if host.avx2 then i32Dot a b else scalarI32 a b

/-- `i32_rows4_512`, one of the four rows. -/
def i32Rows4512 (a : List ℤ) (b : List ℕ) (r : ℕ) : ℕ :=
  dot512 (fun i => signedAt a (r * b.length + i)) (wordAt b) b.length

/-- `dot_i32_rows4`, one of the four rows. -/
def dotI32Rows4 (host : Host) (a : List ℤ) (b : List ℕ) (r : ℕ) : ℕ :=
  if host.avx512 then i32Rows4512 a b r
  else dotI32 host ((a.drop (r * b.length)).take b.length) b

section Dispatch

variable {x b : ℕ → ℕ} {n : ℕ} (hx : ∀ i < n, x i < W64) (hb : ∀ i < n, b i < W64)

theorem cast_dot512 (x b : ℕ → ℕ) (n : ℕ) :
    ((dot512 x b n : ℕ) : ZMod W64) = ∑ i ∈ Finset.range n, (x i : ZMod W64) * b i :=
  cast_vectorDot (isJoin_joinPairs 8) n (fun _ _ => cast_wrappingMul dvd_rfl _ _)
    fun _ _ => cast_wrappingMul dvd_rfl _ _

theorem cast_dotScalar (x b : ℕ → ℕ) (n : ℕ) :
    ((dotScalar x b n : ℕ) : ZMod W64) = ∑ i ∈ Finset.range n, (x i : ZMod W64) * b i := by
  rw [dotScalar, cast_scalarSum, Nat.Ico_zero_eq_range]
  exact Finset.sum_congr rfl fun i _ => cast_wrappingMul dvd_rfl _ _

include hx hb

theorem cast_dot256 :
    ((dot256 x b n : ℕ) : ZMod W64) = ∑ i ∈ Finset.range n, (x i : ZMod W64) * b i :=
  cast_vectorDot (isJoin_single 4) n (fun i hi => cast_mul64 (hx i hi) (hb i hi))
    fun _ _ => cast_wrappingMul dvd_rfl _ _

/-- **The kernels of all hosts agree**: each is the dot product modulo the number of words. -/
theorem cast_dispatch (host : Host) :
    ((dispatch host x b n : ℕ) : ZMod W64) = ∑ i ∈ Finset.range n, (x i : ZMod W64) * b i := by
  unfold dispatch
  split
  · exact cast_dot512 x b n
  split
  · exact cast_dot256 hx hb
  · exact cast_dotScalar x b n

end Dispatch

/-! ## Packed rows -/

/-- The eight bytes from `offset` on as a word. -/
def packedWord (data : List UInt8) (offset : ℕ) : ℕ :=
  fromLe ((List.range 8).map fun byte => data.getD (offset + byte) 0)

/-- `read_packed`, as a word. -/
def readPackedAt (bits : ℕ) (data : List UInt8) (index : ℕ) : ℤ :=
  let offset := index * bits / 8
  let shift := index * bits % 8
  readPacked bits (packedWord data offset >>> shift)

/-- The indices of the permutation: five bytes for the entry of a lane, and byte zero. -/
def packedIndex (bits lane byte : ℕ) : ℕ := if byte < 5 then lane * bits / 8 + byte else 0

/-- A lane of eight entries that start at `offset`: permute the bytes, shift the entry down, and
extend its sign by a shift up and an arithmetic shift down. -/
def packedLane (bits : ℕ) (data : List UInt8) (offset lane : ℕ) : ℤ :=
  let x := fromLe ((List.range 8).map fun byte => data.getD (offset + packedIndex bits lane byte) 0)
  let x := x >>> (lane * bits % 8)
  readPacked bits x

/-- `packed_rows_512`, one row. -/
def packedRows512 (bits groups : ℕ) (a : List UInt8) (stride : ℕ) (b : List ℕ) (r : ℕ) : ℕ :=
  vectorDot 8 groups (joinFold groups)
    (fun i => wrappingMul (ofInt (packedLane bits a (r * stride + i / 8 * bits) (i % 8)))
      (wordAt b i))
    (fun i => wrappingMul (ofInt (readPackedAt bits (a.drop (r * stride)) i)) (wordAt b i))
    b.length

/-- `dot_packed_rows`, one row. -/
def dotPackedRows (host : Host) (bits groups : ℕ) (a : List UInt8) (stride : ℕ) (b : List ℕ)
    (r : ℕ) : ℕ :=
  if host.supportsPacked then packedRows512 bits groups a stride b r
  else dotScalar (fun i => ofInt (readPackedAt bits (a.drop (r * stride)) i)) (wordAt b) b.length

/-- The bits of gathered bytes. -/
theorem testBit_gather (data : List UInt8) (index : ℕ → ℕ) {k : ℕ} (hk : k < 64) :
    (fromLe ((List.range 8).map fun byte => data.getD (index byte) 0)).testBit k =
      streamBit data (8 * index (k / 8) + k % 8) := by
  have hbyte : k / 8 < 8 := by omega
  have hdiv : (8 * index (k / 8) + k % 8) / 8 = index (k / 8) := by omega
  have hmod : (8 * index (k / 8) + k % 8) % 8 = k % 8 := by omega
  rw [testBit_fromLe, streamBit, streamBit, hdiv, hmod,
    List.getD_eq_getElem _ _ (by rwa [List.length_map, List.length_range]), List.getElem_map,
    List.getElem_range]

/-- An entry depends only on its own bits. -/
theorem readPacked_congr {bits code code' : ℕ} (hle : bits ≤ 64)
    (hbits : ∀ k < bits, code.testBit k = code'.testBit k) :
    readPacked bits code = readPacked bits code' := by
  have hmod : code % 2 ^ bits = code' % 2 ^ bits := by
    refine Nat.eq_of_testBit_eq fun k => ?_
    rw [Nat.testBit_mod_two_pow, Nat.testBit_mod_two_pow]
    by_cases hk : k < bits
    · rw [hbits k hk]
    · rw [decide_eq_false hk, Bool.false_and, Bool.false_and]
  have hword : W64 = 2 ^ bits * 2 ^ (64 - bits) := by
    rw [← pow_add, Nat.add_sub_cancel' hle]
    rfl
  rw [readPacked, readPacked, hword, Nat.mul_mod_mul_right, Nat.mul_mod_mul_right, hmod]

/-- What `read_packed` reads. -/
theorem readPackedAt_eq {bits : ℕ} (hle : bits ≤ 57) (data : List UInt8) {index code : ℕ}
    (hcode : ∀ k < bits, streamBit data (index * bits + k) = code.testBit k) :
    readPackedAt bits data index = readPacked bits code := by
  refine readPacked_congr (by omega) fun k hk => ?_
  have hshift : index * bits % 8 < 8 := Nat.mod_lt _ (by decide)
  rw [Nat.testBit_shiftRight, packedWord, testBit_gather _ _ (by omega), ← hcode k hk]
  refine congrArg (streamBit data) ?_
  omega

/-- **A lane reads what `read_packed` reads**, for the two packed widths. -/
theorem packedLane_eq {bits : ℕ} (hbits : bits = 27 ∨ bits = 28) (data : List UInt8)
    {offset lane code : ℕ}
    (hcode : ∀ k < bits, streamBit data (8 * offset + lane * bits + k) = code.testBit k) :
    packedLane bits data offset lane = readPacked bits code := by
  refine readPacked_congr (by omega) fun k hk => ?_
  have hshift : lane * bits % 8 < 8 := Nat.mod_lt _ (by decide)
  -- the entry lies in the five bytes that the permutation selects
  have hfive : (lane * bits % 8 + k) / 8 < 5 := by
    rcases hbits with rfl | rfl <;> omega
  rw [Nat.testBit_shiftRight, testBit_gather data (fun byte => offset + packedIndex bits lane byte)
    (by omega), ← hcode k hk]
  refine congrArg (streamBit data) ?_
  rw [packedIndex, if_pos hfive]
  omega

end Reinspiring
