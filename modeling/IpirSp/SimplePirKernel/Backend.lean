import IpirSp.Inspiring.Params
import IpirSp.Loops.Windows
import IpirSp.MachineWord.Overflow

/-!
# First-dimension kernels

The operands of a first-dimension product are a database in column-major order and a query of
machine words; the product is one sum a column, modulo `q`.  `Operands` are the arguments whose
shapes pass the assertions that every kernel starts with and whose element maximum is one.

`reduceWindow` is how the fast kernels leave a window of rows: the two limb sums are put together
in 128 bits, reduced, and added to the column.  `maxSafeChunkRowsFor` is the longest window, and
`window_fits` says that its limb sums fit a word.
-/

namespace SimplePirKernel

open Inspiring Loops MachineWord

/-- The result of a kernel. -/
abbrev Result (α : Type) := Except (Failure String) α

/-- `ToU64`: an unsigned scalar type of the database. -/
class ToU64 (T : Type) where
  /-- `MAX_VALUE`. -/
  maxValue : ℕ
  /-- `size_of`. -/
  sizeOf : ℕ
  toU64 : T → ℕ
  toU64_le : ∀ value, toU64 value ≤ maxValue
  maxValue_lt : maxValue < 2 ^ 64

instance : ToU64 UInt8 where
  maxValue := 255
  sizeOf := 1
  toU64 := UInt8.toNat
  toU64_le value := Nat.le_of_lt_succ value.toNat_lt
  maxValue_lt := by decide

instance : ToU64 UInt16 where
  maxValue := 65535
  sizeOf := 2
  toU64 := UInt16.toNat
  toU64_le value := Nat.le_of_lt_succ value.toNat_lt
  maxValue_lt := by decide

instance : ToU64 UInt32 where
  maxValue := 4294967295
  sizeOf := 4
  toU64 := UInt32.toNat
  toU64_le value := Nat.le_of_lt_succ value.toNat_lt
  maxValue_lt := by decide

instance : ToU64 UInt64 where
  maxValue := 18446744073709551615
  sizeOf := 8
  toU64 := UInt64.toNat
  toU64_le value := Nat.le_of_lt_succ value.toNat_lt
  maxValue_lt := by decide

/-- The result of checked arithmetic. -/
def checked {α : Type} : Option α → Result α
  | some a => .ok a
  | none => .error (.panic "arithmetic overflow")

@[simp] theorem checked_some {α : Type} (a : α) : checked (some a) = .ok a := rfl

/-- `query[row]`. -/
def queryAt (query : List UInt64) (row : ℕ) : ℕ := (query.getD row 0).toNat

theorem queryAt_lt (query : List UInt64) (row : ℕ) : queryAt query row < 2 ^ 64 :=
  (query.getD row 0).toNat_lt

section Elements

variable {T : Type} [ToU64 T]

/-- `db[index].to_u64()`. -/
def dbAt (db : List T) (index : ℕ) : ℕ := (db[index]?.map ToU64.toU64).getD 0

/-- The assertions that every kernel starts with. -/
def assertShapes (db : List T) (rowsPadded cols : ℕ) (query : List UInt64) (out : List ℕ) :
    Result Unit :=
  if query.length ≠ rowsPadded then .error (.panic "query length must match rows")
  else if db.length ≠ rowsPadded * cols then .error (.panic "database shape mismatch")
  else if out.length ≠ cols then .error (.panic "output length must match cols")
  else .ok ()

/-- The sum of a column's first `rows` products. -/
def columnSum (db : List T) (rowsPadded : ℕ) (query : List UInt64) (col rows : ℕ) : ℕ :=
  ∑ row ∈ Finset.range rows, queryAt query row * dbAt db (col * rowsPadded + row)

/-- The product of a database with a query modulo `q`. -/
def product (q : ℕ) (db : List T) (rowsPadded cols : ℕ) (query : List UInt64) : List ℕ :=
  (List.range cols).map fun col => columnSum db rowsPadded query col rowsPadded % q

/-- Arguments of a kernel that pass its assertions, with a true element maximum. -/
structure Operands (T : Type) [ToU64 T] where
  db : List T
  rowsPadded : ℕ
  cols : ℕ
  query : List UInt64
  elementMax : ℕ
  /-- What the output buffer holds before the call. -/
  out : List ℕ
  query_length : query.length = rowsPadded
  db_length : db.length = rowsPadded * cols
  out_length : out.length = cols
  le_elementMax : ∀ value ∈ db, ToU64.toU64 value ≤ elementMax
  elementMax_le : elementMax ≤ ToU64.maxValue T

theorem Operands.assertShapes_ok (A : Operands T) :
    assertShapes A.db A.rowsPadded A.cols A.query A.out = .ok () := by
  rw [assertShapes, if_neg (not_not.mpr A.query_length), if_neg (not_not.mpr A.db_length),
    if_neg (not_not.mpr A.out_length)]

theorem Operands.dbAt_le (A : Operands T) (index : ℕ) : dbAt A.db index ≤ A.elementMax := by
  unfold dbAt
  rcases hget : A.db[index]? with _ | value
  · exact Nat.zero_le _
  · exact A.le_elementMax value (List.mem_of_getElem? hget)

end Elements

theorem dbAt_u16_le (db : List UInt16) (index : ℕ) : dbAt db index ≤ 65535 := by
  unfold dbAt
  rcases db[index]? with _ | value
  · exact Nat.zero_le _
  · exact ToU64.toU64_le value

/-! ## Bands -/

/-- `MIN_BAND_BYTES`. -/
def minBandBytes : ℕ := 2 ^ 21

/-- `saturating_mul` of `usize`. -/
def saturatingMul (a b : ℕ) : ℕ := min (a * b) (2 ^ 64 - 1)

/-- `div_ceil`. -/
def divCeil (a b : ℕ) : ℕ := (a + b - 1) / b

/-- `band_cols`, on a host with `threads` threads. -/
def bandCols (T : Type) [ToU64 T] (threads rowsPadded cols : ℕ) : ℕ :=
  if cols = 0 ∨ rowsPadded = 0 then 1
  else
    let colBytes := max (saturatingMul rowsPadded (ToU64.sizeOf T)) 1
    let bySize := max (divCeil minBandBytes colBytes) 1
    let byThreads := max (divCeil cols (max threads 1)) 1
    max 1 (min (min bySize byThreads) cols)

theorem bandCols_pos (T : Type) [ToU64 T] (threads rowsPadded cols : ℕ) :
    0 < bandCols T threads rowsPadded cols := by
  unfold bandCols
  split
  · exact one_pos
  · exact lt_max_of_lt_left one_pos

/-- `par_chunks` and `par_chunks_mut`. -/
def parChunks {α : Type} (size : ℕ) (l : List α) : Result (List (List α)) :=
  if size = 0 then .error (.panic "chunk_size must not be zero") else .ok (chunks size l)

/-! ## Windows -/

/-- `add_mod`. -/
def addMod (lhs rhs modulus : ℕ) : ℕ :=
  let sum := lhs + rhs
  if sum ≥ modulus then sum - modulus else sum

theorem addMod_eq {lhs rhs modulus : ℕ} (hlhs : lhs < modulus) (hrhs : rhs < modulus) :
    addMod lhs rhs modulus = (lhs + rhs) % modulus := by
  unfold addMod
  dsimp only
  split
  · rename_i hge
    rw [Nat.mod_eq_sub_mod hge, Nat.mod_eq_of_lt (by omega)]
  · rename_i hlt
    rw [Nat.mod_eq_of_lt (not_le.mp hlt)]

/-- `max_safe_chunk_rows_for`. -/
def maxSafeChunkRowsFor (elementMax : ℕ) : ℕ :=
  if elementMax = 0 then 2 ^ 64 - 1
  else
    let maxTerm := (2 ^ 32 - 1) * elementMax
    if maxTerm > 2 ^ 64 - 1 then 1 else (2 ^ 64 - 1) / maxTerm

/-- A window has at least one row. -/
theorem maxSafeChunkRowsFor_pos (elementMax : ℕ) : 0 < maxSafeChunkRowsFor elementMax := by
  unfold maxSafeChunkRowsFor
  split
  · omega
  · dsimp only
    split
    · exact one_pos
    · exact Nat.div_pos (by omega) (by omega)

/-- The end of a window: both limb sums into one word of 128 bits, reduced and added to the
column. -/
def reduceWindow (o : Overflow) (P : RlweParams) (sums : ℕ × ℕ) (outCol : ℕ) : Result ℕ := do
  let chunkSum ← checked (o.add 128 sums.1 (sums.2 <<< 32))
  let chunkReduced := P.spiral.barrettReductionU128 chunkSum
  return addMod outCol chunkReduced P.q

/-- **A window is reduced exactly.** -/
theorem reduceWindow_ok (o : Overflow) (P : RlweParams) {lo hi outCol : ℕ} (hlo : lo < 2 ^ 64)
    (hhi : hi < 2 ^ 64) (hout : outCol < P.q) :
    reduceWindow o P (lo, hi) outCol = .ok ((outCol + (lo + hi * 2 ^ 32)) % P.q) := by
  have hfits : lo + hi * 2 ^ 32 < 2 ^ 128 := by omega
  have hreduced : (lo + hi * 2 ^ 32) % P.q < P.q := Nat.mod_lt _ P.q_pos
  rw [reduceWindow, Nat.shiftLeft_eq, o.add_ok hfits, checked_some, ok_bind,
    P.spiral.barrettReductionU128_eq _ hfits]
  show Except.ok (addMod outCol ((lo + hi * 2 ^ 32) % P.q) P.q) = _
  rw [addMod_eq hout hreduced, Nat.add_mod_mod]

/-- **The limb sums of a window fit**: a window no longer than the safe one, of elements that the
maximum bounds and whose products with a limb fit. -/
theorem window_fits (x limb : ℕ → ℕ) {v : ℕ → ℕ} {rows : List ℕ} {elementMax : ℕ}
    (hlimb : ∀ r ∈ rows, limb (x r) ≤ 2 ^ 32 - 1) (hmax : ∀ r ∈ rows, v r ≤ elementMax)
    (hterm : ∀ r ∈ rows, v r ≤ 2 ^ 32 + 1)
    (hlen : rows.length ≤ maxSafeChunkRowsFor elementMax) :
    (rows.map fun r => limb (x r) * v r).sum < 2 ^ 64 := by
  unfold maxSafeChunkRowsFor at hlen
  split at hlen
  · rename_i hzero
    have hsum := sum_limb_le hlimb fun r hr => (hmax r hr).trans hzero.le
    rw [mul_zero, mul_zero] at hsum
    omega
  · rename_i hpos
    dsimp only at hlen
    split at hlen
    · -- one row, so the bound of the type decides
      have hsum := sum_limb_le hlimb hterm
      have hone : rows.length * ((2 ^ 32 - 1) * (2 ^ 32 + 1)) ≤ 1 * ((2 ^ 32 - 1) * (2 ^ 32 + 1)) :=
        Nat.mul_le_mul_right _ hlen
      omega
    · have hsum := sum_limb_le hlimb hmax
      have hroom : rows.length * ((2 ^ 32 - 1) * elementMax) ≤ 2 ^ 64 - 1 :=
        (Nat.le_div_iff_mul_le (by omega)).mp hlen
      omega

end SimplePirKernel
