import IpirSp.MachineWord.Dot
import IpirSp.MachineWord.Overflow

/-!
# Wrapping sums in vector registers

A vector kernel keeps several registers of 64-bit lanes.  Each turn of its loop adds one term to
every lane of every register; at the end the registers are added, the lanes are added to what a
scalar loop makes of the terms that do not fill a turn.  All additions wrap, so modulo `2^64` the
result is the sum of all terms, however the registers are added up: `cast_vectorDot`.

`mul64` is the low word of a product from three products of halves.
-/

namespace MachineWord

/-- `add_epi64`. -/
def addEpi64 {n : ℕ} (a b : Lanes n) : Lanes n := fun j => wrappingAdd (a j) (b j)

/-- `setzero`. -/
def zeroLanes (n : ℕ) : Lanes n := fun _ => 0

/-- One turn of a vector loop: lane `j` of register `g` takes its term of the group that starts at
`i`. -/
def vectorTurn (lanes : ℕ) (term : ℕ → ℕ) (sums : ℕ → Lanes lanes) (i : ℕ) : ℕ → Lanes lanes :=
  fun g => addEpi64 (sums g) fun j => term (i + lanes * g + j)

/-- The registers after the turns that start at `0, width, 2 * width, …`. -/
def vectorSums (lanes groups : ℕ) (term : ℕ → ℕ) (turns : ℕ) : ℕ → Lanes lanes :=
  (List.range turns).foldl (fun sums k => vectorTurn lanes term sums (k * (lanes * groups)))
    fun _ => zeroLanes lanes

/-- `words.into_iter().fold(tail, u64::wrapping_add)`. -/
def horizontal {n : ℕ} (tail : ℕ) (words : Lanes n) : ℕ := (List.ofFn words).foldl wrappingAdd tail

/-- A scalar loop over `start..stop`. -/
def scalarSum (term : ℕ → ℕ) (start stop : ℕ) : ℕ :=
  (List.range' start (stop - start)).foldl (fun s i => wrappingAdd s (term i)) 0

/-- `(s0 + s1) + (s2 + s3)`. -/
def joinPairs {lanes : ℕ} (sums : ℕ → Lanes lanes) : Lanes lanes :=
  addEpi64 (addEpi64 (sums 0) (sums 1)) (addEpi64 (sums 2) (sums 3))

/-- `sums.fold(setzero(), add)`. -/
def joinFold {lanes : ℕ} (groups : ℕ) (sums : ℕ → Lanes lanes) : Lanes lanes :=
  (List.range groups).foldl (fun sum g => addEpi64 sum (sums g)) (zeroLanes lanes)

/-- A vector kernel over `n` terms, with the terms of its loop and of its tail. -/
def vectorDot (lanes groups : ℕ) (join : (ℕ → Lanes lanes) → Lanes lanes) (term tailTerm : ℕ → ℕ)
    (n : ℕ) : ℕ :=
  let turns := n / (lanes * groups)
  let stop := turns * (lanes * groups)
  horizontal (scalarSum tailTerm stop n) (join (vectorSums lanes groups term turns))

/-- `mul64`: `low(a) * low(b) + ((high(a) * low(b) + low(a) * high(b)) << 32)`. -/
def mul64 (a b : ℕ) : ℕ :=
  let low := low32 a * low32 b
  let cross := wrappingAdd (low32 (a >>> 32) * low32 b) (low32 a * low32 (b >>> 32))
  wrappingAdd low (cross <<< 32 % W64)

/-- A join adds the registers. -/
def IsJoin (lanes groups : ℕ) (join : (ℕ → Lanes lanes) → Lanes lanes) : Prop :=
  ∀ sums j, ((join sums j : ℕ) : ZMod W64) = ∑ g ∈ Finset.range groups, (sums g j : ZMod W64)

/-- Words with the same residue modulo the number of words are the same. -/
theorem word_ext {a b : ℕ} (ha : a < W64) (hb : b < W64) (h : (a : ZMod W64) = b) : a = b := by
  have hmod := (ZMod.natCast_eq_natCast_iff' a b W64).mp h
  rwa [Nat.mod_eq_of_lt ha, Nat.mod_eq_of_lt hb] at hmod

theorem cast_addEpi64 {n : ℕ} (a b : Lanes n) (j : Fin n) :
    ((addEpi64 a b j : ℕ) : ZMod W64) = (a j : ZMod W64) + b j := cast_wrappingAdd dvd_rfl _ _

theorem isJoin_joinPairs (lanes : ℕ) : IsJoin lanes 4 joinPairs := by
  intro sums j
  rw [joinPairs, cast_addEpi64, cast_addEpi64, cast_addEpi64]
  simp only [Finset.sum_range_succ, Finset.sum_range_zero, zero_add]
  ring

theorem isJoin_joinFold (lanes groups : ℕ) : IsJoin lanes groups (joinFold groups) := by
  intro sums j
  unfold joinFold
  induction groups with
  | zero => exact Nat.cast_zero
  | succ groups ih =>
      rw [List.range_succ, List.foldl_append, List.foldl_cons, List.foldl_nil, cast_addEpi64, ih,
        Finset.sum_range_succ]

/-- A single register is its own sum. -/
theorem isJoin_single (lanes : ℕ) : IsJoin lanes 1 (· 0) := by
  intro sums j
  rw [Finset.sum_range_one]

theorem cast_foldl_wrappingAdd (terms : List ℕ) (start : ℕ) :
    ((terms.foldl wrappingAdd start : ℕ) : ZMod W64) = start + (terms.map (Nat.cast)).sum := by
  induction terms generalizing start with
  | nil => simp
  | cons t terms ih =>
      rw [List.foldl_cons, ih, cast_wrappingAdd dvd_rfl, List.map_cons, List.sum_cons, add_assoc]

theorem foldl_wrappingAdd_lt {terms : List ℕ} {start : ℕ} (hstart : start < W64) :
    terms.foldl wrappingAdd start < W64 := by
  induction terms generalizing start with
  | nil => exact hstart
  | cons t terms ih => exact ih (Nat.mod_lt _ W64_pos)

theorem scalarSum_eq (term : ℕ → ℕ) (start stop : ℕ) :
    scalarSum term start stop = ((List.range' start (stop - start)).map term).foldl wrappingAdd 0 :=
  List.foldl_map.symm

theorem scalarSum_lt (term : ℕ → ℕ) (start stop : ℕ) : scalarSum term start stop < W64 := by
  rw [scalarSum_eq]
  exact foldl_wrappingAdd_lt W64_pos

/-- The scalar loop, modulo the number of words. -/
theorem cast_scalarSum (term : ℕ → ℕ) (start stop : ℕ) :
    ((scalarSum term start stop : ℕ) : ZMod W64) =
      ∑ i ∈ Finset.Ico start stop, (term i : ZMod W64) := by
  rw [scalarSum_eq, cast_foldl_wrappingAdd, List.map_map, Nat.cast_zero, zero_add,
    List.range'_eq_map_range, List.map_map, Finset.sum_Ico_eq_sum_range]
  rfl

/-- What the lanes hold after some turns. -/
theorem cast_vectorSums (lanes groups : ℕ) (term : ℕ → ℕ) (turns g : ℕ) (j : Fin lanes) :
    ((vectorSums lanes groups term turns g j : ℕ) : ZMod W64) =
      ∑ k ∈ Finset.range turns, (term (k * (lanes * groups) + lanes * g + j) : ZMod W64) := by
  unfold vectorSums
  induction turns with
  | zero => exact Nat.cast_zero
  | succ turns ih =>
      rw [List.range_succ, List.foldl_append, List.foldl_cons, List.foldl_nil, vectorTurn,
        cast_addEpi64, ih, Finset.sum_range_succ]

/-- A sum in blocks. -/
theorem sum_range_blocks {M : Type*} [AddCommMonoid M] (f : ℕ → M) (count size : ℕ) :
    ∑ k ∈ Finset.range count, ∑ j ∈ Finset.range size, f (k * size + j) =
      ∑ i ∈ Finset.range (count * size), f i := by
  induction count with
  | zero => simp
  | succ count ih =>
      rw [Finset.sum_range_succ, ih, Nat.succ_mul, Finset.sum_range_add]

/-- **A vector kernel adds all terms**, modulo the number of words. -/
theorem cast_vectorDot {lanes groups : ℕ} {join : (ℕ → Lanes lanes) → Lanes lanes}
    (hjoin : IsJoin lanes groups join) {term tailTerm : ℕ → ℕ} (n : ℕ) {value : ℕ → ZMod W64}
    (hterm : ∀ i < n, (term i : ZMod W64) = value i)
    (htail : ∀ i < n, (tailTerm i : ZMod W64) = value i) :
    ((vectorDot lanes groups join term tailTerm n : ℕ) : ZMod W64) =
      ∑ i ∈ Finset.range n, value i := by
  have hstop : n / (lanes * groups) * (lanes * groups) ≤ n := Nat.div_mul_le_self _ _
  have hlanes : ∑ j : Fin lanes,
      ((join (vectorSums lanes groups term (n / (lanes * groups))) j : ℕ) :
      ZMod W64) = ∑ i ∈ Finset.range (n / (lanes * groups) * (lanes * groups)), value i := by
    calc ∑ j : Fin lanes, ((join (vectorSums lanes groups term (n / (lanes * groups))) j : ℕ) :
          ZMod W64)
        = ∑ j : Fin lanes, ∑ g ∈ Finset.range groups, ∑ k ∈ Finset.range (n / (lanes * groups)),
            (term (k * (lanes * groups) + lanes * g + j) : ZMod W64) := by
          refine Finset.sum_congr rfl fun j _ => ?_
          rw [hjoin]
          exact Finset.sum_congr rfl fun g _ => cast_vectorSums lanes groups term _ g j
      _ = ∑ k ∈ Finset.range (n / (lanes * groups)), ∑ g ∈ Finset.range groups,
            ∑ j ∈ Finset.range lanes,
              (term (k * (lanes * groups) + (g * lanes + j)) : ZMod W64) := by
          rw [Finset.sum_comm, Finset.sum_congr rfl fun g _ => Finset.sum_comm, Finset.sum_comm]
          refine Finset.sum_congr rfl fun k _ => Finset.sum_congr rfl fun g _ => ?_
          rw [Finset.sum_range]
          exact Finset.sum_congr rfl fun j _ => by rw [add_assoc, mul_comm lanes g]
      _ = ∑ i ∈ Finset.range (n / (lanes * groups) * (lanes * groups)), (term i : ZMod W64) := by
          rw [← sum_range_blocks]
          refine Finset.sum_congr rfl fun k _ => ?_
          rw [sum_range_blocks (fun i => (term (k * (lanes * groups) + i) : ZMod W64)) groups lanes,
            mul_comm groups]
      _ = _ := Finset.sum_congr rfl fun i hi => hterm i ((Finset.mem_range.mp hi).trans_le hstop)
  rw [vectorDot, horizontal, cast_foldl_wrappingAdd, List.map_ofFn, List.sum_ofFn, cast_scalarSum]
  show _ + ∑ j : Fin lanes, ((join _ j : ℕ) : ZMod W64) = _
  rw [hlanes, add_comm, Finset.sum_congr rfl fun i hi => htail i (Finset.mem_Ico.mp hi).2]
  exact Finset.sum_range_add_sum_Ico _ hstop

theorem vectorDot_lt (lanes groups : ℕ) (join : (ℕ → Lanes lanes) → Lanes lanes)
    (term tailTerm : ℕ → ℕ) (n : ℕ) : vectorDot lanes groups join term tailTerm n < W64 :=
  foldl_wrappingAdd_lt (scalarSum_lt _ _ _)

/-- **Three products of halves make the low word.** -/
theorem cast_mul64 {a b : ℕ} (ha : a < W64) (hb : b < W64) :
    ((mul64 a b : ℕ) : ZMod W64) = a * b := by
  have hhigh {w : ℕ} (hw : w < W64) : low32 (w >>> 32) = w >>> 32 :=
    Nat.mod_eq_of_lt (high32_lt hw)
  have hsplit (w : ℕ) : (w : ZMod W64) = low32 w + (w >>> 32 : ℕ) * 2 ^ 32 := by
    conv_lhs => rw [← low32_add_high32 w]
    push_cast
    rfl
  have hword : (2 : ZMod W64) ^ 32 * 2 ^ 32 = 0 := by
    rw [← pow_add]
    exact_mod_cast ZMod.natCast_self W64
  rw [mul64, cast_wrappingAdd dvd_rfl, cast_mod_W64 dvd_rfl, Nat.shiftLeft_eq, Nat.cast_mul,
    Nat.cast_mul, cast_wrappingAdd dvd_rfl, hhigh ha, hhigh hb, hsplit a, hsplit b]
  push_cast
  linear_combination -((a >>> 32 : ℕ) : ZMod W64) * (b >>> 32 : ℕ) * hword

end MachineWord
