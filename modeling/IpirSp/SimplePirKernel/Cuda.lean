import IpirSp.MachineWord.Wrapping
import IpirSp.SimplePirKernel.Backend
import IpirSp.Simt.Phase

/-!
# The CUDA kernels

`tile_products` gives each tile of 4096 rows of a column to a block of 256 threads.  A thread adds
up every 256-th row of the tile, the limbs of the query apart; a tree of barriers adds the threads'
sums; the first thread reduces, shifts the high sum by 32 doublings, and stores one residue.
`reduce_tiles` adds the residues of a column.

`tileBlock_ok` and `reduce_ok` hold for every order in which threads and blocks run, for every
content of shared memory at the start of a block, and whatever additions of limb sums do on
overflow.  Indices are words; they are exact since a row count stays far below `2^64`.
-/

namespace SimplePirKernel.Cuda

open Loops MachineWord Simt

/-- `add_mod`. -/
def addMod (a b q : ℕ) : ℕ :=
  if a ≥ wrappingSub q b then wrappingSub a (wrappingSub q b) else wrappingAdd a b

/-- The two arrays of shared memory. -/
inductive Limb
  | lo
  | hi
deriving DecidableEq

/-- A cell of shared memory. -/
abbrev Cell := Limb × ℕ

/-- `index = col * rows + r`, in words. -/
def wordIndex (col rows r : ℕ) : ℕ := wrappingAdd (wrappingMul col rows) r

/-- The rows of thread `t`: `for (r = tile * 4096 + t; r < end; r += 256)`. -/
def threadRows (tile rows t : ℕ) : List ℕ :=
  let stop := min (wrappingMul (wrappingAdd tile 1) 4096) rows
  let first := wordIndex tile 4096 t
  (List.range (divCeil (stop - first) 256)).map fun k => first + 256 * k

/-- Up to the first barrier: each thread adds up its rows. -/
def loadPhase (o : Overflow) (db query : ℕ → ℕ) (rows tile col : ℕ) :
    Phase ℕ Cell ℕ := fun t _ => do
  let sums ← o.splitDot query (fun r => db (wordIndex col rows r)) (threadRows tile rows t) (0, 0)
  return [((.lo, t), sums.1), ((.hi, t), sums.2)]

/-- Up to the next barrier: `lo[t] += lo[t + stride]; hi[t] += hi[t + stride]`. -/
def foldPhase (o : Overflow) (stride : ℕ) : Phase ℕ Cell ℕ := fun t shared =>
  if t < stride then do
    let lo ← o.add 64 (shared (.lo, t)) (shared (.lo, t + stride))
    let hi ← o.add 64 (shared (.hi, t)) (shared (.hi, t + stride))
    return [((.lo, t), lo), ((.hi, t), hi)]
  else some []

/-- `for (stride = 2^k / 2; stride; stride >>= 1)`. -/
def strides : ℕ → List ℕ
  | 0 => []
  | k + 1 => 2 ^ k :: strides k

/-- `for (i = 0; i < count; ++i) b = add_mod(b, b, q)`. -/
def doublings (q count b : ℕ) : ℕ := (List.range count).foldl (fun b _ => addMod b b q) b

/-- One block of `tile_products`, with the order of its threads up to each barrier. -/
def tileBlock (o : Overflow) (db query : ℕ → ℕ) (rows tiles q : ℕ) (threads : ℕ → List ℕ)
    (shared : Cell → ℕ) (block : ℕ) : Option ℕ := do
  let tile := block % tiles
  let col := block / tiles
  let loaded ← (loadPhase o db query rows tile col).run (threads 256) shared
  let folded ← (strides 8).foldlM (fun mem stride => (foldPhase o stride).run (threads stride) mem)
    loaded
  let a := folded (.lo, 0) % q
  let b := folded (.hi, 0) % q
  return addMod a (doublings q 32 b) q

/-- How the threads and the blocks of `tile_products` run, and what blocks find in shared memory. -/
structure TileLaunch (blocks : ℕ) where
  order : List ℕ
  threads : ℕ → ℕ → List ℕ
  shared : ℕ → Cell → ℕ
  order_perm : order.Perm (List.range blocks)
  threads_perm : ∀ block stride, (threads block stride).Perm (List.range 256)

/-- `tile_products`. -/
def tileProducts (o : Overflow) (db query : ℕ → ℕ) (rows tiles q : ℕ) {blocks : ℕ}
    (launch : TileLaunch blocks) (partials : ℕ → ℕ) : Option (ℕ → ℕ) :=
  Phase.run (fun block _ => do
      let residue ← tileBlock o db query rows tiles q (launch.threads block) (launch.shared block)
        block
      return [(block, residue)])
    launch.order partials

/-- How the threads of `reduce_tiles` run. -/
structure ReduceLaunch (grid : ℕ) where
  order : List (ℕ × ℕ)
  order_perm : order.Perm (List.range grid ×ˢ List.range 256)

/-- `reduce_tiles`. -/
def reduceTiles (partials : ℕ → ℕ) (cols tiles q : ℕ) {grid : ℕ} (launch : ReduceLaunch grid)
    (out : ℕ → ℕ) : Option (ℕ → ℕ) :=
  Phase.run (fun thread _ =>
      let col := wordIndex thread.1 256 thread.2
      if col ≥ cols then some []
      else some [(col, (List.range tiles).foldl
        (fun value t => addMod value (partials (wordIndex col tiles t)) q) 0)])
    launch.order out

/-! ## Modular additions -/

/-- **The branching addition is exact**, also for a modulus above `2^63`. -/
theorem addMod_eq {a b q : ℕ} (ha : a < q) (hb : b < q) (hq : q < W64) :
    addMod a b q = (a + b) % q := by
  have hval : W64 = 18446744073709551616 := rfl
  have hsub : wrappingSub q b = q - b := by
    rw [wrappingSub, show q + (W64 - b) = q - b + W64 by omega, Nat.add_mod_right]
    exact Nat.mod_eq_of_lt (by omega)
  rw [addMod, hsub]
  split
  · rename_i hge
    have hwrap : wrappingSub a (q - b) = a - (q - b) := by
      rw [wrappingSub, show a + (W64 - (q - b)) = a - (q - b) + W64 by omega, Nat.add_mod_right]
      exact Nat.mod_eq_of_lt (by omega)
    rw [hwrap, Nat.mod_eq_sub_mod (by omega), Nat.mod_eq_of_lt (by omega)]
    omega
  · rename_i hlt
    rw [wrappingAdd, Nat.mod_eq_of_lt (by omega), Nat.mod_eq_of_lt (by omega)]

/-- **Doublings shift.** -/
theorem doublings_eq {q : ℕ} (hq : q < W64) (hpos : 0 < q) (b count : ℕ) :
    doublings q count (b % q) = b * 2 ^ count % q := by
  unfold doublings
  induction count with
  | zero => simp
  | succ count ih =>
      have hlt := Nat.mod_lt (b * 2 ^ count) hpos
      rw [List.range_succ, List.foldl_append, ih, List.foldl_cons, List.foldl_nil,
        addMod_eq hlt hlt hq, ← Nat.add_mod, pow_succ, ← mul_assoc, mul_two]

/-- Adding residues one after the other. -/
theorem foldl_addMod {q : ℕ} (hq : q < W64) (hpos : 0 < q) (f : ℕ → ℕ) (n : ℕ) :
    (List.range n).foldl (fun value t => addMod value (f t % q) q) 0 =
      (∑ t ∈ Finset.range n, f t) % q := by
  induction n with
  | zero => exact (Nat.zero_mod q).symm
  | succ n ih =>
      rw [List.range_succ, List.foldl_append, ih, List.foldl_cons, List.foldl_nil,
        addMod_eq (Nat.mod_lt _ hpos) (Nat.mod_lt _ hpos) hq, ← Nat.add_mod, Finset.sum_range_succ]

/-! ## Rows of a tile -/

/-- An index that fits a word. -/
theorem wordIndex_eq {col rows r : ℕ} (h : col * rows + r < W64) :
    wordIndex col rows r = col * rows + r := by
  rw [wordIndex, wrappingMul, wrappingAdd, Nat.mod_add_mod, Nat.mod_eq_of_lt h]

/-- The end of a tile. -/
def tileEnd (tile rows : ℕ) : ℕ := min ((tile + 1) * 4096) rows

/-- The sum over the rows of a tile. -/
def tileSum (f : ℕ → ℕ) (tile rows : ℕ) : ℕ :=
  ∑ r ∈ Finset.Ico (tile * 4096) (tileEnd tile rows), f r

/-- A limb of a query word. -/
def Limb.of : Limb → ℕ → ℕ
  | lo, w => low32 w
  | hi, w => w >>> 32

theorem Limb.of_le (l : Limb) {w : ℕ} (hw : w < 2 ^ 64) : l.of w ≤ 2 ^ 32 - 1 := by
  cases l with
  | lo => exact Nat.le_pred_of_lt (low32_lt w)
  | hi => exact Nat.le_pred_of_lt (high32_lt hw)

section Tile

variable {rows tile : ℕ} (hrows : rows ≤ 2 ^ 61) (htile : tile * 4096 < rows)

include hrows htile

/-- The rows of a thread, with exact indices. -/
theorem threadRows_eq {t : ℕ} (ht : t < 256) :
    threadRows tile rows t =
      (List.range (divCeil (tileEnd tile rows - (tile * 4096 + t)) 256)).map fun k =>
        tile * 4096 + t + 256 * k := by
  have hword : 2 ^ 62 < W64 := by decide
  have hend : (tile + 1) * 4096 < W64 := by linarith
  have hnext : tile + 1 < W64 := by linarith
  have hfirst : tile * 4096 + t < W64 := by linarith
  rw [threadRows, wordIndex_eq hfirst, wrappingMul, wrappingAdd, Nat.mod_eq_of_lt hnext,
    Nat.mod_eq_of_lt hend]
  rfl

/-- What a thread adds up, with zeros past the end of the tile. -/
theorem sum_threadRows (f : ℕ → ℕ) {t : ℕ} (ht : t < 256) :
    ((threadRows tile rows t).map f).sum =
      laneSum 256 (fun r => if r < tileEnd tile rows then f r else 0) (tile * 4096) 16
        ⟨t, ht⟩ := by
  rw [threadRows_eq hrows htile ht, List.map_map]
  have hend : tileEnd tile rows ≤ tile * 4096 + 4096 := by
    rw [tileEnd, Nat.add_mul, one_mul]
    exact min_le_left _ _
  generalize tile * 4096 = first at hend ⊢
  generalize tileEnd tile rows = stop at hend ⊢
  show ∑ k ∈ Finset.range _, f (first + t + 256 * k) =
    ∑ k ∈ Finset.range 16, if first + 256 * k + t < stop then f (first + 256 * k + t) else 0
  have hcount (k : ℕ) : k < divCeil (stop - (first + t)) 256 ↔ first + 256 * k + t < stop := by
    unfold divCeil
    omega
  have hsub : Finset.range (divCeil (stop - (first + t)) 256) ⊆ Finset.range 16 := by
    refine Finset.range_subset_range.mpr ?_
    unfold divCeil
    omega
  refine Eq.trans (Finset.sum_congr rfl fun k hk => ?_) (Finset.sum_subset hsub fun k _ hk => ?_)
  · rw [if_pos ((hcount k).mp (Finset.mem_range.mp hk)), add_right_comm]
  · exact if_neg fun hlt => hk (Finset.mem_range.mpr ((hcount k).mpr hlt))

/-- **The threads together add up every row of the tile once.** -/
theorem sum_threads (f : ℕ → ℕ) :
    ∑ t ∈ Finset.range 256, ((threadRows tile rows t).map f).sum = tileSum f tile rows := by
  have hend : tileEnd tile rows ≤ tile * 4096 + 4096 := by
    rw [tileEnd, Nat.add_mul, one_mul]
    exact min_le_left _ _
  rw [Finset.sum_range]
  simp only [sum_threadRows hrows htile f (Fin.is_lt _)]
  show ∑ t : Fin 256, laneSum 256 _ _ 16 t = _
  rw [← List.sum_ofFn, sum_laneSum, sum_map_range', ← Finset.sum_range fun j =>
      if tile * 4096 + j < tileEnd tile rows then f (tile * 4096 + j) else 0, tileSum,
    Finset.sum_Ico_eq_sum_range]
  refine Eq.symm (Eq.trans (Finset.sum_congr rfl fun j hj => ?_)
    (Finset.sum_subset (Finset.range_subset_range.mpr ?_) fun j _ hj => ?_))
  · exact (if_pos (Nat.add_lt_of_lt_sub' (Finset.mem_range.mp hj))).symm
  · exact Nat.sub_le_iff_le_add'.mpr hend
  · exact if_neg fun hlt => hj (Finset.mem_range.mpr (Nat.lt_sub_iff_add_lt'.mpr hlt))

end Tile

/-- **No limb sum of a tile wraps**: 4096 products of a limb and a 16-bit element. -/
theorem tileSum_lt {db query : ℕ → ℕ} (hdb : ∀ r, db r ≤ 65535) (hquery : ∀ r, query r < 2 ^ 64)
    (l : Limb) (tile rows : ℕ) : tileSum (fun r => l.of (query r) * db r) tile rows < 2 ^ 64 := by
  have hend : tileEnd tile rows ≤ tile * 4096 + 4096 := by
    rw [tileEnd, Nat.add_mul, one_mul]
    exact min_le_left _ _
  have hterm : ∀ r ∈ Finset.Ico (tile * 4096) (tileEnd tile rows),
      l.of (query r) * db r ≤ (2 ^ 32 - 1) * 65535 := fun r _ =>
    Nat.mul_le_mul (l.of_le (hquery r)) (hdb r)
  have hsum := Finset.sum_le_card_nsmul _ _ _ hterm
  rw [Nat.card_Ico, nsmul_eq_mul] at hsum
  have hcard : (tileEnd tile rows - tile * 4096) * ((2 ^ 32 - 1) * 65535) ≤
      4096 * ((2 ^ 32 - 1) * 65535) := Nat.mul_le_mul_right _ (by omega)
  exact (hsum.trans hcard).trans_lt (by norm_num)

/-! ## A block -/

/-- The sums of either limb in the first `count` threads. -/
def sharedSum (shared : Cell → ℕ) (l : Limb) (count : ℕ) : ℕ :=
  ∑ t ∈ Finset.range count, shared (l, t)

/-- A term of a sum is at most the sum. -/
theorem shared_le_sum (shared : Cell → ℕ) (l : Limb) {count t : ℕ} (ht : t < count) :
    shared (l, t) ≤ sharedSum shared l count :=
  Finset.single_le_sum (f := fun t => shared (l, t)) (fun _ _ => Nat.zero_le _)
    (Finset.mem_range.mpr ht)

/-- The two writes of a thread. -/
def limbWrites (value : Cell → ℕ) (t : ℕ) : List (Cell × ℕ) :=
  [((.lo, t), value (.lo, t)), ((.hi, t), value (.hi, t))]

theorem mem_limbWrites {value : Cell → ℕ} {t : ℕ} {w : Cell × ℕ} (hw : w ∈ limbWrites value t) :
    w.1.2 = t ∧ w.2 = value w.1 := by
  rcases List.mem_cons.mp hw with rfl | hw
  · exact ⟨rfl, rfl⟩
  · obtain rfl := List.mem_singleton.mp hw
    exact ⟨rfl, rfl⟩

theorem limb_mem_limbWrites (value : Cell → ℕ) (l : Limb) (t : ℕ) :
    ((l, t), value (l, t)) ∈ limbWrites value t := by
  cases l with
  | lo => exact List.mem_cons_self
  | hi => exact List.mem_cons_of_mem _ List.mem_cons_self

/-- **After the first barrier** the threads hold the limb sums of the tile. -/
theorem loadPhase_ok (o : Overflow) {db query : ℕ → ℕ} {rows tile : ℕ} (col : ℕ)
    (hrows : rows ≤ 2 ^ 61)
    (htile : tile * 4096 < rows) (hdb : ∀ r, db r ≤ 65535) (hquery : ∀ r, query r < 2 ^ 64)
    {order : List ℕ} (horder : order.Perm (List.range 256)) (shared : Cell → ℕ) :
    ∃ loaded, (loadPhase o db query rows tile col).run order shared = some loaded ∧
      ∀ l, sharedSum loaded l 256 =
        tileSum (fun r => l.of (query r) * db (wordIndex col rows r)) tile rows := by
  let value (c : Cell) : ℕ := ((threadRows tile rows c.2).map fun r =>
    c.1.of (query r) * db (wordIndex col rows r)).sum
  have htotal (l : Limb) : ∑ t ∈ Finset.range 256, value (l, t) =
      tileSum (fun r => l.of (query r) * db (wordIndex col rows r)) tile rows :=
    sum_threads hrows htile _
  have hfits (l : Limb) {t : ℕ} (ht : t < 256) : value (l, t) < 2 ^ 64 := by
    refine lt_of_le_of_lt ?_ (tileSum_lt (fun r => hdb (wordIndex col rows r)) hquery l tile rows)
    rw [← htotal l]
    exact shared_le_sum value l ht
  have hfree : (loadPhase o db query rows tile col).RaceFree (List.range 256) shared
      (limbWrites value) := by
    refine Phase.raceFree_of_const (fun t ht _ => ?_) fun t _ t' _ hne w hw w' hw' heq => ?_
    · have hlt := List.mem_range.mp ht
      unfold loadPhase
      rw [o.splitDot_ok _ _ _ (by rw [zero_add]; exact hfits .lo hlt)
        (by rw [zero_add]; exact hfits .hi hlt), zero_add, zero_add]
      rfl
    · rw [← (mem_limbWrites hw).1, ← (mem_limbWrites hw').1, heq] at hne
      exact hne rfl
  obtain ⟨loaded, hrun, hvalue, -⟩ := Phase.run_ok hfree List.nodup_range value
    (fun t _ w hw => (mem_limbWrites hw).2) horder
  refine ⟨loaded, hrun, fun l => ?_⟩
  rw [← htotal l]
  refine Finset.sum_congr rfl fun t ht => ?_
  exact hvalue t (List.mem_range.mpr (Finset.mem_range.mp ht)) _ (limb_mem_limbWrites value l t)

/-- **One step of the tree** halves the threads and keeps the sums. -/
theorem foldPhase_ok (o : Overflow) {stride : ℕ} (hstride : stride ≤ 256) {shared : Cell → ℕ}
    (hfits : ∀ l, sharedSum shared l (stride + stride) < 2 ^ 64) {order : List ℕ}
    (horder : order.Perm (List.range 256)) :
    ∃ folded, (foldPhase o stride).run order shared = some folded ∧
      ∀ l, sharedSum folded l stride = sharedSum shared l (stride + stride) := by
  let value (c : Cell) : ℕ := shared c + shared (c.1, c.2 + stride)
  let writes (t : ℕ) : List (Cell × ℕ) := if t < stride then limbWrites value t else []
  have hwrites {t : ℕ} {w : Cell × ℕ} (hw : w ∈ writes t) :
      t < stride ∧ w.1.2 = t ∧ w.2 = value w.1 := by
    by_cases ht : t < stride
    · rw [show writes t = limbWrites value t from if_pos ht] at hw
      exact ⟨ht, mem_limbWrites hw⟩
    · rw [show writes t = [] from if_neg ht] at hw
      cases hw
  have htotal (l : Limb) : ∑ t ∈ Finset.range stride, value (l, t) =
      sharedSum shared l (stride + stride) := by
    rw [sharedSum, Finset.sum_range_add, ← Finset.sum_add_distrib]
    refine Finset.sum_congr rfl fun t _ => ?_
    rw [add_comm stride t]
  have hfree : (foldPhase o stride).RaceFree (List.range 256) shared writes := by
    refine ⟨fun t _ seen hseen => ?_, fun t _ t' _ hne w hw w' hw' heq => ?_⟩
    · by_cases ht : t < stride
      · -- the cells that a thread reads are its own and those above the stride
        have hown (l : Limb) : seen (l, t) = shared (l, t) :=
          hseen _ fun t' _ hne w hw heq =>
            hne (((hwrites hw).2.1.symm.trans (congrArg Prod.snd heq)))
        have hupper (l : Limb) : seen (l, t + stride) = shared (l, t + stride) :=
          hseen _ fun t' _ _ w hw heq => by
            have hlow := (hwrites hw).1
            have hcell := (hwrites hw).2.1
            rw [heq] at hcell
            dsimp only at hcell
            omega
        have hadd (l : Limb) : o.add 64 (seen (l, t)) (seen (l, t + stride)) =
            some (value (l, t)) := by
          rw [hown, hupper]
          refine o.add_ok (lt_of_le_of_lt ?_ (hfits l))
          rw [← htotal l]
          exact shared_le_sum value l ht
        rw [foldPhase, if_pos ht, hadd .lo, Option.bind_eq_bind, Option.bind_some, hadd .hi]
        exact congrArg some (if_pos ht).symm
      · rw [foldPhase, if_neg ht]
        exact congrArg some (if_neg ht).symm
    · rw [← (hwrites hw).2.1, ← (hwrites hw').2.1, heq] at hne
      exact hne rfl
  obtain ⟨folded, hrun, hvalue, -⟩ := Phase.run_ok hfree List.nodup_range value
    (fun t _ w hw => (hwrites hw).2.2) horder
  refine ⟨folded, hrun, fun l => ?_⟩
  rw [← htotal l]
  refine Finset.sum_congr rfl fun t ht => ?_
  have hlt := Finset.mem_range.mp ht
  refine hvalue t (List.mem_range.mpr (hlt.trans_le hstride)) ((l, t), value (l, t)) ?_
  rw [show writes t = limbWrites value t from if_pos hlt]
  exact limb_mem_limbWrites value l t

/-- **The whole tree**: the first thread ends with the sums over all threads. -/
theorem strides_ok (o : Overflow) {threads : ℕ → List ℕ}
    (hthreads : ∀ stride, (threads stride).Perm (List.range 256)) (k : ℕ) (hk : k ≤ 8)
    {shared : Cell → ℕ} (hfits : ∀ l, sharedSum shared l (2 ^ k) < 2 ^ 64) :
    ∃ folded, (strides k).foldlM (fun mem stride => (foldPhase o stride).run (threads stride) mem)
        shared = some folded ∧ ∀ l, folded (l, 0) = sharedSum shared l (2 ^ k) := by
  induction k generalizing shared with
  | zero =>
      refine ⟨shared, rfl, fun l => ?_⟩
      rw [sharedSum, pow_zero, Finset.sum_range_one]
  | succ k ih =>
      have hdouble : 2 ^ (k + 1) = 2 ^ k + 2 ^ k := by rw [pow_succ, mul_two]
      have hpow : 2 ^ k ≤ 256 := (Nat.pow_le_pow_right (by decide) (by omega : k ≤ 8)).trans_eq rfl
      rw [hdouble] at hfits ⊢
      obtain ⟨next, hnext, hsum⟩ := foldPhase_ok o hpow hfits (hthreads (2 ^ k))
      obtain ⟨folded, hrun, hfolded⟩ := ih (by omega) fun l => (hsum l).trans_lt (hfits l)
      refine ⟨folded, ?_, fun l => (hfolded l).trans (hsum l)⟩
      rw [strides, List.foldlM_cons, hnext]
      exact hrun

/-- **A block stores the residue of its tile**, in whatever order its threads run. -/
theorem tileBlock_ok (o : Overflow) {db query : ℕ → ℕ} {rows tiles q : ℕ} (hrows : rows ≤ 2 ^ 61)
    (hdb : ∀ r, db r ≤ 65535) (hquery : ∀ r, query r < 2 ^ 64) (hpos : 0 < q) (hq : q < W64)
    {threads : ℕ → List ℕ} (hthreads : ∀ stride, (threads stride).Perm (List.range 256))
    (shared : Cell → ℕ) {block : ℕ} (htile : block % tiles * 4096 < rows) :
    tileBlock o db query rows tiles q threads shared block =
      some (tileSum (fun r => query r * db (wordIndex (block / tiles) rows r))
        (block % tiles) rows % q) := by
  obtain ⟨loaded, hload, hloaded⟩ :=
    loadPhase_ok o (block / tiles) hrows htile hdb hquery (hthreads 256) shared
  have hfits (l : Limb) : sharedSum loaded l (2 ^ 8) < 2 ^ 64 :=
    (hloaded l).trans_lt (tileSum_lt (fun r => hdb _) hquery l _ _)
  obtain ⟨folded, hfold, hfolded⟩ := strides_ok o hthreads 8 le_rfl hfits
  have hsum (l : Limb) := (hfolded l).trans (hloaded l)
  have hlimbs : folded (.lo, 0) + folded (.hi, 0) * 2 ^ 32 =
      tileSum (fun r => query r * db (wordIndex (block / tiles) rows r)) (block % tiles) rows := by
    rw [hsum .lo, hsum .hi, tileSum, tileSum, tileSum, Finset.sum_mul, ← Finset.sum_add_distrib]
    refine Finset.sum_congr rfl fun r _ => ?_
    conv_rhs => rw [← low32_add_high32 (query r)]
    show low32 (query r) * _ + (query r >>> 32) * _ * _ = _
    ring
  rw [tileBlock]
  dsimp only
  rw [hload, Option.bind_eq_bind, Option.bind_some, hfold, Option.bind_some,
    doublings_eq hq hpos, addMod_eq (Nat.mod_lt _ hpos) (Nat.mod_lt _ hpos) hq,
      ← Nat.add_mod, hlimbs]
  rfl

/-! ## A grid -/

/-- **The tiles cover the rows**, the last one cut at the end. -/
theorem sum_tileSum (f : ℕ → ℕ) {tiles rows : ℕ} (hcover : rows ≤ tiles * 4096) :
    ∑ tile ∈ Finset.range tiles, tileSum f tile rows = ∑ r ∈ Finset.range rows, f r := by
  have hpart (k : ℕ) : ∑ tile ∈ Finset.range k, tileSum f tile rows =
      ∑ r ∈ Finset.range (min (k * 4096) rows), f r := by
    induction k with
    | zero => simp
    | succ k ih =>
        rw [Finset.sum_range_succ, ih, tileSum, tileEnd]
        rcases le_total rows (k * 4096) with hdone | hmore
        · have hnone : min ((k + 1) * 4096) rows ≤ k * 4096 := (min_le_right _ _).trans hdone
          rw [Finset.Ico_eq_empty_of_le hnone, Finset.sum_empty, add_zero, min_eq_right hdone,
            min_eq_right (hdone.trans (Nat.mul_le_mul_right _ k.le_succ))]
        · rw [min_eq_left hmore]
          exact Finset.sum_range_add_sum_Ico _
            (le_min (Nat.mul_le_mul_right _ k.le_succ) hmore)
  rw [hpart, min_eq_right hcover]

/-- **The first kernel** stores the residue of every tile of every column, in whatever order the
blocks run. -/
theorem tileProducts_ok (o : Overflow) {db query : ℕ → ℕ} {rows cols tiles q : ℕ}
    (hrows : rows ≤ 2 ^ 61) (htiles : ∀ tile < tiles, tile * 4096 < rows)
    (hdb : ∀ r, db r ≤ 65535) (hquery : ∀ r, query r < 2 ^ 64) (hpos : 0 < q) (hq : q < W64)
    {blocks : ℕ} (hblocks : blocks = cols * tiles) (launch : TileLaunch blocks)
    (partials : ℕ → ℕ) :
    ∃ residues, tileProducts o db query rows tiles q launch partials = some residues ∧
      ∀ col < cols, ∀ tile < tiles, residues (col * tiles + tile) =
        tileSum (fun r => query r * db (wordIndex col rows r)) tile rows % q := by
  subst hblocks
  let value (block : ℕ) : ℕ :=
    tileSum (fun r => query r * db (wordIndex (block / tiles) rows r)) (block % tiles) rows % q
  have hfree : Phase.RaceFree (fun block _ => do
      let residue ← tileBlock o db query rows tiles q (launch.threads block) (launch.shared block)
        block
      return [(block, residue)])
      (List.range (cols * tiles)) partials fun block => [(block, value block)] := by
    refine Phase.raceFree_of_const (fun block hblock _ => ?_) fun b _ b' _ hne w hw w' hw' heq => ?_
    · have htile : block % tiles < tiles := by
        refine Nat.mod_lt _ (Nat.pos_of_ne_zero fun hzero => ?_)
        rw [hzero, Nat.mul_zero] at hblock
        cases hblock
      rw [tileBlock_ok o hrows hdb hquery hpos hq (launch.threads_perm block) (launch.shared block)
        (htiles _ htile)]
      rfl
    · rw [List.mem_singleton.mp hw, List.mem_singleton.mp hw'] at heq
      exact hne heq
  obtain ⟨residues, hrun, hvalue, -⟩ := Phase.run_ok hfree List.nodup_range value
    (fun block _ w hw => by rw [List.mem_singleton.mp hw]) launch.order_perm
  refine ⟨residues, hrun, fun col hcol tile htile => ?_⟩
  have hblock : col * tiles + tile < cols * tiles := by
    have hnext : (col + 1) * tiles ≤ cols * tiles := Nat.mul_le_mul_right _ hcol
    rw [Nat.add_mul] at hnext
    omega
  have hcell := hvalue (col * tiles + tile) (List.mem_range.mpr hblock) _
    (List.mem_singleton_self _)
  dsimp only [value] at hcell
  rw [hcell, flat_div htile, flat_mod htile]

section Reduce

/-- What a thread of the second kernel writes: the value of its column, if there is one. -/
def columnWrites (cols : ℕ) (value : ℕ → ℕ) (thread : ℕ × ℕ) : List (ℕ × ℕ) :=
  if thread.1 * 256 + thread.2 ≥ cols then []
  else [(thread.1 * 256 + thread.2, value (thread.1 * 256 + thread.2))]

theorem eq_of_mem_columnWrites {cols : ℕ} {value : ℕ → ℕ} {thread w : ℕ × ℕ}
    (hw : w ∈ columnWrites cols value thread) :
    w = (thread.1 * 256 + thread.2, value (thread.1 * 256 + thread.2)) := by
  unfold columnWrites at hw
  split at hw
  · cases hw
  · exact List.mem_singleton.mp hw

theorem mem_columnWrites {cols col : ℕ} (hcol : col < cols) (value : ℕ → ℕ) :
    (col, value col) ∈ columnWrites cols value (col / 256, col % 256) := by
  have hsplit : col / 256 * 256 + col % 256 = col := Nat.div_add_mod' col 256
  unfold columnWrites
  dsimp only
  rw [hsplit, if_neg (not_le.mpr hcol)]
  exact List.mem_singleton_self _

/-- The threads of the second launch. -/
theorem mem_reduceGrid {cols : ℕ} {thread : ℕ × ℕ} :
    thread ∈ List.range (divCeil cols 256) ×ˢ List.range 256 ↔
      thread.1 < divCeil cols 256 ∧ thread.2 < 256 := by
  rw [List.mem_product, List.mem_range, List.mem_range]

variable {partials : ℕ → ℕ} {cols tiles q : ℕ} {sums : ℕ → ℕ → ℕ} (hpos : 0 < q)
  (hq : q < W64) (hblocks : cols * tiles < W64)
  (hpartials : ∀ col < cols, ∀ tile < tiles, partials (col * tiles + tile) = sums col tile % q)

include hpos hq hblocks hpartials

/-- The loop of a thread adds the residues of its column. -/
theorem reduceColumn_ok {col : ℕ} (hcol : col < cols) :
    (List.range tiles).foldl
        (fun value t => addMod value (partials (wordIndex col tiles t)) q) 0 =
      (∑ tile ∈ Finset.range tiles, sums col tile) % q := by
  refine Eq.trans (List.foldl_ext _ _ _ fun acc t ht => ?_) (foldl_addMod hq hpos (sums col) tiles)
  have htile := List.mem_range.mp ht
  have hnext : (col + 1) * tiles ≤ cols * tiles := Nat.mul_le_mul_right _ hcol
  rw [Nat.add_mul] at hnext
  rw [wordIndex_eq (by omega), hpartials col hcol t htile]

/-- A thread of the second kernel. -/
theorem reduceThread_ok (hcols : cols ≤ 2 ^ 61) {thread : ℕ × ℕ}
    (hmem : thread ∈ List.range (divCeil cols 256) ×ˢ List.range 256) :
    (let col := wordIndex thread.1 256 thread.2
      if col ≥ cols then some []
      else some [(col, (List.range tiles).foldl
        (fun value t => addMod value (partials (wordIndex col tiles t)) q) 0)]) =
      some (columnWrites cols (fun col => (∑ tile ∈ Finset.range tiles, sums col tile) % q)
        thread) := by
  obtain ⟨hgrid, hlane⟩ := mem_reduceGrid.mp hmem
  have hword : 2 ^ 62 < W64 := by decide
  have hindex : thread.1 * 256 + thread.2 < W64 := by
    unfold divCeil at hgrid
    have hgrid' : thread.1 * 256 < cols := by omega
    linarith
  dsimp only
  rw [wordIndex_eq hindex, columnWrites]
  by_cases hge : thread.1 * 256 + thread.2 ≥ cols
  · rw [if_pos hge, if_pos hge]
  · rw [if_neg hge, if_neg hge,
      reduceColumn_ok hpos hq hblocks hpartials (not_le.mp hge)]

/-- **The second kernel** adds the residues of each column, in whatever order its threads run. -/
theorem reduceTiles_ok (hcols : cols ≤ 2 ^ 61) {grid : ℕ} (hgrid : grid = divCeil cols 256)
    (launch : ReduceLaunch grid) (out : ℕ → ℕ) :
    ∃ columns, reduceTiles partials cols tiles q launch out = some columns ∧
      ∀ col < cols, columns col = (∑ tile ∈ Finset.range tiles, sums col tile) % q := by
  subst hgrid
  let value (col : ℕ) : ℕ := (∑ tile ∈ Finset.range tiles, sums col tile) % q
  have hfree : Phase.RaceFree (fun (thread : ℕ × ℕ) (_ : ℕ → ℕ) =>
      let col := wordIndex thread.1 256 thread.2
      if col ≥ cols then some []
      else some [(col, (List.range tiles).foldl
        (fun value t => addMod value (partials (wordIndex col tiles t)) q) 0)])
      (List.range (divCeil cols 256) ×ˢ List.range 256) out (columnWrites cols value) := by
    refine Phase.raceFree_of_const
      (fun thread hmem _ => reduceThread_ok hpos hq hblocks hpartials hcols hmem)
      fun t ht t' ht' hne w hw w' hw' heq => ?_
    -- a column belongs to one thread
    rw [eq_of_mem_columnWrites hw, eq_of_mem_columnWrites hw'] at heq
    have hcell : t.1 * 256 + t.2 = t'.1 * 256 + t'.2 := heq
    have hlane := (mem_reduceGrid.mp ht).2
    have hlane' := (mem_reduceGrid.mp ht').2
    exact hne (Prod.ext (by omega) (by omega))
  obtain ⟨columns, hrun, hvalue, -⟩ := Phase.run_ok hfree
    (List.nodup_range.product List.nodup_range) value
    (fun thread _ w hw => by rw [eq_of_mem_columnWrites hw]) launch.order_perm
  refine ⟨columns, hrun, fun col hcol => ?_⟩
  have hmem : (col / 256, col % 256) ∈ List.range (divCeil cols 256) ×ˢ List.range 256 := by
    rw [mem_reduceGrid]
    unfold divCeil
    exact ⟨by omega, by omega⟩
  exact hvalue _ hmem _ (mem_columnWrites hcol value)

end Reduce

end SimplePirKernel.Cuda
