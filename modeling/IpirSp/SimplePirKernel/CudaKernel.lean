import IpirSp.SimplePirKernel.Cuda

/-!
# The CUDA host

`try_prepare` uploads a database and allocates scratch memory, or refuses a shape that the grid
cannot hold; `evaluate_modulus` uploads a query, launches the two kernels and downloads the columns.
`Prepared` carries what the preparation has checked.

A prepared kernel is used again and again, and its scratch memory keeps what the last evaluation
left there.  `Reached` are the states after a preparation and any number of evaluations, and
`evaluate_exact` says that in each of them an evaluation returns the product, in whatever order
threads and blocks run.
-/

namespace SimplePirKernel.Cuda

open Inspiring Loops MachineWord

/-- `error`. -/
def error {α : Type} (e : String) : Result α := .error (.err ("CUDA: " ++ e))

/-- `Prepared`. -/
structure Prepared where
  db : List UInt16
  query : List UInt64
  partials : ℕ → ℕ
  out : ℕ → ℕ
  rows : ℕ
  cols : ℕ
  tiles : ℕ
  db_length : rows * cols = db.length
  db_fits : rows * cols < 2 ^ 64
  rows_le : rows ≤ (2 ^ 63 - 1) / 8
  cols_le : cols ≤ 2 ^ 31 - 1
  tiles_eq : tiles = divCeil rows 4096
  blocks_le : tiles * cols ≤ 2 ^ 31 - 1

/-- The checks and allocations of `try_prepare`. -/
def Prepared.new (db : List UInt16) (rows cols : ℕ) : Result Prepared :=
  if hdb : rows * cols < 2 ^ 64 ∧ rows * cols = db.length then
    if hrows : rows > (2 ^ 63 - 1) / 8 then error "query allocation size overflow"
    else if divCeil rows 4096 * cols ≥ 2 ^ 64 then error "tile count overflow"
    else if hgrid : divCeil rows 4096 * cols > 2 ^ 31 - 1 ∨ cols > 2 ^ 31 - 1 then
      error "CUDA grid is too large"
    else .ok
      { db, rows, cols
        query := List.replicate rows 0
        partials := fun _ => 0
        out := fun _ => 0
        tiles := divCeil rows 4096
        db_length := hdb.2
        db_fits := hdb.1
        rows_le := not_lt.mp hrows
        cols_le := not_lt.mp (not_or.mp hgrid).2
        tiles_eq := rfl
        blocks_le := not_lt.mp (not_or.mp hgrid).1 }
  else error "database shape mismatch"

/-- `try_prepare`: a failed replacement does not leave the old snapshot usable. -/
def tryPrepare (_state : Option Prepared) (db : List UInt16) (rows cols : ℕ) :
    Option Prepared × Result Unit :=
  match Prepared.new db rows cols with
  | .ok S => (some S, .ok ())
  | .error e => (none, .error e)

/-- How the two launches of an evaluation run, at any grid size. -/
structure Launches where
  tile (blocks : ℕ) : TileLaunch blocks
  reduce (grid : ℕ) : ReduceLaunch grid

/-- Upload the query, launch both kernels, download the columns. -/
def Prepared.evaluate (S : Prepared) (o : Overflow) (q : ℕ) (query : List UInt64)
    (launches : Launches) : Result (Prepared × List ℕ) := do
  let partials ← checked (tileProducts o (dbAt S.db) (queryAt query) S.rows S.tiles q
    (launches.tile (S.cols * S.tiles % 2 ^ 32)) S.partials)
  let out ← checked (reduceTiles partials S.cols S.tiles q
    (launches.reduce (divCeil S.cols 256 % 2 ^ 32)) S.out)
  return ({ S with query, partials, out }, (List.range S.cols).map out)

/-- `evaluate_modulus`. -/
def evaluateModulus (o : Overflow) (state : Option Prepared) (q : ℕ) (db : List UInt16)
    (rows cols : ℕ) (query : List UInt64) (out : List ℕ) (launches : Launches) :
    Option Prepared × Result (List ℕ) :=
  if q = 0 ∨ ¬(rows * cols < 2 ^ 64 ∧ rows * cols = db.length) ∨ query.length ≠ rows ∨
      out.length ≠ cols then
    (state, error "invalid modulus or matrix/vector shape")
  else match state with
    | none => (none, error "database is not prepared")
    | some S =>
        if (S.rows, S.cols) ≠ (rows, cols) then (some S, error "prepared database shape mismatch")
        else if rows = 0 ∨ cols = 0 then (some S, .ok (List.replicate out.length 0))
        else match S.evaluate o q query launches with
          | .ok (S', columns) => (some S', .ok columns)
          | .error e => (some S, .error e)

/-- The states of a kernel after a database was uploaded, with any evaluations since. -/
inductive Reached (db : List UInt16) (rows cols : ℕ) : Option Prepared → Prop
  | prepared {old state : Option Prepared} (h : tryPrepare old db rows cols = (state, .ok ())) :
      Reached db rows cols state
  | evaluated {state : Option Prepared} (h : Reached db rows cols state) (o : Overflow) (q : ℕ)
      (db' : List UInt16) (rows' cols' : ℕ) (query : List UInt64) (out : List ℕ)
      (launches : Launches) :
      Reached db rows cols
        (evaluateModulus o state q db' rows' cols' query out launches).1

/-- **Which shapes are prepared**: those whose query can be allocated and whose grid is no larger
than the device allows. -/
theorem prepared_iff {db : List UInt16} {rows cols : ℕ} (hdb : db.length = rows * cols)
    (hfits : rows * cols < 2 ^ 64) :
    (∃ S, Prepared.new db rows cols = .ok S) ↔
      rows ≤ (2 ^ 63 - 1) / 8 ∧ divCeil rows 4096 * cols ≤ 2 ^ 31 - 1 ∧ cols ≤ 2 ^ 31 - 1 := by
  unfold Prepared.new
  rw [dif_pos ⟨hfits, hdb.symm⟩]
  constructor
  · rintro ⟨S, hS⟩
    split at hS
    · cases hS
    split at hS
    · cases hS
    split at hS
    · cases hS
    rename_i hrows _ hgrid
    exact ⟨not_lt.mp hrows, not_lt.mp (not_or.mp hgrid).1, not_lt.mp (not_or.mp hgrid).2⟩
  · rintro ⟨hrows, hblocks, hcols⟩
    rw [dif_neg (not_lt.mpr hrows), if_neg (by omega),
      dif_neg (not_or.mpr ⟨not_lt.mpr hblocks, not_lt.mpr hcols⟩)]
    exact ⟨_, rfl⟩

/-- What was uploaded. -/
theorem Prepared.new_eq_ok {db : List UInt16} {rows cols : ℕ} {S : Prepared}
    (h : Prepared.new db rows cols = .ok S) : S.db = db ∧ S.rows = rows ∧ S.cols = cols := by
  unfold Prepared.new at h
  split at h
  · split at h
    · cases h
    split at h
    · cases h
    split at h
    · cases h
    cases h
    exact ⟨rfl, rfl, rfl⟩
  · cases h

/-- **An evaluation returns the product** and keeps the database. -/
theorem Prepared.evaluate_ok (S : Prepared) (o : Overflow) {q : ℕ} (hpos : 0 < q) (hq : q < W64)
    (query : List UInt64) (launches : Launches) :
    ∃ S', S.evaluate o q query launches = .ok (S', product q S.db S.rows S.cols query) ∧
      S'.db = S.db ∧ S'.rows = S.rows ∧ S'.cols = S.cols := by
  have hrows : S.rows ≤ 2 ^ 61 := S.rows_le.trans (by decide)
  have hcols : S.cols ≤ 2 ^ 61 := S.cols_le.trans (by decide)
  have htiles : ∀ tile < S.tiles, tile * 4096 < S.rows := by
    intro tile htile
    rw [S.tiles_eq, divCeil] at htile
    omega
  have hcover : S.rows ≤ S.tiles * 4096 := by
    rw [S.tiles_eq, divCeil]
    omega
  have hblocks : S.cols * S.tiles % 2 ^ 32 = S.cols * S.tiles := by
    refine Nat.mod_eq_of_lt ?_
    rw [mul_comm]
    exact S.blocks_le.trans_lt (by decide)
  have hgrid : divCeil S.cols 256 % 2 ^ 32 = divCeil S.cols 256 := by
    refine Nat.mod_eq_of_lt ?_
    have hle := S.cols_le
    unfold divCeil
    omega
  obtain ⟨partials, hpartials, hresidues⟩ := tileProducts_ok o hrows htiles
    (dbAt_u16_le S.db) (queryAt_lt query) hpos hq hblocks
    (launches.tile (S.cols * S.tiles % 2 ^ 32)) S.partials
  have hfits : S.cols * S.tiles < W64 := by
    rw [mul_comm]
    exact S.blocks_le.trans_lt (by decide)
  obtain ⟨columns, hcolumns, hout⟩ := reduceTiles_ok hpos hq hfits hresidues hcols hgrid
    (launches.reduce (divCeil S.cols 256 % 2 ^ 32)) S.out
  refine ⟨{ S with query, partials, out := columns }, ?_, rfl, rfl, rfl⟩
  have hproduct : (List.range S.cols).map columns = product q S.db S.rows S.cols query := by
    refine List.map_congr_left fun col hcol => ?_
    have hlt := List.mem_range.mp hcol
    rw [hout col hlt, sum_tileSum _ hcover, columnSum]
    refine congrArg (· % q) (Finset.sum_congr rfl fun r hr => ?_)
    have hindex : col * S.rows + r < W64 := by
      have hnext : (col + 1) * S.rows ≤ S.cols * S.rows := Nat.mul_le_mul_right _ hlt
      have hmem := Finset.mem_range.mp hr
      have hdb := S.db_fits
      rw [mul_comm] at hdb
      rw [Nat.add_mul] at hnext
      have hword : W64 = 2 ^ 64 := rfl
      omega
    rw [wordIndex_eq hindex]
  rw [Prepared.evaluate, hpartials, checked_some, ok_bind, hcolumns, checked_some,
    ok_bind, hproduct]
  rfl

/-- An evaluation keeps the database, whatever its arguments. -/
theorem Prepared.evaluate_keeps {S S' : Prepared} {o : Overflow} {q : ℕ} {query : List UInt64}
    {launches : Launches} {columns : List ℕ}
    (h : S.evaluate o q query launches = .ok (S', columns)) :
    S'.db = S.db ∧ S'.rows = S.rows ∧ S'.cols = S.cols := by
  unfold Prepared.evaluate at h
  obtain ⟨partials, -, h⟩ := bind_eq_ok h
  obtain ⟨out, -, h⟩ := bind_eq_ok h
  cases h
  exact ⟨rfl, rfl, rfl⟩

/-- **The snapshot stays** through any number of evaluations. -/
theorem Reached.holds {db : List UInt16} {rows cols : ℕ} {state : Option Prepared}
    (h : Reached db rows cols state) :
    ∃ S, state = some S ∧ S.db = db ∧ S.rows = rows ∧ S.cols = cols := by
  induction h with
  | prepared h =>
      unfold tryPrepare at h
      split at h
      · next S hS =>
        cases h
        exact ⟨S, rfl, Prepared.new_eq_ok hS⟩
      · cases h
  | evaluated _ o q db' rows' cols' query out launches ih =>
      obtain ⟨S, rfl, hdb, hrows, hcols⟩ := ih
      unfold evaluateModulus
      split
      · exact ⟨S, rfl, hdb, hrows, hcols⟩
      · dsimp only
        split
        · exact ⟨S, rfl, hdb, hrows, hcols⟩
        split
        · exact ⟨S, rfl, hdb, hrows, hcols⟩
        split
        · next S' columns hrun =>
          obtain ⟨hdb', hrows', hcols'⟩ := Prepared.evaluate_keeps hrun
          exact ⟨S', rfl, hdb'.trans hdb, hrows'.trans hrows, hcols'.trans hcols⟩
        · exact ⟨S, rfl, hdb, hrows, hcols⟩

/-- A product without rows or columns. -/
theorem product_empty {T : Type} [ToU64 T] (q : ℕ) (db : List T) {rows cols : ℕ}
    (query : List UInt64) (hempty : rows = 0 ∨ cols = 0) :
    product q db rows cols query = List.replicate cols 0 := by
  unfold product columnSum
  rcases hempty with rfl | rfl
  · simp
  · rfl

/-- **The CUDA kernels are exact.**  After any number of evaluations of an uploaded database, for
every nonzero modulus and every query, an evaluation returns the product, in whatever order threads
and blocks run; no limb sum wraps, since the same holds of additions that trap.  The threads of a
block add up every row of its tile once, the tiles cover the rows once, and 32 doublings shift. -/
theorem cuda_exact (o : Overflow) {db : List UInt16} {rows cols : ℕ} {state : Option Prepared}
    (hstate : Reached db rows cols state) {q : UInt64} (hq : q ≠ 0) {query : List UInt64}
    (hquery : query.length = rows) {out : List ℕ} (hout : out.length = cols) (launches : Launches) :
    (evaluateModulus o state q.toNat db rows cols query out launches).2 =
        .ok (product q.toNat db rows cols query) ∧
      (∀ (f : ℕ → ℕ) (tile : ℕ), tile * 4096 < rows →
        ∑ t ∈ Finset.range 256, ((threadRows tile rows t).map f).sum = tileSum f tile rows) ∧
      (∀ f : ℕ → ℕ, ∑ tile ∈ Finset.range (divCeil rows 4096), tileSum f tile rows =
        ∑ r ∈ Finset.range rows, f r) ∧
      ∀ b, doublings q.toNat 32 (b % q.toNat) = b * 2 ^ 32 % q.toNat := by
  obtain ⟨S, rfl, rfl, rfl, rfl⟩ := hstate.holds
  have hpos : 0 < q.toNat := by
    refine Nat.pos_of_ne_zero fun hzero => hq ?_
    exact UInt64.toNat_inj.mp hzero
  have hword : q.toNat < W64 := q.toNat_lt
  have hrows : S.rows ≤ 2 ^ 61 := S.rows_le.trans (by decide)
  have hcover : S.rows ≤ divCeil S.rows 4096 * 4096 := by
    unfold divCeil
    omega
  refine ⟨?_, fun f tile htile => sum_threads hrows htile f, fun f => sum_tileSum f hcover,
    fun b => doublings_eq hword hpos b 32⟩
  have hshapes : ¬(q.toNat = 0 ∨ ¬(S.rows * S.cols < 2 ^ 64 ∧ S.rows * S.cols = S.db.length) ∨
      query.length ≠ S.rows ∨ out.length ≠ S.cols) := by
    rintro (hzero | hdb | hne | hne)
    · exact hpos.ne' hzero
    · exact hdb ⟨S.db_fits, S.db_length⟩
    · exact hne hquery
    · exact hne hout
  rw [evaluateModulus, if_neg hshapes, if_neg (not_not.mpr rfl)]
  split
  · rename_i hempty
    rw [product_empty _ _ _ hempty, hout]
  · obtain ⟨S', hrun, -⟩ := S.evaluate_ok o hpos hword query launches
    rw [hrun]

/-- Threads and blocks in their order. -/
def Launches.inOrder : Launches where
  tile blocks :=
    { order := List.range blocks
      threads := fun _ _ => List.range 256
      shared := fun _ _ => 0
      order_perm := List.Perm.refl _
      threads_perm := fun _ _ => List.Perm.refl _ }
  reduce grid := ⟨List.range grid ×ˢ List.range 256, List.Perm.refl _⟩

/-- Rows for two tiles, and a modulus above `2^63`. -/
theorem cuda_exact_tiles : ∃ state, Reached (List.replicate 4097 3) 4097 1 state ∧
    (evaluateModulus .wraps state (18446744073709551557 : UInt64).toNat (List.replicate 4097 3)
      4097 1 (List.replicate 4097 9223372036854775808) [0] Launches.inOrder).2 =
      .ok [9223372036855138363] := by
  have hlen : (List.replicate 4097 (3 : UInt16)).length = 4097 * 1 := List.length_replicate
  obtain ⟨S, hS⟩ : ∃ S, Prepared.new (List.replicate 4097 (3 : UInt16)) 4097 1 = .ok S :=
    (prepared_iff hlen (by decide)).mpr ⟨by decide, by decide, by decide⟩
  have hprepared : tryPrepare none (List.replicate 4097 3) 4097 1 = (some S, .ok ()) := by
    rw [tryPrepare, hS]
  have hreached := Reached.prepared hprepared
  refine ⟨some S, hreached, ?_⟩
  have hquery : (List.replicate 4097 (9223372036854775808 : UInt64)).length = 4097 :=
    List.length_replicate
  have hout : [0].length = 1 := rfl
  rw [(cuda_exact .wraps hreached (by decide) hquery hout Launches.inOrder).1]
  -- every term of the sum is the same
  have hterm : ∀ row ∈ Finset.range 4097,
      queryAt (List.replicate 4097 9223372036854775808) row *
        dbAt (List.replicate 4097 (3 : UInt16)) (0 * 4097 + row) = 27670116110564327424 := by
    intro row hrow
    have hlt := Finset.mem_range.mp hrow
    have hquery : queryAt (List.replicate 4097 9223372036854775808) row = 9223372036854775808 := by
      rw [queryAt, List.getD_eq_getElem?_getD, List.getElem?_replicate_of_lt hlt]
      rfl
    have hentry : dbAt (List.replicate 4097 (3 : UInt16)) (0 * 4097 + row) = 3 := by
      rw [dbAt, Nat.zero_mul, Nat.zero_add, List.getElem?_replicate_of_lt hlt]
      rfl
    rw [hquery, hentry]
  have hsum : columnSum (List.replicate 4097 (3 : UInt16)) 4097
      (List.replicate 4097 9223372036854775808) 0 4097 = 4097 * 27670116110564327424 := by
    rw [columnSum, Finset.sum_congr rfl hterm, Finset.sum_const, Finset.card_range, smul_eq_mul]
  have hmod : (4097 * 27670116110564327424 : ℕ) % (18446744073709551557 : UInt64).toNat =
      9223372036855138363 := by decide
  rw [product, List.range_one, List.map_singleton, hsum, hmod]

end SimplePirKernel.Cuda
