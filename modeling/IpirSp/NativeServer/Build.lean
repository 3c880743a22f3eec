import IpirSp.NativeClient.Published
import IpirSp.NativeServer.Parse
import IpirSp.Reinspiring.NativeHosts
import IpirSp.Reinspiring.PreparedDot

/-!
# Building a server

A server keeps its database as bytes or as 16-bit words, in the order of the input or in tiles if
the host and the shape allow it, and a packing block for every `d` columns.

`BuiltFrom` is what a build leaves.  The blocks depend on the records only through their values, and
not on the host or on the number of blocks built at a time: `forall₂_sameBlock`.
-/

namespace NativeServer

open Reinspiring

/-- `NativeDatabase`. -/
inductive NativeDatabase
  | u8 (db : List UInt8)
  | u16 (db : List UInt16)

/-- `DatabaseEntry`. -/
class DatabaseEntry (T : Type) where
  toU64 : T → ℕ
  interleave : List T → ℕ → Result (List T)
  wrap : List T → NativeDatabase

instance : DatabaseEntry UInt8 where
  toU64 := UInt8.toNat
  interleave := interleaveU8Columns
  wrap := .u8

instance : DatabaseEntry UInt16 where
  toU64 := UInt16.toNat
  interleave := interleaveColumns
  wrap := .u16

end NativeServer

/-- `NativeServer`. -/
structure NativeServer {d q : ℕ} (P : Reinspiring.NativeParams d q) where
  setup : NativeClient.NativePublicSetup P
  db : NativeServer.NativeDatabase
  interleaved : Bool
  pre : List (Reinspiring.NativePreprocessed P)

namespace NativeServer

open Reinspiring SpiralRs Codec Loops MachineWord NativeClient

variable {d q : ℕ} {P : NativeParams d q} {T : Type}

/-- The packing block of the columns `block * d .. (block + 1) * d`. -/
def buildBlock [DatabaseEntry T] (lib : NumberTheory) (host : Host) (setup : NativePublicSetup P)
    (lift : LiftContext d q) (publicPolys : PreparedPublicDot d q) (db : List T) (block : ℕ) :
    Result (NativePreprocessed P) := do
  let p := setup.profile
  let masks ← (List.range' (block * d) d).mapM fun col =>
    let column := (db.drop (col * p.rows)).take p.rows
    lift.publicDot publicPolys (chunksExact d (column.map DatabaseEntry.toU64))
  NativePreprocessed.build lib host.supportsPacked setup.packing masks p.twoMask

/-- The blocks of all columns, `concurrentBlocks` at a time. -/
def buildBlocks [DatabaseEntry T] (lib : NumberTheory) (host : Host) (setup : NativePublicSetup P)
    (db : List T) (concurrentBlocks : ℕ) : Result (List (NativePreprocessed P)) := do
  let p := setup.profile
  let lift ← LiftContext.new lib d q
  let publicPolys ← lift.preparePublicDot setup.polys (min (P.p - 1) (q / 2))
  let batches ← (blockStarts (p.cols / d) concurrentBlocks).mapM fun start =>
    (blockRange (p.cols / d) concurrentBlocks start).mapM
      (buildBlock lib host setup lift publicPolys db)
  return batches.flatten

/-- The bands of the database in their tiles. -/
def interleaveDatabase [DatabaseEntry T] (db : List T) (rows : ℕ) : Result (List T) :=
  List.flatten <$> (chunks (rows * 16) db).mapM fun band => DatabaseEntry.interleave band rows

/-- `build_internal`, without the analysis. -/
def buildInternal [DatabaseEntry T] (lib : NumberTheory) (host : Host) (setup : NativePublicSetup P)
    (db : List T) (concurrentBlocks : ℕ) : Result (NativeServer P) :=
  let p := setup.profile
  if concurrentBlocks = 0 then invalidParams "zero preprocessing concurrency"
  else if db.length ≠ p.rows * p.cols ∨ ∃ x ∈ db, DatabaseEntry.toU64 x ≥ P.p then
    invalidParams "database shape or plaintext range mismatch"
  else do
    let pre ← buildBlocks lib host setup db concurrentBlocks
    let interleaved := p.rows % 4 = 0 ∧ p.cols % 16 = 0 ∧ host.supportsInterleaved
    let db ← (if interleaved then interleaveDatabase db p.rows else .ok db)
    return ⟨setup, DatabaseEntry.wrap db, interleaved, pre⟩

/-- `build_with_concurrency`. -/
def buildWithConcurrency (lib : NumberTheory) (host : Host)
    (setup : NativePublicSetup P) (db : List UInt16) (concurrentBlocks : ℕ) :
    Result (NativeServer P) :=
  if setup.profile.rows * setup.profile.cols > 2 ^ 30 then
    invalidParams "more than 2^30 entries require 8-bit storage (build_u8_*)"
  else buildInternal lib host setup db concurrentBlocks

/-- `build_u8_with_concurrency`. -/
def buildU8WithConcurrency (lib : NumberTheory) (host : Host)
    (setup : NativePublicSetup P) (db : List UInt8) (concurrentBlocks : ℕ) :
    Result (NativeServer P) :=
  if P.p > 256 then invalidParams "8-bit storage requires p <= 2^8"
  else buildInternal lib host setup db concurrentBlocks

/-- `build`. -/
def build (lib : NumberTheory) (host : Host) (setup : NativePublicSetup P)
    (db : List UInt16) : Result (NativeServer P) :=
  buildWithConcurrency lib host setup db 1

/-! ## What a build leaves -/

/-- A server that a host built from records. -/
structure BuiltFrom [DatabaseEntry T] (lib : NumberTheory) (host : Host) (records : List T)
    (S : NativeServer P) : Prop where
  length_eq : records.length = S.setup.profile.rows * S.setup.profile.cols
  blocks : ∃ lift polys, LiftContext.new lib d q = .ok lift ∧
    lift.preparePublicDot S.setup.polys (min (P.p - 1) (q / 2)) = .ok polys ∧
    List.Forall₂ (fun block B => buildBlock lib host S.setup lift polys records block = .ok B)
      (List.range (S.setup.profile.cols / d)) S.pre
  stored : ∃ db, S.db = DatabaseEntry.wrap db ∧
    if S.interleaved then S.setup.profile.rows % 4 = 0 ∧ S.setup.profile.cols % 16 = 0 ∧
      interleaveDatabase records S.setup.profile.rows = .ok db
    else db = records

/-- The batches of a traversal are the traversal. -/
theorem forall₂_flatten {α ε : Type} {f : ℕ → Except ε α} {n size : ℕ} (hsize : 0 < size)
    {batches : List (List α)}
    (h : (blockStarts n size).mapM (fun start => (blockRange n size start).mapM f) = .ok batches) :
    List.Forall₂ (fun i a => f i = .ok a) (List.range n) batches.flatten := by
  have hrange : ((blockStarts n size).map (blockRange n size)).flatten = List.range n := by
    rw [← flatten_chunks hsize (List.range n), chunks, List.length_range]
    refine congrArg List.flatten (List.map_congr_left fun start _ => ?_)
    rw [blockRange]
    refine List.ext_getElem ?_ fun i hi hi' => ?_
    · rw [List.length_take, List.length_drop, List.length_range, List.length_range']
      omega
    · simp
  have hbatches := (forall₂_of_mapM_eq_ok h).imp fun _ _ => forall₂_of_mapM_eq_ok
  rw [← hrange]
  exact List.rel_flatten (List.forall₂_map_left_iff.mpr hbatches)

theorem builtFrom_of_buildInternal [DatabaseEntry T] {lib : NumberTheory} {host : Host}
    {setup : NativePublicSetup P} {records : List T} {concurrentBlocks : ℕ} {S : NativeServer P}
    (h : buildInternal lib host setup records concurrentBlocks = .ok S) :
    S.setup = setup ∧ BuiltFrom lib host records S := by
  unfold buildInternal at h
  dsimp only at h
  split at h; · cases h
  rename_i hconcurrent
  split at h; · cases h
  rename_i hshape
  push Not at hshape
  obtain ⟨pre, hpre, h⟩ := bind_eq_ok h
  obtain ⟨db, hdb, h⟩ := bind_eq_ok h
  cases h
  refine ⟨rfl, hshape.1, ?_, db, rfl, ?_⟩
  · unfold buildBlocks at hpre
    obtain ⟨lift, hlift, hpre⟩ := bind_eq_ok hpre
    obtain ⟨polys, hpolys, hpre⟩ := bind_eq_ok hpre
    obtain ⟨batches, hbatches, hpre⟩ := bind_eq_ok hpre
    cases hpre
    exact ⟨lift, polys, hlift, hpolys, forall₂_flatten (Nat.pos_of_ne_zero hconcurrent) hbatches⟩
  · split at hdb
    · rename_i hinterleaved
      rw [if_pos (decide_eq_true hinterleaved)]
      exact ⟨hinterleaved.1, hinterleaved.2.1, hdb⟩
    · rename_i hplain
      rw [if_neg (by simpa using hplain)]
      exact (Except.ok.inj hdb).symm

/-- **What `buildWithConcurrency` leaves.** -/
theorem builtFrom_of_build {lib : NumberTheory} {host : Host} {setup : NativePublicSetup P}
    {records : List UInt16} {concurrentBlocks : ℕ} {S : NativeServer P}
    (h : buildWithConcurrency lib host setup records concurrentBlocks = .ok S) :
    S.setup = setup ∧ BuiltFrom lib host records S := by
  unfold buildWithConcurrency at h
  split at h
  · cases h
  · exact builtFrom_of_buildInternal h

/-- **What `buildU8WithConcurrency` leaves.** -/
theorem builtFrom_of_buildU8 {lib : NumberTheory} {host : Host} {setup : NativePublicSetup P}
    {records : List UInt8} {concurrentBlocks : ℕ} {S : NativeServer P}
    (h : buildU8WithConcurrency lib host setup records concurrentBlocks = .ok S) :
    S.setup = setup ∧ BuiltFrom lib host records S := by
  unfold buildU8WithConcurrency at h
  split at h
  · cases h
  · exact builtFrom_of_buildInternal h

section Blocks

variable {U : Type} [DatabaseEntry T] [DatabaseEntry U] {lib : NumberTheory} {host host' : Host}

/-- Blocks of records with the same values. -/
theorem sameBlock_of_buildBlock {setup : NativePublicSetup P} {lift : LiftContext d q}
    {polys : PreparedPublicDot d q} {records : List T} {records' : List U}
    (hvalues : records'.map DatabaseEntry.toU64 = records.map DatabaseEntry.toU64) {block : ℕ}
    {B B' : NativePreprocessed P} (h : buildBlock lib host setup lift polys records block = .ok B)
    (h' : buildBlock lib host' setup lift polys records' block = .ok B') : SameBlock B B' := by
  unfold buildBlock at h h'
  simp only [List.map_take, List.map_drop] at h h'
  rw [hvalues] at h'
  obtain ⟨masks, hmasks, h⟩ := bind_eq_ok h
  rw [hmasks, ok_bind] at h'
  exact sameBlock_of_build h h'

theorem builtFor_of_buildBlock {setup : NativePublicSetup P} {lift : LiftContext d q}
    {polys : PreparedPublicDot d q} {records : List T} {block : ℕ} {B : NativePreprocessed P}
    (h : buildBlock lib host setup lift polys records block = .ok B) :
    B.BuiltFor lib setup.packing ∧ B.aOther.isSome = setup.profile.twoMask := by
  unfold buildBlock at h
  obtain ⟨masks, -, h⟩ := bind_eq_ok h
  exact build_builtFor h

/-- **The blocks of two servers agree** if their records have the same values. -/
theorem forall₂_sameBlock {records : List T} {records' : List U} {S S' : NativeServer P}
    (hS : BuiltFrom lib host records S) (hS' : BuiltFrom lib host' records' S')
    (hsetup : S'.setup = S.setup)
    (hvalues : records'.map DatabaseEntry.toU64 = records.map DatabaseEntry.toU64) :
    List.Forall₂ (fun B B' => SameBlock B B' ∧ B.BuiltFor lib S.setup.packing) S.pre S'.pre := by
  obtain ⟨lift, polys, hlift, hpolys, hblocks⟩ := hS.blocks
  obtain ⟨lift', polys', hlift', hpolys', hblocks'⟩ := hS'.blocks
  rw [hsetup] at hpolys' hblocks'
  obtain rfl : lift = lift' := Except.ok.inj (hlift.symm.trans hlift')
  obtain rfl : polys = polys' := Except.ok.inj (hpolys.symm.trans hpolys')
  exact forall₂_join hblocks hblocks' fun _ _ _ h h' =>
    ⟨sameBlock_of_buildBlock hvalues h h', (builtFor_of_buildBlock h).1⟩

end Blocks

/-! ## Every database is built -/

section Exists

variable [DatabaseEntry T] {lib : NumberTheory} {lift : LiftContext d q}
    {setup : NativePublicSetup P}

/-- The public polynomials of a setup are prepared for the values of a database. -/
theorem preparePublicDot_setup (lift : LiftContext d q) (hvalid : setup.profile.Valid) :
    ∃ op, lift.preparePublicDot setup.polys (min (P.p - 1) (q / 2)) = .ok op ∧
      op.rightBound = min (P.p - 1) (q / 2) ∧ op.Fits lift setup.polys := by
  have hd := P.d_pos
  have hlen := setup.length_polys
  have hrows : setup.profile.rows ≤ 2 ^ 31 :=
    (Nat.le_mul_of_pos_right _ hvalid.cols_pos).trans hvalid.size_le
  have hdiv : d * (setup.profile.rows / d) = setup.profile.rows :=
    Nat.mul_div_cancel' hvalid.dvd_rows
  have hne : setup.polys ≠ [] := by
    intro hnil
    have hpos := hvalid.rows_pos
    rw [hnil, List.length_nil] at hlen
    rw [← hdiv, ← hlen, mul_zero] at hpos
    exact lt_irrefl 0 hpos
  have hquot : setup.profile.rows / d ≤ setup.profile.rows := Nat.div_le_self _ _
  have hsum : (setup.polys.map (maxAbs q)).sum ≤ setup.profile.rows / d * 2 ^ 55 := by
    have hle := List.sum_le_card_nsmul (setup.polys.map (maxAbs q)) (2 ^ 55) fun m hm => by
      obtain ⟨x, hx, rfl⟩ := List.mem_map.mp hm
      have hhalf := maxAbs_le_half (setup.polys_lt x hx)
      have hq := lift.q_le
      omega
    rwa [List.length_map, hlen, smul_eq_mul] at hle
  have hbound : min (P.p - 1) (q / 2) ≤ 2 ^ 16 := by
    have hp := hvalid.p_le
    omega
  refine lift.preparePublicDot_ok hne (by omega) setup.polys_lt (min_le_right _ _) ?_
  calc 2 * d * min (P.p - 1) (q / 2) * (setup.polys.map (maxAbs q)).sum
      ≤ 2 * d * 2 ^ 16 * (setup.profile.rows / d * 2 ^ 55) :=
        Nat.mul_le_mul (Nat.mul_le_mul_left _ hbound) hsum
    _ = 2 ^ 72 * (d * (setup.profile.rows / d)) := by ring
    _ ≤ 2 ^ 72 * 2 ^ 31 := Nat.mul_le_mul_left _ (hdiv.trans_le hrows)
    _ < lift.product := by rw [lift.product_eq]; decide

/-- A value of a database is small around zero. -/
theorem natAbs_centered_le {x p : ℕ} (hx : x < p) (hq : x < q) :
    (centered x q).natAbs ≤ min (p - 1) (q / 2) := by
  unfold centered
  split <;> omega

/-- **Every block is built.** -/
theorem exists_buildBlock (host : Host) (hlift : LiftContext.new lib d q = .ok lift)
    (hinv : lib.InvertsOdd d) (hvalid : setup.profile.Valid) {polys : PreparedPublicDot d q}
    (hbound : polys.rightBound = min (P.p - 1) (q / 2)) (hfits : polys.Fits lift setup.polys)
    {db : List T} (hlen : db.length = setup.profile.rows * setup.profile.cols)
    (hdb : ∀ x ∈ db, DatabaseEntry.toU64 x < P.p) {block : ℕ}
    (hblock : block < setup.profile.cols / d) :
    ∃ B, buildBlock lib host setup lift polys db block = .ok B := by
  have hcols : (block + 1) * d ≤ setup.profile.cols := by
    rw [← Nat.div_mul_cancel hvalid.dvd_cols]
    exact Nat.mul_le_mul_right _ hblock
  rw [Nat.add_mul, one_mul] at hcols
  have hpq : P.p ≤ q := (Nat.pow_le_pow_right two_pos P.pBits_lt.le).trans_eq P.q_eq.symm
  have hcolumn (col : ℕ) (hcol : col ∈ List.range' (block * d) d) :
      ∃ out, lift.publicDot polys (chunksExact d (((db.drop (col * setup.profile.rows)).take
        setup.profile.rows).map DatabaseEntry.toU64)) = .ok out ∧ ∀ i, out i < q := by
    rw [List.mem_range'_1] at hcol
    have hroom : (col + 1) * setup.profile.rows ≤ setup.profile.cols * setup.profile.rows :=
      Nat.mul_le_mul_right _ (by omega)
    rw [Nat.add_mul, one_mul, mul_comm setup.profile.cols] at hroom
    have hwords : ∀ x ∈ ((db.drop (col * setup.profile.rows)).take setup.profile.rows).map
        DatabaseEntry.toU64, x < P.p := by
      intro x hx
      obtain ⟨y, hy, rfl⟩ := List.mem_map.mp hx
      exact hdb y (List.mem_of_mem_drop (List.mem_of_mem_take hy))
    have hlt : ∀ a ∈ chunksExact d _, ∀ i, a i < P.p :=
      chunksExact_lt (Nat.two_pow_pos _) hwords
    obtain ⟨out, hout, hdot⟩ := lift.publicDot_spec hfits
      (by
        rw [length_chunksExact, List.length_map, List.length_take, List.length_drop,
          setup.length_polys, min_eq_left (by omega)])
      (fun y hy i => (hlt y hy i).trans_le hpq)
      (fun y hy i => by
        rw [hbound]
        exact natAbs_centered_le (hlt y hy i) ((hlt y hy i).trans_le hpq))
    exact ⟨out, hout, hdot.lt⟩
  obtain ⟨masks, hmasks⟩ := exists_mapM_eq_ok fun col hcol =>
    (hcolumn col hcol).imp fun _ hout => hout.1
  have hall := forall₂_of_mapM_eq_ok hmasks
  have hcount : masks.length = d := by rw [← hall.length_eq, List.length_range']
  have hlt (j : Fin d) : ∀ i, (masks.get (j.cast hcount.symm)) i < q := by
    have hj : (j : ℕ) < (List.range' (block * d) d).length := by
      rw [List.length_range']
      exact j.isLt
    have hmask := hall.get hj (hcount.symm ▸ j.isLt)
    obtain ⟨out, hout, hlt⟩ := hcolumn _ (List.get_mem _ ⟨j, hj⟩)
    obtain rfl := Except.ok.inj (hout.symm.trans hmask)
    exact hlt
  have hofFn : masks = List.ofFn fun j : Fin d => masks.get (j.cast hcount.symm) := by
    refine List.ext_getElem (hcount.trans List.length_ofFn.symm) fun j hj hj' => ?_
    rw [List.getElem_ofFn]
    rfl
  obtain ⟨B, hB, -⟩ := build_ok host.supportsPacked (S := setup.packing) hlift hinv _ hlt
    setup.profile.twoMask
  refine ⟨B, ?_⟩
  unfold buildBlock
  dsimp only
  rw [hmasks, ok_bind, hofFn]
  exact hB

/-- **Every canonical database of the shape is built.** -/
theorem exists_buildInternal (host : Host) (hlift : LiftContext.new lib d q = .ok lift)
    (hinv : lib.InvertsOdd d) (hvalid : setup.profile.Valid) {db : List T}
    (hlen : db.length = setup.profile.rows * setup.profile.cols)
    (hdb : ∀ x ∈ db, DatabaseEntry.toU64 x < P.p) {concurrentBlocks : ℕ}
    (hconcurrent : concurrentBlocks ≠ 0)
    (hinterleave : setup.profile.rows % 4 = 0 → setup.profile.cols % 16 = 0 →
      ∃ bands, (chunks (setup.profile.rows * 16) db).mapM
        (fun band => DatabaseEntry.interleave band setup.profile.rows) = .ok bands) :
    ∃ S, buildInternal lib host setup db concurrentBlocks = .ok S := by
  obtain ⟨polys, hpolys, hbound, hfits⟩ := preparePublicDot_setup lift hvalid
  have hshape : ¬(db.length ≠ setup.profile.rows * setup.profile.cols ∨
      ∃ x ∈ db, DatabaseEntry.toU64 x ≥ P.p) := by
    rintro (hne | ⟨x, hx, hge⟩)
    · exact hne hlen
    · exact absurd (hdb x hx) (not_lt.mpr hge)
  have hblocks : ∃ pre, buildBlocks lib host setup db concurrentBlocks = .ok pre := by
    obtain ⟨batches, hbatches⟩ := exists_mapM_eq_ok
      (l := blockStarts (setup.profile.cols / d) concurrentBlocks) fun start _ =>
        exists_mapM_eq_ok fun block hblock => exists_buildBlock host hlift hinv hvalid hbound hfits
          hlen hdb (mem_blockRange.mp hblock).2.2
    unfold buildBlocks
    rw [hlift, ok_bind, hpolys, ok_bind, hbatches]
    exact ⟨_, rfl⟩
  obtain ⟨pre, hpre⟩ := hblocks
  unfold buildInternal
  rw [if_neg hconcurrent, if_neg hshape, hpre, ok_bind]
  dsimp only
  split
  · rename_i hinterleaved
    obtain ⟨bands, hbands⟩ := hinterleave hinterleaved.1 hinterleaved.2.1
    unfold interleaveDatabase
    rw [hbands]
    exact ⟨_, rfl⟩
  · exact ⟨_, rfl⟩

end Exists

end NativeServer
