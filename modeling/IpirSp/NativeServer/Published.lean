import IpirSp.NativeClient.Decode
import IpirSp.NativeServer.Pack

/-!
# What a server holds and publishes

`Serves` is what both storages of a database come to: the values of its entries, the blocks that are
built from its hints and a scan that multiplies its columns.  A server publishes the masks of its
blocks at the width of the profile and answers with their bodies.
-/

namespace NativeServer

open Reinspiring SpiralRs Codec Loops MachineWord NativeClient

variable {d q : ℕ} {P : NativeParams d q} {T : Type} {lib : NumberTheory} {S : NativeServer P}
  {values : List ℕ} {setup : NativePublicSetup P}

/-! ## The database -/

/-- The entry of a database in the order of its columns. -/
def entryAt (values : List ℕ) (rows col row : ℕ) : ℕ := values.getD (col * rows + row) 0

/-- The hint of a column: its product with the public polynomials. -/
def IsHint (setup : NativePublicSetup P) (values : List ℕ) (col : ℕ) (mask : Poly d) : Prop :=
  IsDot q setup.polys ((List.range setup.polys.length).map fun k (i : Fin d) =>
    entryAt values setup.profile.rows col (k * d + i)) mask

/-- A server of a database of values. -/
structure Serves (lib : NumberTheory) (S : NativeServer P) (values : List ℕ) : Prop where
  lt : ∀ x ∈ values, x < P.p
  length_pre : S.pre.length = S.setup.profile.cols / d
  block : ∀ block (hblock : block < S.pre.length), ∃ (masks : Fin d → Poly d)
    (supportsPacked : Bool), (∀ j : Fin d, IsHint S.setup values (block * d + j) (masks j)) ∧
      NativePreprocessed.build lib supportsPacked S.setup.packing (List.ofFn masks)
        S.setup.profile.twoMask = .ok S.pre[block]
  scan : ∀ (host : Host) (lanes : Overflow) (words : List ℕ) (Q : PreparedU16Query),
    Q.Prepares q words → words.length = S.setup.profile.rows →
    NativeServer.scan host lanes S Q = .ok ((List.range S.setup.profile.cols).map fun col =>
      columnProduct q (entryAt values S.setup.profile.rows col) words)

theorem chunksExact_column {values : List ℕ} {rows cols col : ℕ} (hd : d ∣ rows)
    (hlen : values.length = rows * cols) (hcol : col < cols) :
    chunksExact d ((values.drop (col * rows)).take rows) =
      (List.range (rows / d)).map fun k (i : Fin d) => entryAt values rows col (k * d + i) := by
  have hroom : (col + 1) * rows ≤ cols * rows := Nat.mul_le_mul_right _ hcol
  rw [Nat.add_mul, one_mul, mul_comm cols] at hroom
  have hcolumn : ((values.drop (col * rows)).take rows).length = rows := by
    rw [List.length_take, List.length_drop]
    omega
  rw [chunksExact, hcolumn]
  refine List.map_congr_left fun k hk => funext fun i => ?_
  have hword : k * d + i < rows := by
    have hk' : (k + 1) * d ≤ rows / d * d :=
      Nat.mul_le_mul_right _ (List.mem_range.mp hk)
    rw [Nat.add_mul, one_mul, Nat.div_mul_cancel hd] at hk'
    have := i.2
    omega
  rw [entryAt, List.getD_eq_getElem?_getD, List.getElem?_take_of_lt hword, List.getElem?_drop,
    ← List.getD_eq_getElem?_getD]

theorem entries_lt_of_buildInternal [DatabaseEntry T] {host : Host}
    {setup : NativePublicSetup P} {records : List T} {concurrentBlocks : ℕ} {S : NativeServer P}
    (h : buildInternal lib host setup records concurrentBlocks = .ok S) :
    ∀ x ∈ records, DatabaseEntry.toU64 x < P.p := by
  unfold buildInternal at h
  dsimp only at h
  split at h; · cases h
  split at h; · cases h
  rename_i hshape
  push Not at hshape
  exact hshape.2

/-- **The hint of a column** is what the prepared polynomials make of its records. -/
theorem isHint_of_publicDot [DatabaseEntry T] {setup : NativePublicSetup P}
    (hvalid : setup.profile.Valid) {lift : LiftContext d q} {polys : PreparedPublicDot d q}
    (hbound : polys.rightBound = min (P.p - 1) (q / 2)) (hfits : polys.Fits lift setup.polys)
    {records : List T} (hlen : records.length = setup.profile.rows * setup.profile.cols)
    (hlt : ∀ x ∈ records, DatabaseEntry.toU64 x < P.p) {col : ℕ} (hcol : col < setup.profile.cols)
    {mask : Poly d} (hmask : lift.publicDot polys (chunksExact d
      (((records.drop (col * setup.profile.rows)).take setup.profile.rows).map
        DatabaseEntry.toU64)) = .ok mask) :
    IsHint setup (records.map DatabaseEntry.toU64) col mask := by
  have hpq : P.p ≤ q := (Nat.pow_le_pow_right two_pos P.pBits_lt.le).trans_eq P.q_eq.symm
  have hcolumn := chunksExact_column (d := d) hvalid.dvd_rows
    (by rw [List.length_map, hlen] : (records.map DatabaseEntry.toU64).length = _) hcol
  rw [← List.map_drop, ← List.map_take] at hcolumn
  rw [hcolumn] at hmask
  have hsmall : ∀ y ∈ (List.range (setup.profile.rows / d)).map fun k (i : Fin d) =>
      entryAt (records.map DatabaseEntry.toU64) setup.profile.rows col (k * d + i),
      ∀ i, y i < P.p := by
    intro y hy i
    obtain ⟨k, -, rfl⟩ := List.mem_map.mp hy
    refine getD_lt (Nat.two_pow_pos _) (fun x hx => ?_) _
    obtain ⟨record, hrecord, rfl⟩ := List.mem_map.mp hx
    exact hlt record hrecord
  obtain ⟨out, hout, hdot⟩ := lift.publicDot_spec hfits
    (by rw [List.length_map, List.length_range, setup.length_polys])
    (fun y hy i => (hsmall y hy i).trans_le hpq)
    (fun y hy i => by
      rw [hbound]
      exact natAbs_centered_le (hsmall y hy i) ((hsmall y hy i).trans_le hpq))
  obtain rfl := Except.ok.inj (hout.symm.trans hmask)
  rw [IsHint, setup.length_polys]
  exact hdot

/-- **The blocks of a server** are built from the hints of its columns. -/
theorem BuiltFrom.exists_masks [DatabaseEntry T] {host : Host} {records : List T}
    (hS : BuiltFrom lib host records S) (hvalid : S.setup.profile.Valid)
    (hlt : ∀ x ∈ records, DatabaseEntry.toU64 x < P.p) (block : ℕ) (hblock : block < S.pre.length) :
    ∃ (masks : Fin d → Poly d) (supportsPacked : Bool),
      (∀ j : Fin d, IsHint S.setup (records.map DatabaseEntry.toU64) (block * d + j) (masks j)) ∧
      NativePreprocessed.build lib supportsPacked S.setup.packing (List.ofFn masks)
        S.setup.profile.twoMask = .ok S.pre[block] := by
  obtain ⟨lift, polys, hlift, hpolys, hblocks⟩ := hS.blocks
  obtain ⟨polys', hpolys', hbound, hfits⟩ := preparePublicDot_setup lift hvalid
  obtain rfl : polys = polys' := Except.ok.inj (hpolys.symm.trans hpolys')
  have hlen := hblocks.length_eq
  rw [List.length_range] at hlen
  have hbuild := hblocks.get (i := block) (by rwa [List.length_range, hlen]) hblock
  simp only [List.get_eq_getElem, List.getElem_range] at hbuild
  unfold buildBlock at hbuild
  obtain ⟨masks, hmasks, hbuild⟩ := bind_eq_ok hbuild
  have hall := forall₂_of_mapM_eq_ok hmasks
  have hcount : masks.length = d := by rw [← hall.length_eq, List.length_range']
  have hofFn : masks = List.ofFn fun j : Fin d => masks.get (j.cast hcount.symm) := by
    refine List.ext_getElem (hcount.trans List.length_ofFn.symm) fun j hj hj' => ?_
    rw [List.getElem_ofFn]
    rfl
  refine ⟨fun j => masks.get (j.cast hcount.symm), host.supportsPacked, fun j => ?_, ?_⟩
  · have hmask := hall.get (i := j) (by rw [List.length_range']; exact j.2)
      (by rw [hcount]; exact j.2)
    simp only [List.get_eq_getElem, List.getElem_range', one_mul] at hmask
    have hcols : (block + 1) * d ≤ S.setup.profile.cols := by
      rw [← Nat.div_mul_cancel hvalid.dvd_cols]
      exact Nat.mul_le_mul_right _ (hlen ▸ hblock)
    rw [Nat.add_mul, one_mul] at hcols
    have hcol : block * d + j < S.setup.profile.cols := by
      have := j.2
      omega
    exact isHint_of_publicDot hvalid hbound hfits hS.length_eq hlt hcol hmask
  · rw [← hofFn]
    exact hbuild

theorem serves_of_scan [DatabaseEntry T] {host : Host} {records : List T} {S : NativeServer P}
    (hS : BuiltFrom lib host records S) (hvalid : S.setup.profile.Valid)
    (hlt : ∀ x ∈ records, DatabaseEntry.toU64 x < P.p)
    (hscan : ∀ (host : Host) (lanes : Overflow) (words : List ℕ) (Q : PreparedU16Query),
      Q.Prepares q words → words.length = S.setup.profile.rows →
      scan host lanes S Q = .ok ((List.range S.setup.profile.cols).map fun col => columnProduct q
        (entryAt (records.map DatabaseEntry.toU64) S.setup.profile.rows col) words)) :
    Serves lib S (records.map DatabaseEntry.toU64) where
  lt x hx := by
    obtain ⟨record, hrecord, rfl⟩ := List.mem_map.mp hx
    exact hlt record hrecord
  length_pre := by
    obtain ⟨lift, polys, hlift, hpolys, hblocks⟩ := hS.blocks
    rw [← hblocks.length_eq, List.length_range]
  block := hS.exists_masks hvalid hlt
  scan := hscan

theorem entryAt_map [Zero T] {toNat : T → ℕ} (hzero : toNat 0 = 0) (records : List T)
    (rows col : ℕ) : entryAt (records.map toNat) rows col = columnAt toNat records rows col := by
  funext row
  rw [entryAt, columnAt, ← hzero, List.getD_map]

/-- **A server of bytes** serves their values. -/
theorem serves_of_buildU8 {host : Host} {setup : NativePublicSetup P} {records : List UInt8}
    {concurrentBlocks : ℕ} {S : NativeServer P} (hvalid : setup.profile.Valid)
    (h : buildU8WithConcurrency lib host setup records concurrentBlocks = .ok S) :
    S.setup = setup ∧ Serves lib S (records.map UInt8.toNat) := by
  obtain ⟨rfl, hbuilt⟩ := builtFrom_of_buildU8 h
  unfold buildU8WithConcurrency at h
  split at h; · cases h
  refine ⟨rfl, serves_of_scan hbuilt hvalid (entries_lt_of_buildInternal h) ?_⟩
  intro host' lanes words Q hQ hlen
  rw [scan_u8 hvalid.rows_pos host' lanes hQ hlen hbuilt]
  refine congrArg Except.ok (List.map_congr_left fun col _ => ?_)
  rw [← entryAt_map (show UInt8.toNat 0 = 0 from rfl)]
  rfl

/-- **A server of words** serves their values. -/
theorem serves_of_build {host : Host} {setup : NativePublicSetup P} {records : List UInt16}
    {concurrentBlocks : ℕ} {S : NativeServer P} (hvalid : setup.profile.Valid)
    (h : buildWithConcurrency lib host setup records concurrentBlocks = .ok S) :
    S.setup = setup ∧ Serves lib S (records.map UInt16.toNat) := by
  obtain ⟨rfl, hbuilt⟩ := builtFrom_of_build h
  unfold buildWithConcurrency at h
  split at h; · cases h
  refine ⟨rfl, serves_of_scan hbuilt hvalid (entries_lt_of_buildInternal h) ?_⟩
  intro host' lanes words Q hQ hlen
  rw [scan_u16 hvalid.rows_pos host' lanes hQ hlen hbuilt]
  refine congrArg Except.ok (List.map_congr_left fun col _ => ?_)
  rw [← entryAt_map (show UInt16.toNat 0 = 0 from rfl)]
  rfl

/-! ## Published masks -/

/-- `other_mask().unwrap()`. -/
def otherMask (B : NativePreprocessed P) : Result (Poly d) :=
  match B.aOther with
  | some other => .ok other
  | none => .error (.panic "called `Option::unwrap()` on a `None` value")

/-- The second masks of `published`. -/
def otherMasks (S : NativeServer P) : Result (Option (List (Poly d))) :=
  if S.setup.profile.twoMask then some <$> S.pre.mapM otherMask else .ok none

/-- `expect`. -/
def expect {α : Type} (call : Result α) (msg : String) : Result α :=
  match call with
  | .ok a => .ok a
  | .error _ => .error (.panic msg)

/-- `published`. -/
def published (S : NativeServer P) : Result (NativePublished P) := do
  let others ← otherMasks S
  expect (NativePublished.fromMasks S.setup (S.pre.map (·.a)) others)
    "server preprocessing produces canonical masks for its setup"

/-- Rounding acts on every mask by itself. -/
theorem exists_roundMasks_eq_map (profile : NativeProfile P) :
    ∃ round : Poly d → Poly d, ∀ masks, roundMasks profile masks = masks.map round := by
  by_cases hwidth : profile.publishedMaskBits = 64
  · exact ⟨id, fun masks => by rw [roundMasks, if_pos hwidth, List.map_id]⟩
  · exact ⟨_, fun masks => by rw [roundMasks, if_neg hwidth]⟩

/-- The blocks of a server are blocks of its setup, all of one mode. -/
theorem Serves.builtFor (h : Serves lib S values) {B : NativePreprocessed P} (hB : B ∈ S.pre) :
    B.BuiltFor lib S.setup.packing ∧ B.aOther.isSome = S.setup.profile.twoMask := by
  obtain ⟨block, hblock, rfl⟩ := List.getElem_of_mem hB
  obtain ⟨masks, supportsPacked, -, hbuild⟩ := h.block block hblock
  exact build_builtFor hbuild

/-- **The second masks of a server** are those of its blocks. -/
theorem Serves.otherMasks_ok (h : Serves lib S values) :
    ∃ others, otherMasks S = .ok others ∧ others.isSome = S.setup.profile.twoMask ∧
      (∀ blocks ∈ others, validMasks S.setup.profile blocks) ∧
      ∀ round : Poly d → Poly d, maskFamilies ((S.pre.map (·.a)).map round)
        (others.map (List.map round)) = S.pre.map fun B => B.family.map round := by
  unfold otherMasks
  cases hmode : S.setup.profile.twoMask with
  | false =>
      refine ⟨none, if_neg Bool.false_ne_true, rfl, fun blocks hblocks => (by cases hblocks),
        fun round => ?_⟩
      rw [Option.map_none, maskFamilies, List.map_map, List.map_map]
      refine List.map_congr_left fun B hB => ?_
      have hone : B.aOther = none := by
        rw [← Option.isNone_iff_eq_none, ← Option.not_isSome, (h.builtFor hB).2, hmode]
        rfl
      rw [NativePreprocessed.family, hone]
      rfl
  | true =>
      have hother (B) (hB : B ∈ S.pre) : ∃ other, B.aOther = some other := by
        rw [← Option.isSome_iff_exists, (h.builtFor hB).2, hmode]
      have hrun : S.pre.mapM otherMask = .ok (S.pre.map fun B => B.aOther.getD fun _ => 0) := by
        refine mapM_eq_ok fun B hB => ?_
        obtain ⟨other, hother⟩ := hother B hB
        rw [otherMask, hother, Option.getD_some]
      refine ⟨some (S.pre.map fun B => B.aOther.getD fun _ => 0), ?_, rfl, fun blocks hblocks => ?_,
        fun round => ?_⟩
      · rw [if_pos rfl, hrun]
        rfl
      · obtain rfl := Option.mem_some_iff.mp hblocks
        refine ⟨by rw [List.length_map, h.length_pre], fun a ha => ?_⟩
        obtain ⟨B, hB, rfl⟩ := List.mem_map.mp ha
        obtain ⟨other, hother⟩ := hother B hB
        rw [hother, Option.getD_some]
        exact (h.builtFor hB).1.other_lt other hother
      · rw [Option.map_some, maskFamilies, List.map_map, List.map_map, List.zipWith_map,
          List.zipWith_self]
        refine List.map_congr_left fun B hB => ?_
        obtain ⟨other, hother⟩ := hother B hB
        rw [Function.comp_apply, Function.comp_apply, NativePreprocessed.family, hother]
        rfl

/-- **A server publishes** the rounded masks of its blocks. -/
theorem Serves.published_ok (h : Serves lib S values) :
    ∃ published others, NativeServer.published S = .ok published ∧
      NativePublished.fromMasks S.setup (S.pre.map (·.a)) others = .ok published ∧
      maskFamilies published.masks published.otherMasks =
        S.pre.map fun B => roundMasks S.setup.profile B.family := by
  obtain ⟨others, hothers, hmode, hvalid, hfamilies⟩ := h.otherMasks_ok
  obtain ⟨round, hround⟩ := exists_roundMasks_eq_map S.setup.profile
  have hmasks : validMasks S.setup.profile (S.pre.map (·.a)) := by
    refine ⟨by rw [List.length_map, h.length_pre], fun a ha => ?_⟩
    obtain ⟨B, hB, rfl⟩ := List.mem_map.mp ha
    exact (h.builtFor hB).1.a_lt
  have hcheck : ¬(¬validMasks S.setup.profile (S.pre.map (·.a)) ∨
      others.isSome ≠ S.setup.profile.twoMask ∨
      others.any (fun blocks => ¬validMasks S.setup.profile blocks) = true) := by
    rintro (hne | hne | hne)
    · exact hne hmasks
    · exact hne hmode
    · cases others with
      | none => cases hne
      | some blocks => exact of_decide_eq_true hne (hvalid blocks rfl)
  have hrun : NativePublished.fromMasks S.setup (S.pre.map (·.a)) others =
      .ok ⟨S.setup.id, roundMasks S.setup.profile (S.pre.map (·.a)),
        others.map (roundMasks S.setup.profile), S.setup.profile.publishedMaskBits⟩ := by
    rw [NativePublished.fromMasks, if_neg hcheck]
  refine ⟨_, others, ?_, hrun, ?_⟩
  · rw [published, hothers, ok_bind, hrun, expect]
  · dsimp only
    rw [funext hround]
    exact hfamilies round

/-! ## Answers -/

/-- The answer to a request that is bound to it. -/
def answer (prim : Primitives) (setup : NativePublicSetup P) (bytes : List UInt8)
    (bodies : List ℕ) : List UInt8 :=
  (if setup.profile.twoMask then asciiBytes "RNR2" else asciiBytes "RNR1") ++
    List.ofFn setup.id ++ List.ofFn (prim.sha256 bytes) ++
    encode (down bodies q setup.profile.responseBits) setup.profile.responseBits

/-- **A server answers** with the bodies of its blocks. -/
theorem respond_ok {prim : Primitives} {host : Host} {o lanes : Overflow} {bytes : List UInt8}
    {keys : NativeKeys d} {query products : List ℕ}
    (hparse : parseRequest o S.setup bytes = .ok (keys, query))
    (hscan : scan host lanes S (PreparedU16Query.ofWords host query q) = .ok products)
    {first : NativePreprocessed P} (hfirst : S.pre.head? = some first)
    {prepared : PreparedNativeKeys d q}
    (hprepared : first.prepareKeys keys = .ok prepared) {bodies : List (Poly d)}
    (hcount : bodies.length = S.pre.length) (hlen : products.length / d = S.pre.length)
    (hbodies : ∀ i (hi : i < S.pre.length) (hi' : i < bodies.length),
      packBody S.setup.profile.twoMask prepared S.pre[i] (fun j => products.getD (i * d + j) 0) =
        .ok bodies[i]) :
    respond prim host o lanes S bytes = .ok (answer prim S.setup bytes (flatWords bodies)) := by
  have hzip : bodies.length = (S.pre.zip (chunksExact d products)).length := by
    rw [List.length_zip, length_chunksExact, hlen, hcount, min_self]
  unfold respond
  dsimp only
  rw [hparse, ok_bind]
  dsimp only
  rw [hscan, ok_bind]
  split
  · rename_i hpre
    rw [hpre] at hfirst
    cases hfirst
  · rename_i head tail hpre
    obtain rfl : head = first := by
      rw [hpre] at hfirst
      exact Option.some.inj hfirst
    rw [hprepared, ok_bind, mapM_getElem_eq_ok hzip fun i hi hi' => ?_, ok_bind]
    · rfl
    · rw [List.getElem_zip, getElem_chunksExact]
      exact hbodies i (hcount ▸ hi') hi'

/-- **An answer is bound** to its request, and holds the rounded bodies. -/
theorem answer_spec (o : Overflow) (prim : Primitives) (hvalid : setup.profile.Valid)
    {request : NativeRequest P} (hprofile : request.profile = setup.profile)
    (hid : request.setupId = setup.id) (hquery : request.queryId = prim.sha256 request.bytes)
    {bodies : List ℕ} (hlen : bodies.length = setup.profile.cols) (hlt : ∀ x ∈ bodies, x < q) :
    request.IsBound (fieldBytes request.profile.cols request.profile.responseBits)
        (answer prim setup request.bytes bodies) ∧
      request.bodies o (answer prim setup request.bytes bodies) =
        .ok (up (down bodies q setup.profile.responseBits) q setup.profile.responseBits) := by
  have hmagic : (if setup.profile.twoMask then asciiBytes "RNR2"
      else asciiBytes "RNR1").length = 4 := by
    split <;> rfl
  have hsetup : (List.ofFn setup.id).length = 32 := List.length_ofFn
  have hhash : (List.ofFn (prim.sha256 request.bytes)).length = 32 := List.length_ofFn
  have hcols : bodies.length ≤ 2 ^ 32 := by
    rw [hlen]
    exact (Nat.le_mul_of_pos_left _ hvalid.rows_pos).trans (hvalid.size_le.trans (by norm_num))
  obtain ⟨hdecode, -⟩ := up_decode_down P o hvalid.responseBits_pos
    (hvalid.responseBits_le.trans (min_le_right _ _)) hcols hlt
  rw [hlen] at hdecode
  have hhead : ((if setup.profile.twoMask then asciiBytes "RNR2" else asciiBytes "RNR1") ++
      List.ofFn setup.id).length = 4 + 32 := by rw [List.length_append, hmagic, hsetup]
  have hbound : ((if setup.profile.twoMask then asciiBytes "RNR2" else asciiBytes "RNR1") ++
      List.ofFn setup.id ++ List.ofFn (prim.sha256 request.bytes)).length = 4 + 32 + 32 := by
    rw [List.length_append, hhead, hhash]
  refine ⟨⟨?_, ?_, ?_, ?_⟩, ?_⟩
  · rw [answer, List.length_append, hbound, length_encode, length_down, hlen, hprofile]
  · rw [answer, hprofile, List.append_assoc, List.append_assoc, List.take_left' hmagic]
  · rw [answer, hid, List.append_assoc, List.append_assoc, List.drop_left' hmagic,
      List.take_left' hsetup]
  · rw [answer, hquery, List.append_assoc, List.drop_left' hhead, List.take_left' hhash]
  · rw [NativeRequest.bodies, answer, List.drop_left' hbound, hprofile, hdecode]
    rfl

end NativeServer
