import IpirSp.SimplePir.Online

/-!
# The blocks of a snapshot

A snapshot has one CRS block for every `d` columns.  Preprocessing takes a block to the survivor and
the digits of its collapse, with or without the shared images of the key masks, and the online phase
packs the `d` products of the block into one ciphertext.

`buildBlocks_ok` and `packBlocks_ok` carry the single-block results over all blocks: the ciphertext
of block `i` has the phase of the products `i · d, …, i · d + d - 1`, up to the errors of the keys
on the digits of that block.
-/

namespace SimplePir

open Negacyclic SpiralRs Inspiring Loops Reinspiring

variable {P : RlweParams}

/-! ## Preprocessing -/

section Preprocessing

/-- The mask rows of a block. -/
def CrsBlock.masks (P : RlweParams) (block : CrsBlock) : Fin P.d → Poly P.d :=
  fun rowIdx coeffIdx => vecGet (block.rows.getD rowIdx []) coeffIdx

/-- A block of `d` rows of `d` residues. -/
structure CrsBlock.Square (P : RlweParams) (block : CrsBlock) : Prop where
  length : block.rows.length = P.d
  length_row : ∀ row ∈ block.rows, row.length = P.d
  masks_lt : ∀ k i, block.masks P k i < P.q

theorem CrsBlock.Square.toNtt_ok {block : CrsBlock} (h : block.Square P) :
    block.toNtt P = .ok (crsOfRows P (block.masks P)) := by
  have hrows : ¬(block.rows.any fun row => row.length ≠ P.d) = true := by
    rw [List.any_eq_true]
    rintro ⟨row, hrow, hne⟩
    exact of_decide_eq_true hne (h.length_row row hrow)
  rw [CrsBlock.toNtt, if_neg (not_not.mpr h.length), if_neg hrows]
  refine congrArg (fun masks => Except.ok (crsOfRows P masks)) (funext fun k => funext fun i => ?_)
  exact Nat.mod_eq_of_lt (h.masks_lt k i)

/-- What preprocessing makes of a block of mask rows: survivor and digits of a collapse that starts
at the aggregates of the rows. -/
def IsTraceOf (masks : Fin P.d → Poly P.d) (pre : QueryPackPreprocessed P) : Prop :=
  ∃ aHat : ℕ → Ntt P.d P.q,
    pre = ⟨blockComponent (fixedReferenceKey P REFERENCE_W_SEED)
        (fixedReferenceKey P REFERENCE_V_SEED) aHat,
      blockDigits (fixedReferenceKey P REFERENCE_W_SEED) aHat⟩ ∧
    ∀ slot < P.d, P.spiral.ring (aHat slot) = aggRing (fun row => aTildeCoeffs P (masks row)) slot

/-- One block, without the shared images and with them. -/
theorem buildBlock_ok (hsep : ProbesSeparate P) (hfit : DigitsFit P) {block : CrsBlock}
    (h : block.Square P) {top : TopKeyImages P} (htop : TopKeyImages.build P = .ok top) :
    ∃ pre, (do
        let crs ← block.toNtt P
        QueryPackPreprocessed.build P crs) = .ok pre ∧
      (do
        let crs ← block.toNtt P
        QueryPackPreprocessed.buildWithTop P crs top) = .ok pre ∧
      IsTraceOf (block.masks P) pre := by
  obtain ⟨aHat, hpub, hring⟩ := publicBuild_eq hsep h.masks_lt
  refine ⟨_, ?_, ?_, aHat, rfl, hring⟩
  · rw [h.toNtt_ok, ok_bind, QueryPackPreprocessed.build, hpub]
    exact precomputeReferenceTrace_eq aHat hsep hfit
  · rw [h.toNtt_ok, ok_bind]
    exact buildWithTop_eq_block hfit htop hpub

/-- **All blocks are preprocessed**, and sharing the images changes none of them. -/
theorem buildBlocks_ok (hsep : ProbesSeparate P) (hfit : DigitsFit P) {blocks : List CrsBlock}
    (h : ∀ block ∈ blocks, block.Square P) {top : TopKeyImages P}
    (htop : TopKeyImages.build P = .ok top) :
    ∃ preprocessed, buildPackPreprocessedBlocks P blocks = .ok preprocessed ∧
      buildPackPreprocessedBlocksWithTop P blocks top = .ok preprocessed ∧
      List.Forall₂ (fun block pre => IsTraceOf (block.masks P) pre) blocks preprocessed := by
  have hself : List.Forall₂ (fun block block' => block = block' ∧ block.Square P) blocks blocks :=
    List.forall₂_same.mpr fun block hblock => ⟨rfl, h block hblock⟩
  obtain ⟨preprocessed, hbuild, hwithTop⟩ := mapM_agree (hself.imp fun block block' hrel => by
    obtain ⟨rfl, hsquare⟩ := hrel
    obtain ⟨pre, hpre, hpre', -⟩ := buildBlock_ok hsep hfit hsquare htop
    exact ⟨pre, hpre, hpre'⟩)
  refine ⟨preprocessed, hbuild, hwithTop,
    forall₂_join hself (forall₂_of_mapM_eq_ok hbuild) fun block block' pre hrel hrun => ?_⟩
  obtain ⟨rfl, hsquare⟩ := hrel
  obtain ⟨pre', hpre', -, htrace⟩ := buildBlock_ok hsep hfit hsquare htop
  obtain rfl := Except.ok.inj (hpre'.symm.trans hrun)
  exact htrace

end Preprocessing

/-! ## Packing -/

section Packing

variable {s : NegRing P.d (ZMod P.q)} {eg eh : Fin P.gadget.ell → NegRing P.d (ZMod P.q)}
  {keys : PackingKeys P} {top : TopKeyImages P}

/-- What the packing of a block returns: the survivor of its preprocessing as the first row, and the
phase of its products up to the errors of the keys. -/
structure IsPackOf (s : NegRing P.d (ZMod P.q))
    (eg eh : Fin P.gadget.ell → NegRing P.d (ZMod P.q)) (masks : Fin P.d → Poly P.d)
    (pre : QueryPackPreprocessed P) (bScalars : List ℕ) (ct : RlweCiphertext P) : Prop where
  c1 : ct.c1 = pre.collapseAFinalNtt
  phase : P.spiral.ring ct.c1 * s + P.spiral.ring ct.c2 =
    packedPhase masks (fun k => vecGet bScalars k) s + keyError eg eh pre.digitsNtt

/-- A body that has been read has the row of the body that was written. -/
theorem bodyRow_eq_of_asSlice {body body' : PolyMatrixNTT P.d P.q}
    (hshape : BodyShape body P.gadget.ell) (hshape' : BodyShape body' P.gadget.ell)
    (h : asSlice P body' = asSlice P body) : bodyRow body' = bodyRow body := by
  rw [asSlice_eq hshape, asSlice_eq hshape'] at h
  have hwords := congrArg (chunksExact P.d) h
  rw [chunksExact_flatWords P.d_pos, chunksExact_flatWords P.d_pos] at hwords
  funext k
  have hk := List.map_inj_left.mp hwords (k : ℕ) (List.mem_range.mpr k.2)
  exact Ntt.ext hk

/-- **Keys that have been read** are keys for the secret of those that were written. -/
theorem SameBodies.isFor {keys' : PackingKeys P} (h : SameBodies keys keys')
    (hkeys : keys.IsFor s eg eh) : keys'.IsFor s eg eh where
  kg_shape := h.kgShape.2
  kh_shape := h.khShape.2
  kg := by
    rw [bodyRow_eq_of_asSlice h.kgShape.1 h.kgShape.2 h.kgWords]
    exact hkeys.kg
  kh := by
    rw [bodyRow_eq_of_asSlice h.khShape.1 h.khShape.2 h.khWords]
    exact hkeys.kh

theorem validateKeys_ok (hkeys : keys.IsFor s eg eh) : keys.validate = .ok () := by
  rw [PackingKeys.validate, validateReferenceBody_ok hkeys.kg_shape, ok_bind,
    validateReferenceBody_ok hkeys.kh_shape]

/-- One block, on keys and images that have been validated. -/
theorem packBlock_ok (hq : P.q < 2 ^ 62) (hfit : DigitsFit P) (hkeys : keys.IsFor s eg eh)
    (htop : TopKeyImages.build P = .ok top) {masks : Fin P.d → Poly P.d}
    {pre : QueryPackPreprocessed P} (htrace : IsTraceOf masks pre)
    (workers : Scheduler (CollapseTerm P)) {bScalars : List ℕ} (hb : bScalars.length = P.d) :
    ∃ ct, pre.packBPrevalidated workers bScalars keys top = .ok ct ∧
      IsPackOf s eg eh masks pre bScalars ct := by
  obtain ⟨hsep, hvalid, -⟩ := topImages_fields htop
  obtain ⟨top', htop', -, hleft, hright⟩ := topImages_build hsep
  obtain rfl := Except.ok.inj (htop'.symm.trans htop)
  obtain ⟨aHat, rfl, hring⟩ := htrace
  obtain ⟨c2, hpack, hc2⟩ := packB_eq hq (fixedReferenceKey P REFERENCE_W_SEED)
    (fixedReferenceKey P REFERENCE_V_SEED) aHat workers hb hkeys.kg_shape hkeys.kh_shape
      hvalid hleft
    hright
  rw [QueryPackPreprocessed.packB, validateKeys_ok hkeys, ok_bind, hvalid, ok_bind] at hpack
  have hkg := hkeys.kg
  have hkh := hkeys.kh
  rw [← neg_neg (maskRow P _), ← ringVec_fixedReferenceKey_top] at hkg hkh
  have hblock := phase_block hfit hkg hkh aHat
  rw [sum_aggRing hring] at hblock
  refine ⟨_, hpack, rfl, ?_⟩
  rw [hc2, packedPhase_eq, keyError_blockDigits]
  linear_combination hblock

/-- **All blocks are packed**, each with its own products. -/
theorem packBlocks_ok (hq : P.q < 2 ^ 62) (hfit : DigitsFit P) (hkeys : keys.IsFor s eg eh)
    (htop : TopKeyImages.build P = .ok top) {blocks : List CrsBlock}
    {preprocessed : List (QueryPackPreprocessed P)}
    (hall : List.Forall₂ (fun block pre => IsTraceOf (CrsBlock.masks P block) pre) blocks
      preprocessed) (workers : ℕ → Scheduler (CollapseTerm P)) {intermediate : List ℕ}
    (hlen : intermediate.length = preprocessed.length * P.d) :
    ∃ cts, packIntermediateBlocks workers intermediate keys top preprocessed = .ok cts ∧
      cts.length = preprocessed.length ∧
      ∀ i block pre ct, blocks[i]? = some block → preprocessed[i]? = some pre → cts[i]? = some ct →
        IsPackOf s eg eh (block.masks P) pre ((intermediate.drop (i * P.d)).take P.d) ct := by
  have hchunks := chunks_exact P.d_pos hlen
  have hpiece (i : ℕ) (hi : i < preprocessed.length) :
      ((intermediate.drop (i * P.d)).take P.d).length = P.d := by
    have hroom := Nat.mul_le_mul_right P.d (Nat.succ_le_of_lt hi)
    rw [← hlen, Nat.succ_mul] at hroom
    rw [List.length_take, List.length_drop]
    omega
  have hone (i : Fin preprocessed.length) : ∃ ct,
      preprocessed[i].packBPrevalidated (workers i) ((intermediate.drop (i * P.d)).take P.d) keys
          top = .ok ct ∧
        IsPackOf s eg eh ((blocks.get (i.cast hall.length_eq.symm)).masks P) preprocessed[i]
          ((intermediate.drop (i * P.d)).take P.d) ct :=
    packBlock_ok hq hfit hkeys htop (hall.get (i.cast hall.length_eq.symm).2 i.2) (workers i)
      (hpiece i i.2)
  choose out hrun hpack using hone
  refine ⟨List.ofFn out, ?_, List.length_ofFn, fun i block pre ct hblock hpre hct => ?_⟩
  · rw [packIntermediateBlocks]
    split
    · next hnil =>
      subst hnil
      obtain rfl := List.length_eq_zero_iff.mp (hlen.trans (Nat.zero_mul _))
      rfl
    · rw [if_neg (not_not.mpr hlen), validateKeys_ok hkeys, ok_bind, (topImages_fields htop).2.1,
        ok_bind, hchunks]
      have hzip : (((List.range preprocessed.length).map fun i =>
          (intermediate.drop (i * P.d)).take P.d).zip preprocessed).length =
            preprocessed.length := by
        rw [List.length_zip, List.length_map, List.length_range, min_self]
      refine mapM_zipIdx_eq_ok (by rw [List.length_ofFn, hzip]) fun i hi hi' => ?_
      have hlt : i < preprocessed.length := by rwa [hzip] at hi
      rw [List.getElem_zip, List.getElem_map, List.getElem_range, List.getElem_ofFn]
      exact hrun ⟨i, hlt⟩
  · obtain ⟨hi, rfl⟩ := List.getElem?_eq_some_iff.mp hpre
    obtain ⟨hi', rfl⟩ := List.getElem?_eq_some_iff.mp hblock
    obtain ⟨hi'', rfl⟩ := List.getElem?_eq_some_iff.mp hct
    rw [List.getElem_ofFn]
    exact hpack ⟨i, hi⟩

end Packing

end SimplePir
