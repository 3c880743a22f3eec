import IpirSp.NativeClient.Profile
import IpirSp.Reinspiring.NativeArtefact

/-!
# Prepared native artefacts

The blocks of a setup, written and read again.  The writer lists any number of blocks and the reader
refuses more than sixteen.  Both modes have sections of vectors and of words, so the sections of the
blocks of one mode can also be sections of as many blocks in the other mode, and then only the magic
string tells the modes apart.

`roundTrips_iff`: on a little-endian host the blocks of a list survive, and every strict prefix and
extension, every other setup and the magic string of the other mode are refused, exactly when there
are at most sixteen blocks and their sections are not `Ambiguous`.  They are not where the degree
does not divide `blocks * (ell + 2)` (`not_ambiguous_of_not_dvd`), so never from degree 256 on.
-/

namespace Reinspiring

open SpiralRs Inspiring Loops MachineWord Codec

variable {d q : ℕ} {P : NativeParams d q}

/-! ## Matrices -/

section Matrices

/-- A stored word is read as the signed word that was written. -/
theorem signedWord_mod (width half : ℕ) (h : 256 ^ width = 2 * half) {z : ℤ}
    (hlo : -(half : ℤ) ≤ z) (hhi : z < half) :
    signedWord width (z % (256 ^ width : ℕ)).toNat = z := fromLeInt_leInt h hlo hhi

theorem getD_data (M : PackingMatrix) {r c : ℕ} (hr : r < M.rows) (hc : c < M.cols) (f : ℕ → ℕ) :
    (M.data.map f).getD (r * M.cols + c) 0 = f (M.entry r c) := by
  have hlt : r * M.cols + c < M.rows * M.cols := by
    calc r * M.cols + c < r * M.cols + M.cols := Nat.add_lt_add_left hc _
      _ = (r + 1) * M.cols := by ring
      _ ≤ M.rows * M.cols := Nat.mul_le_mul_right _ hr
  rw [PackingMatrix.data, List.map_map, List.getD_eq_getElem?_getD, List.getElem?_map,
    List.getElem?_range hlt, Option.map_some, Option.getD_some, Function.comp_apply,
    flat_div hc, flat_mod hc]

theorem length_data (M : PackingMatrix) : M.data.length = M.rows * M.cols := by
  rw [PackingMatrix.data, List.length_map, List.length_range]

/-- A compiled entry is canonical. -/
theorem entry_toCompiled_lt (M : NativeMatrix) (r c : ℕ) : M.toCompiled.entry r c < M.q := by
  exact toNat_emod_lt M.q_pos _

theorem mem_data_lt (M : NativeMatrix) : ∀ x ∈ M.toCompiled.data, x < M.q := by
  intro x hx
  obtain ⟨n, -, rfl⟩ := List.mem_map.mp hx
  exact entry_toCompiled_lt M _ _

/-- The stored entry of a compiled matrix denotes the entry of the original. -/
theorem cast_centered_entry (M : NativeMatrix) (r c : ℕ) :
    ((centered (M.toCompiled.entry r c) M.q : ℤ) : ZMod M.q) = (M.words.value r c : ℤ) := by
  rw [cast_centered]
  exact cast_toNat_emod M.q_pos _

/-- An entry of a compiled matrix among its coefficients. -/
theorem entry_mem_data (M : PackingMatrix) {r c : ℕ} (hr : r < M.rows) (hc : c < M.cols) :
    M.entry r c ∈ M.data := by
  refine List.mem_map.mpr ⟨r * M.cols + c, ?_, by rw [flat_div hc, flat_mod hc]⟩
  rw [List.mem_range]
  calc r * M.cols + c < r * M.cols + M.cols := Nat.add_lt_add_left hc _
    _ = (r + 1) * M.cols := (Nat.succ_mul r M.cols).symm
    _ ≤ M.rows * M.cols := Nat.mul_le_mul_right _ hr

/-- The words of a matrix in one width. -/
def entryWords (width : ℕ) (M : NativeMatrix) : List ℕ :=
  M.toCompiled.data.map fun x => (centered x M.q % (256 ^ width : ℕ)).toNat

/-- The entries of a matrix fit a signed word of `2 * half` values. -/
def EntriesFit (half : ℕ) (M : NativeMatrix) : Prop :=
  ∀ x ∈ M.toCompiled.data, -(half : ℤ) ≤ centered x M.q ∧ centered x M.q < half

/-- A word of a matrix is read as the entry modulo `q`. -/
theorem cast_signedWord_entry (M : NativeMatrix) (width half : ℕ) (h : 256 ^ width = 2 * half)
    (hfit : EntriesFit half M) {r c : ℕ} (hr : r < M.rows) (hc : c < M.cols) :
    ((signedWord width ((entryWords width M).getD (r * M.cols + c) 0) : ℤ) : ZMod M.q) =
      (M.words.value r c : ℤ) := by
  have hget := getD_data M.toCompiled hr hc fun x => (centered x M.q % (256 ^ width : ℕ)).toNat
  have hget' : (entryWords width M).getD (r * M.cols + c) 0 =
      (centered (M.toCompiled.entry r c) M.q % (256 ^ width : ℕ)).toNat := hget
  obtain ⟨hlo, hhi⟩ := hfit _ (entry_mem_data M.toCompiled hr hc)
  rw [hget', signedWord_mod width half h hlo hhi, cast_centered_entry]

/-- The words of a matrix, byte by byte. -/
theorem flatMap_entryWords (width : ℕ) (M : NativeMatrix) :
    (entryWords width M).flatMap (leBytes width) =
      M.toCompiled.data.flatMap fun x => leInt width (centered x M.q) := by
  rw [entryWords, List.flatMap_map]
  rfl

theorem entryWords_lt (width : ℕ) (M : NativeMatrix) :
    ∀ w ∈ entryWords width M, w < 256 ^ width := by
  intro w hw
  obtain ⟨x, -, rfl⟩ := List.mem_map.mp hw
  have hpos : (0 : ℤ) < (256 ^ width : ℕ) := by exact_mod_cast Nat.pow_pos (by decide)
  have hnonneg := Int.emod_nonneg (centered x M.q) hpos.ne'
  have hlt := Int.emod_lt_of_pos (centered x M.q) hpos
  omega

/-- **The matrix of a block has a section** with the same entries modulo `q`, whatever its
storage. -/
theorem exists_matrixSection (M : NativeMatrix) (hrows : M.rows = d) (hcols : M.cols = d * P.ell)
    (hq : M.q = q) : ∃ s : MatrixSection P, s.bytes = matrixBytes M ∧
      ∀ r < d, ∀ c < d * P.ell, ((s.words.1.value r c : ℤ) : ZMod q) = (M.words.value r c : ℤ) := by
  have hlen (width : ℕ) : (entryWords width M).length = d * d * P.ell := by
    rw [entryWords, List.length_map, length_data]
    show M.rows * M.cols = _
    rw [hrows, hcols, mul_assoc]
  have hvalue (width half : ℕ) (h : 256 ^ width = 2 * half) (hfit : EntriesFit half M) {r c : ℕ}
      (hr : r < d) (hc : c < d * P.ell) :
      ((signedWord width ((entryWords width M).getD (r * (d * P.ell) + c) 0) : ℤ) : ZMod q) =
        (M.words.value r c : ℤ) := by
    have hcast := cast_signedWord_entry M width half h hfit (hr.trans_eq hrows.symm)
      (hc.trans_eq hcols.symm)
    rw [hcols] at hcast
    subst hq
    exact hcast
  by_cases hnarrow : ∀ x ∈ M.toCompiled.data,
      -2 ^ 31 ≤ centered x M.toCompiled.q ∧ centered x M.toCompiled.q < 2 ^ 31
  · refine ⟨⟨4, entryWords 4 M, Or.inl rfl, hlen 4, entryWords_lt 4 M,
      fun h => absurd h (by decide)⟩, ?_, fun r hr c hc => ?_⟩
    · unfold matrixBytes
      dsimp only
      rw [if_pos hnarrow, MatrixSection.bytes]
      exact congrArg (leBytes 8 4 ++ ·) (flatMap_entryWords 4 M)
    · exact hvalue 4 (2 ^ 31) (by norm_num) (fun x hx => hnarrow x hx) hr hc
  · have hbound : q / 2 < 2 ^ 63 := lt_of_le_of_lt (Nat.div_le_self q 2)
      (lt_of_le_of_lt P.q_le (by norm_num))
    have hhalf : ∀ x ∈ M.toCompiled.data, |centered x M.q| ≤ (q / 2 : ℕ) := fun x hx =>
      hq ▸ abs_centered_le (mem_data_lt M x hx)
    have hfit : EntriesFit (2 ^ 63) M := by
      intro x hx
      have habs := abs_le.mp (hhalf x hx)
      omega
    have hwide : ∀ w ∈ entryWords 8 M, |signedWord 8 w| ≤ (q / 2 : ℕ) := by
      intro w hw
      obtain ⟨x, hx, rfl⟩ := List.mem_map.mp hw
      rw [signedWord_mod 8 (2 ^ 63) (by norm_num) (hfit x hx).1 (hfit x hx).2]
      exact hhalf x hx
    refine ⟨⟨8, entryWords 8 M, Or.inr rfl, hlen 8, entryWords_lt 8 M, fun _ => hwide⟩, ?_,
      fun r hr c hc => ?_⟩
    · unfold matrixBytes
      dsimp only
      rw [if_neg hnarrow, MatrixSection.bytes]
      exact congrArg (leBytes 8 8 ++ ·) (flatMap_entryWords 8 M)
    · exact hvalue 8 (2 ^ 63) (by norm_num) hfit hr hc

end Matrices

/-! ## Leftover operands -/

section Operands

theorem LiftLimb.stored_ntt {limb : LiftLimb d} (h : limb.count = 2 ∨ limb.count = 3) {j : Fin 3}
    (hj : (j : ℕ) < limb.count) : limb.stored.ntt j = limb.ntt j := by
  fin_cases j
  · rfl
  · rfl
  · have hthree : limb.count = 3 := by
      have : (2 : ℕ) < limb.count := hj
      omega
    exact if_pos hthree

/-- A reconstruction reads the residues of its count only. -/
theorem LiftContext.reconstruct_congr (lift : LiftContext d q) {count : ℕ}
    (h : count = 2 ∨ count = 3) {residue residue' : Fin 3 → ℕ}
    (hres : ∀ j : Fin 3, (j : ℕ) < count → residue j = residue' j) (product : ℕ) :
    lift.reconstruct count product residue = lift.reconstruct count product residue' := by
  have hzero := hres 0 (by rcases h with rfl | rfl <;> decide)
  have hone := hres 1 (by rcases h with rfl | rfl <;> decide)
  unfold LiftContext.reconstruct LiftContext.later
  rcases h with rfl | rfl
  · simp [hzero, hone]
  · have htwo := hres 2 (by decide)
    simp [hzero, hone, htwo]

theorem limbProduct_stored (lift : LiftContext d q) {limb : LiftLimb d}
    (h : limb.count = 2 ∨ limb.count = 3) (right : (j : Fin 3) → Ntt d (PRIMES j)) :
    lift.limbProduct limb.stored right = lift.limbProduct limb right := by
  funext i
  refine lift.reconstruct_congr h (fun j hj => ?_) _
  rw [LiftLimb.stored_ntt h hj]

theorem sumPrepared_stored (lift : LiftContext d q) {op : PreparedLiftOperand d q}
    (h : ∀ limb ∈ op.transforms, limb.count = 2 ∨ limb.count = 3) (b : List (Poly d)) :
    lift.sumPrepared op.stored b = lift.sumPrepared op b := by
  unfold LiftContext.sumPrepared PreparedLiftOperand.stored
  rw [List.length_map, List.zip_map_left, List.foldlM_map]
  refine congrArg _ (foldlM_congr (fun pair hpair result => ?_) _)
  have hlimb := h pair.1 (List.of_mem_zip hpair).1
  dsimp only [Prod.map, id]
  rw [limbProduct_stored lift hlimb]

/-- The transform-domain sum reads one prime only. -/
theorem dotNtt_stored (lift : LiftContext d q) {limbs : List (LiftLimb d)}
    (h : ∀ limb ∈ limbs, limb.count = 2 ∨ limb.count = 3) {j : Fin 3} (hj : (j : ℕ) < 2)
    (right : List ((j : Fin 3) → Ntt d (PRIMES j))) :
    lift.dotNtt j (((limbs.map LiftLimb.stored).map LiftLimb.ntt).zip right) =
      lift.dotNtt j ((limbs.map LiftLimb.ntt).zip right) := by
  unfold LiftContext.dotNtt
  rw [List.map_map, List.zip_map_left, List.zip_map_left, List.foldl_map, List.foldl_map]
  refine List.foldl_ext _ _ _ fun sum pair hpair => ?_
  have hlimb := h pair.1 (List.of_mem_zip hpair).1
  dsimp only [Prod.map, Function.comp_apply]
  rw [LiftLimb.stored_ntt hlimb (by rcases hlimb with h | h <;> omega)]

theorem sumCached_stored (lift : LiftContext d q) {op : PreparedLiftOperand d q}
    (h : ∀ limb ∈ op.transforms, limb.count = 2 ∨ limb.count = 3) (right : PreparedLiftRight d q) :
    lift.sumCached op.stored right = lift.sumCached op right := by
  have htwo : lift.sumCachedTwo op.stored right = lift.sumCachedTwo op right := by
    unfold LiftContext.sumCachedTwo PreparedLiftOperand.stored
    dsimp only
    rw [dotNtt_stored lift h (by decide), dotNtt_stored lift h (by decide)]
  have hzip : op.stored.transforms.zip right.transforms =
      (op.transforms.zip right.transforms).map (Prod.map LiftLimb.stored id) := List.zip_map_left
  have hcheck : (op.stored.transforms.length ≠ right.transforms.length ∨
      ∃ pair ∈ op.stored.transforms.zip right.transforms, pair.1.count > pair.2.count) ↔
      (op.transforms.length ≠ right.transforms.length ∨
        ∃ pair ∈ op.transforms.zip right.transforms, pair.1.count > pair.2.count) := by
    rw [hzip]
    simp only [PreparedLiftOperand.stored, List.length_map, List.mem_map, exists_exists_and_eq_and]
    rfl
  unfold LiftContext.sumCached
  by_cases hbad : op.transforms.length ≠ right.transforms.length ∨
      ∃ pair ∈ op.transforms.zip right.transforms, pair.1.count > pair.2.count
  · rw [if_pos hbad, if_pos (hcheck.mpr hbad)]
  · rw [if_neg hbad, if_neg fun hbad' => hbad (hcheck.mp hbad'), htwo, hzip, List.foldl_map]
    refine congrArg _ (congrArg Except.ok (List.foldl_ext _ _ _ fun result pair hpair => ?_))
    have hlimb := h pair.1 (List.of_mem_zip hpair).1
    dsimp only [Prod.map, id]
    rw [limbProduct_stored lift hlimb]

/-- **An operand keeps its products** without the transforms that its counts leave out. -/
theorem PreparedLiftOperand.agree_stored {op : PreparedLiftOperand d q}
    (h : ∀ limb ∈ op.transforms, limb.count = 2 ∨ limb.count = 3) : op.Agree op.stored where
  sum_prepared lift b := sumPrepared_stored lift h b
  sum_cached lift right := sumCached_stored lift h right

end Operands

/-! ## Blocks -/

section Blocks

variable {lib : NumberTheory} {S : NativeSetup P} {B : NativePreprocessed P} {twoMask : Bool}
  {blocks : List (NativePreprocessed P)}

/-- The leftover operand of a built block has the shape that is written. -/
theorem NativePreprocessed.BuiltFor.leftover_shaped (hB : B.BuiltFor lib S)
    {op : PreparedLiftOperand d q} (hop : B.leftover = some op) : op.Shaped P := by
  have hone : B.aOther = none := by
    by_contra hne
    rw [hB.two_mask hne] at hop
    cases hop
  obtain ⟨op', last, hop', hlimbs, -, hlast, -⟩ := hB.one_mask hone
  rw [hop] at hop'
  cases hop'
  refine ⟨by rw [hlimbs, List.length_map, hlast], fun limb hlimb => ?_⟩
  rw [hlimbs] at hlimb
  obtain ⟨x, -, rfl⟩ := List.mem_map.mp hlimb
  unfold LiftContext.limbOf
  dsimp only
  split
  · exact Or.inl rfl
  · exact Or.inr rfl

/-- A built block has a leftover operand exactly in one-mask mode. -/
theorem NativePreprocessed.BuiltFor.leftover_isSome (hB : B.BuiltFor lib S) :
    B.leftover.isSome = !B.aOther.isSome := by
  cases hmode : B.aOther with
  | none =>
      obtain ⟨op, -, hop, -⟩ := hB.one_mask hmode
      rw [hop]
      rfl
  | some other =>
      rw [hB.two_mask (by simp [hmode])]
      rfl

/-- **A built block has sections**, and they stand for a block that packs as it does. -/
theorem NativePreprocessed.BuiltFor.exists_sections (hB : B.BuiltFor lib S)
    (hmode : B.aOther.isSome = twoMask) :
    ∃ s : BlockSections P twoMask, s.bytes S.id = blockBytes B ∧
      SameBlock B (s.block S.id B.lift) := by
  have hcols : B.h.cols = d * P.ell := hB.cols_eq.trans (Nat.mul_comm _ _)
  obtain ⟨matrix, hmatrix, hvalue⟩ :=
    exists_matrixSection (P := P) B.h hB.rows_eq hcols hB.q_eq
  have hleftover : Option.Rel PreparedLiftOperand.Agree B.leftover
      (B.leftover.map PreparedLiftOperand.stored) := by
    cases hop : B.leftover with
    | none => exact .none
    | some op => exact .some (PreparedLiftOperand.agree_stored (hB.leftover_shaped hop).counts)
  refine ⟨{
    a := B.a
    other := B.aOther
    matrix
    leftover := B.leftover
    a_lt := hB.a_lt
    other_lt := hB.other_lt
    other_isSome := hmode
    leftover_isSome := hmode ▸ hB.leftover_isSome
    leftover_shaped := fun _ hop => hB.leftover_shaped hop }, ?_, ?_⟩
  · rw [BlockSections.bytes, blockBytes, hmatrix, hB.id_eq]
  · exact
      { id_eq := (funext fun i => getD_ofFn S.id i 0).trans hB.id_eq.symm
        a_eq := rfl
        other_eq := rfl
        leftover := hleftover
        lift_eq := rfl
        rows_eq := hB.rows_eq.symm
        cols_eq := hcols.symm
        q_eq := hB.q_eq.symm
        value_eq := by
          rw [hB.rows_eq, hcols, hB.q_eq]
          exact hvalue }

/-- Blocks of one setup and one mode. -/
def AreBlocks (lib : NumberTheory) (S : NativeSetup P) (twoMask : Bool)
    (blocks : List (NativePreprocessed P)) : Prop :=
  ∀ B ∈ blocks, B.BuiltFor lib S ∧ B.aOther.isSome = twoMask

/-- The sections of a list of blocks, as a whole. -/
theorem AreBlocks.exists_sections (hblocks : AreBlocks lib S twoMask blocks)
    {lift : LiftContext d q} (hlift : LiftContext.new lib d q = .ok lift) :
    ∃ sections : List (BlockSections P twoMask), sections.length = blocks.length ∧
      sections.flatMap (BlockSections.bytes S.id) = blocks.flatMap blockBytes ∧
      List.Forall₂ PacksAlike blocks (sections.map (BlockSections.block S.id lift)) := by
  induction blocks with
  | nil => exact ⟨[], rfl, rfl, .nil⟩
  | cons B rest ih =>
      obtain ⟨hB, hmode⟩ := hblocks B List.mem_cons_self
      obtain ⟨s, hs, hsame⟩ := hB.exists_sections hmode
      obtain ⟨sections, hlen, hbytes, halike⟩ :=
        ih fun C hC => hblocks C (List.mem_cons_of_mem _ hC)
      obtain rfl : B.lift = lift := Except.ok.inj (hB.lift_eq.symm.trans hlift)
      refine ⟨s :: sections, ?_, ?_, .cons (hsame.packsAlike hB.rows_eq) halike⟩
      · rw [List.length_cons, hlen, List.length_cons]
      · rw [List.flatMap_cons, hs, hbytes, List.flatMap_cons]

/-- What is written is a file of the sections. -/
theorem AreBlocks.writePrepared_eq (hblocks : AreBlocks lib S twoMask blocks) (hne : blocks ≠ [])
    {sections : List (BlockSections P twoMask)} (hlen : sections.length = blocks.length)
    (hbytes : sections.flatMap (BlockSections.bytes S.id) = blocks.flatMap blockBytes) :
    writePrepared blocks = .ok (fileBytes S.id twoMask sections) := by
  have hhead : (blocks.head?.any fun B => B.aOther.isSome) = twoMask := by
    cases blocks with
    | nil => exact absurd rfl hne
    | cons B rest => exact (hblocks B List.mem_cons_self).2
  unfold writePrepared
  dsimp only
  rw [hhead, if_neg, fileBytes, hbytes, hlen, List.append_assoc]
  rintro ⟨B, hB, hmode⟩
  exact hmode (hblocks B hB).2

end Blocks

/-! ## The mode of a file -/

section Mode

variable {lib : NumberTheory} {S : NativeSetup P} {twoMask : Bool}
  {blocks : List (NativePreprocessed P)}

/-- The sections of the blocks are also sections of as many blocks in the other mode. -/
def Ambiguous (S : NativeSetup P) (twoMask : Bool) (blocks : List (NativePreprocessed P)) : Prop :=
  ∃ sections : List (BlockSections P (!twoMask)), sections.length = blocks.length ∧
    sections.flatMap (BlockSections.bytes S.id) = blocks.flatMap blockBytes

theorem length_sections (id : Digest) (sections : List (BlockSections P twoMask)) :
    ∃ n, (sections.flatMap (BlockSections.bytes id)).length =
      8 * (sections.length * BlockSections.baseWords P twoMask + d * n) := by
  induction sections with
  | nil => exact ⟨0, by simp⟩
  | cons s sections ih =>
      obtain ⟨n, hn⟩ := ih
      obtain ⟨m, hm⟩ := s.length_bytes id
      refine ⟨m + n, ?_⟩
      rw [List.flatMap_cons, List.length_append, hm, hn, List.length_cons]
      ring

/-- **Sections of one mode have no length of the other** unless the degree divides it away. -/
theorem not_ambiguous_of_not_dvd (hblocks : AreBlocks lib S twoMask blocks)
    {lift : LiftContext d q} (hlift : LiftContext.new lib d q = .ok lift)
    (h : ¬d ∣ blocks.length * (P.ell + 2)) : ¬Ambiguous S twoMask blocks := by
  rintro ⟨others, hothers, hbytes⟩
  obtain ⟨sections, hlen, hsections, -⟩ := hblocks.exists_sections hlift
  obtain ⟨n, hn⟩ := length_sections S.id sections
  obtain ⟨m, hm⟩ := length_sections S.id others
  rw [hsections, ← hbytes, hm, hlen, hothers] at hn
  have hwords := Nat.eq_of_mul_eq_mul_left (by decide : 0 < 8) hn
  have hsplit : blocks.length * (P.ell + 7) = blocks.length * 5 + blocks.length * (P.ell + 2) := by
    ring
  refine h ?_
  cases twoMask with
  | true =>
      rw [Bool.not_true, BlockSections.baseWords, BlockSections.baseWords,
        if_neg Bool.false_ne_true, if_pos rfl, hsplit, Nat.add_assoc] at hwords
      have hsum := Nat.add_left_cancel hwords
      exact (Nat.dvd_add_left (dvd_mul_right d m)).mp (hsum ▸ dvd_mul_right d n)
  | false =>
      rw [Bool.not_false, BlockSections.baseWords, BlockSections.baseWords, if_pos rfl,
        if_neg Bool.false_ne_true, hsplit, Nat.add_assoc] at hwords
      have hsum := Nat.add_left_cancel hwords
      exact (Nat.dvd_add_left (dvd_mul_right d n)).mp (hsum ▸ dvd_mul_right d m)

/-- The blocks of a large degree are told apart by their lengths. -/
theorem not_ambiguous_of_large (hblocks : AreBlocks lib S twoMask blocks)
    {lift : LiftContext d q} (hlift : LiftContext.new lib d q = .ok lift) (hne : blocks ≠ [])
    (hfew : blocks.length ≤ 16) (hd : 256 ≤ d) : ¬Ambiguous S twoMask blocks := by
  refine not_ambiguous_of_not_dvd hblocks hlift (Nat.not_dvd_of_pos_of_lt ?_ ?_)
  · exact Nat.mul_pos (List.length_pos_of_ne_nil hne) (by omega)
  · have hell := P.ell_le
    calc blocks.length * (P.ell + 2) ≤ 16 * 10 := Nat.mul_le_mul hfew (by omega)
      _ < d := by omega

theorem artefactMagic_injective {twoMask' : Bool}
    (h : artefactMagic twoMask = artefactMagic twoMask') : twoMask = twoMask' := by
  cases twoMask <;> cases twoMask'
  · rfl
  · exact absurd h (by decide)
  · exact absurd h (by decide)
  · rfl

/-- A file under a magic string: the mode, the number of blocks and their bytes. -/
theorem fileBytes_eq {id : Digest} {twoMask' : Bool} {sections : List (BlockSections P twoMask')}
    {n : ℕ} (hn : n < 256 ^ 8) (hlen : sections.length < 256 ^ 8) {payload : List UInt8}
    (h : artefactMagic twoMask ++ (leBytes 8 n ++ payload) = fileBytes id twoMask' sections) :
    twoMask' = twoMask ∧ sections.length = n ∧
      sections.flatMap (BlockSections.bytes id) = payload := by
  obtain ⟨hmagic, hrest⟩ := List.append_inj h
    (by rw [length_artefactMagic, length_artefactMagic])
  obtain ⟨hcount, hpayload⟩ := List.append_inj hrest (by rw [length_leBytes, length_leBytes])
  refine ⟨(artefactMagic_injective hmagic).symm, ?_, hpayload.symm⟩
  rw [← fromLe_leBytes hlen, ← hcount, fromLe_leBytes hn]

end Mode

/-! ## Refusals -/

section Refusals

theorem run_drop_header {α : Type} (p : Read α) (header bytes : List UInt8) :
    run badArtefact p header.length ((header ++ bytes).drop header.length) =
      run badArtefact p header.length bytes := by
  rw [List.drop_left]

variable {littleEndian : Bool} {lib : NumberTheory} {S : NativeSetup P} {lift : LiftContext d q}
  {header bytes : List UInt8} {count : ℕ}

/-- The checks of the host and of the position. -/
theorem readPrepared_eq (hlittle : littleEndian = true) (halign : header.length % 8 = 0)
    (hpos : count ≠ 0) (hfew : count ≤ 16) :
    readPrepared littleEndian lib (header ++ bytes) header.length S count =
      run badArtefact (readArtefact lib S count) header.length bytes := by
  rw [readPrepared, if_neg, run_drop_header]
  rintro (hbig | hmis | hnone | hmany)
  · exact hbig hlittle
  · exact hmis halign
  · exact hpos hnone
  · exact absurd hfew (not_le.mpr hmany)

/-- **What is not a file of sections is refused.** -/
theorem isErr_readPrepared (hlift : LiftContext.new lib d q = .ok lift)
    (h : ∀ (twoMask : Bool) (sections : List (BlockSections P twoMask)), sections.length = count →
      count ≤ 16 → header.length % 8 = 0 → bytes ≠ fileBytes S.id twoMask sections) :
    IsErr (readPrepared littleEndian lib (header ++ bytes) header.length S count) := by
  unfold readPrepared
  split
  · exact ⟨_, rfl⟩
  · next hcheck =>
    push Not at hcheck
    obtain ⟨-, halign, -, hfew⟩ := hcheck
    rw [run_drop_header]
    rcases hrun : run badArtefact (readArtefact lib S count) header.length bytes with e | blocks
    · exact isErr_of_returned rfl
        ((failsWith_readArtefact S hlift count).run returned_bad _ _ hrun)
    · obtain ⟨twoMask, sections, hlen, hbytes⟩ :=
        (readArtefact_accepts_iff hlift (lt_of_le_of_lt hfew (by norm_num)) halign bytes).mp
          ⟨blocks, hrun⟩
      exact absurd hbytes (h twoMask sections hlen hfew halign)

/-- No file of sections is a strict prefix of another. -/
theorem fileBytes_ne_append (hlift : LiftContext.new lib d q = .ok lift) {twoMask twoMask' : Bool}
    {sections : List (BlockSections P twoMask)} {sections' : List (BlockSections P twoMask')}
    (hlen : sections.length = sections'.length) (hfew : sections.length ≤ 16)
    {more : List UInt8} (hmore : more ≠ []) :
    fileBytes S.id twoMask sections ++ more ≠ fileBytes S.id twoMask' sections' := by
  intro heq
  have hword : sections.length < 256 ^ 8 := lt_of_le_of_lt hfew (by norm_num)
  have hpart : Reads (readArtefact lib S sections.length) 0 (fileBytes S.id twoMask sections)
      (sections.map (BlockSections.block S.id lift)) :=
    reads_file hlift hword (Nat.zero_mod 8)
  have hfull : Reads (readArtefact lib S sections'.length) 0 (fileBytes S.id twoMask' sections')
      (sections'.map (BlockSections.block S.id lift)) :=
    reads_file hlift (hlen ▸ hword) (Nat.zero_mod 8)
  rw [← heq, ← hlen] at hfull
  exact not_reads_strict_prefix hfull hmore _ hpart

/-- **A file of another setup is refused** at its first block. -/
theorem rejects_other_setup (lib : NumberTheory) {d' q' : ℕ} {P' : NativeParams d' q'}
    (S' : NativeSetup P') {id : Digest} (hid : id ≠ S'.id) (twoMask : Bool) (n count : ℕ)
    (hn : n < 256 ^ 8) (hcount : count ≠ 0) (more : List UInt8) (start : ℕ) :
    Rejects Returned (readArtefact lib S' count) start
      (artefactMagic twoMask ++ (leBytes 8 n ++ (List.ofFn id ++ more))) := by
  refine (reads_mode twoMask start).rejects ?_
  refine (reads_word badArtefact _ hn).rejects ?_
  by_cases heq : n = count
  · have hskip := reads_require (e := badArtefact) heq
      (start + (artefactMagic twoMask).length + (leBytes 8 n).length)
    refine hskip.rejects ?_
    obtain ⟨k, rfl⟩ := Nat.exists_eq_succ_of_ne_zero hcount
    refine Rejects.bind ?_ _
    have hread := reads_take badArtefact
      (start + (artefactMagic twoMask).length + (leBytes 8 n).length + 0) (List.ofFn id)
    rw [List.length_ofFn] at hread
    refine hread.rejects ?_
    refine (rejects_require returned_bad (fun hsame => hid ?_) _ _).bind _
    exact List.ofFn_injective hsame
  · exact (rejects_require returned_bad heq _ _).bind _

end Refusals

/-! ## Round trips -/

section RoundTrip

/-- What a setup identifier is the hash of. -/
def setupInput (P : NativeParams d q) (seed : Digest) : List UInt8 :=
  P.encoding ++ asciiBytes "/packing-masks/" ++ List.ofFn seed

/-- The profile values that a setup is bound to. -/
def NativeParams.fields (P : NativeParams d q) : List ℕ :=
  [d, q, P.p, P.bits, P.ell, P.dropped, P.sampler.index]

theorem NativeParams.fields_lt (P : NativeParams d q) : ∀ n ∈ P.fields, n < 256 ^ 8 := by
  have hq := P.q_le
  have hp : P.p < 2 ^ 56 := (Nat.pow_lt_pow_right one_lt_two P.pBits_lt).trans_le
    (Nat.pow_le_pow_right two_pos P.qBits_le)
  have hbits : P.bits ≤ 27 := P.bits_le
  have hdropped : P.dropped ≤ 27 := P.dropped_le
  have hd := P.d_le
  have hell := P.ell_le
  have hsampler : P.sampler.index ≤ 1 := by
    cases P.sampler <;> decide
  intro n hn
  simp only [NativeParams.fields, List.mem_cons, List.not_mem_nil, or_false] at hn
  rcases hn with rfl | rfl | rfl | rfl | rfl | rfl | rfl <;> omega

theorem words_injective {ws ws' : List ℕ} (hws : ∀ w ∈ ws, w < 256 ^ 8)
    (hws' : ∀ w ∈ ws', w < 256 ^ 8) (hlen : ws.length = ws'.length)
    (h : ws.flatMap (leBytes 8) = ws'.flatMap (leBytes 8)) : ws = ws' := by
  have hread := reads_words badArtefact 0 ws hws
  have hread' := reads_words badArtefact 0 ws' hws'
  rw [← hlen] at hread'
  exact (reads_unique [] [] hread hread' (by rw [h])).1

/-- **The input of the hash tells setups apart.** -/
theorem setupInput_injective {d' q' : ℕ} {P' : NativeParams d' q'} {seed seed' : Digest}
    (h : setupInput P seed = setupInput P' seed') : P.fields = P'.fields ∧ seed = seed' := by
  unfold setupInput NativeParams.encoding at h
  simp only [List.append_assoc] at h
  have htail := List.append_cancel_left h
  obtain ⟨hfields, hseed⟩ := List.append_inj htail (by simp only [length_words]; rfl)
  exact ⟨words_injective P.fields_lt P'.fields_lt rfl hfields,
    List.ofFn_injective (List.append_cancel_left hseed)⟩

/-- Two setups whose identifiers do not collide. -/
def Primitives.Separates (prim : Primitives) (input input' : List UInt8) : Prop :=
  prim.sha256 input = prim.sha256 input' → input = input'

/-- The artefact of a list of blocks keeps them, and no other input is taken for it.  A file may
have a header before the artefact. -/
structure RoundTrips (littleEndian : Bool) (lib : NumberTheory) (prim : Primitives)
    (P : NativeParams d q) (seed : Digest) (twoMask : Bool)
    (blocks : List (NativePreprocessed P)) : Prop where
  round_trip : ∀ header : List UInt8, header.length % 8 = 0 → ∃ bytes blocks',
    writePrepared blocks = .ok bytes ∧
      readPrepared littleEndian lib (header ++ bytes) header.length (NativeSetup.new prim P seed)
        blocks.length = .ok blocks' ∧ List.Forall₂ PacksAlike blocks blocks'
  strict_prefix : ∀ header part more : List UInt8, writePrepared blocks = .ok (part ++ more) →
    more ≠ [] → IsErr (readPrepared littleEndian lib (header ++ part) header.length
      (NativeSetup.new prim P seed) blocks.length)
  extension : ∀ header bytes more : List UInt8, writePrepared blocks = .ok bytes → more ≠ [] →
    IsErr (readPrepared littleEndian lib (header ++ (bytes ++ more)) header.length
      (NativeSetup.new prim P seed) blocks.length)
  other_setup : ∀ header bytes : List UInt8, writePrepared blocks = .ok bytes →
    ∀ {d' q' : ℕ} (P' : NativeParams d' q') (seed' : Digest) (count : ℕ),
      (P'.fields, seed') ≠ (P.fields, seed) →
      prim.Separates (setupInput P seed) (setupInput P' seed') →
      IsErr (readPrepared littleEndian lib (header ++ bytes) header.length
        (NativeSetup.new prim P' seed') count)
  other_mode : ∀ header bytes : List UInt8, writePrepared blocks = .ok bytes → ∀ count : ℕ,
    IsErr (readPrepared littleEndian lib
      (header ++ (artefactMagic (!twoMask) ++ bytes.drop 8)) header.length
      (NativeSetup.new prim P seed) count)

section Fields

variable {littleEndian : Bool} {lib : NumberTheory} {S : NativeSetup P} {lift : LiftContext d q}
  {twoMask : Bool} {sections : List (BlockSections P twoMask)}
  (hlift : LiftContext.new lib d q = .ok lift) (header : List UInt8)

include hlift

/-- **A file is read.** -/
theorem readPrepared_file (hlittle : littleEndian = true) (hne : sections ≠ [])
    (hfew : sections.length ≤ 16) (halign : header.length % 8 = 0) :
    readPrepared littleEndian lib (header ++ fileBytes S.id twoMask sections) header.length S
      sections.length = .ok (sections.map (BlockSections.block S.id lift)) := by
  rw [readPrepared_eq hlittle halign (List.length_pos_of_ne_nil hne).ne' hfew]
  exact run_eq_ok (reads_file hlift (lt_of_le_of_lt hfew (by norm_num)) halign)

theorem readPrepared_strict_prefix {part more : List UInt8}
    (h : fileBytes S.id twoMask sections = part ++ more) (hmore : more ≠ []) :
    IsErr (readPrepared littleEndian lib (header ++ part) header.length S sections.length) := by
  refine isErr_readPrepared hlift fun twoMask' sections' hlen hfew _ hpart => ?_
  rw [hpart] at h
  exact fileBytes_ne_append hlift hlen (hlen ▸ hfew) hmore h.symm

theorem readPrepared_extension {more : List UInt8} (hmore : more ≠ []) :
    IsErr (readPrepared littleEndian lib (header ++ (fileBytes S.id twoMask sections ++ more))
      header.length S sections.length) := by
  refine isErr_readPrepared hlift fun twoMask' sections' hlen hfew _ hfile => ?_
  exact fileBytes_ne_append hlift hlen.symm hfew hmore hfile

/-- **Under the magic string of the other mode** a file is refused when its sections are not
sections of that mode. -/
theorem readPrepared_other_mode (hcount : sections.length < 256 ^ 8)
    (hother : ∀ others : List (BlockSections P (!twoMask)), others.length = sections.length →
      others.flatMap (BlockSections.bytes S.id) ≠ sections.flatMap (BlockSections.bytes S.id))
    (count : ℕ) :
    IsErr (readPrepared littleEndian lib (header ++ (artefactMagic (!twoMask) ++
      (fileBytes S.id twoMask sections).drop 8)) header.length S count) := by
  rw [fileBytes, List.drop_left' (length_artefactMagic twoMask)]
  refine isErr_readPrepared hlift fun twoMask' sections' hlen hfew _ hfile => ?_
  obtain ⟨rfl, hsame, hpayload⟩ :=
    fileBytes_eq hcount (hlen ▸ lt_of_le_of_lt hfew (by norm_num)) hfile
  exact hother sections' hsame hpayload

end Fields

/-- A file of another setup is refused, by whatever host. -/
theorem readPrepared_other_setup {littleEndian : Bool} {lib : NumberTheory} {twoMask : Bool}
    {id : Digest} {sections : List (BlockSections P twoMask)} (hne : sections ≠ [])
    (hword : sections.length < 256 ^ 8) {d' q' : ℕ} {P' : NativeParams d' q'} (S' : NativeSetup P')
    (hid : id ≠ S'.id) (header : List UInt8) (count : ℕ) :
    IsErr (readPrepared littleEndian lib (header ++ fileBytes id twoMask sections) header.length S'
      count) := by
  obtain ⟨s, rest, rfl⟩ := List.exists_cons_of_ne_nil hne
  unfold readPrepared
  split
  · exact ⟨_, rfl⟩
  · next hcheck =>
    push Not at hcheck
    rw [run_drop_header, fileBytes, List.flatMap_cons, BlockSections.bytes]
    simp only [List.append_assoc]
    obtain ⟨e, hrun, he⟩ := (rejects_other_setup lib S' hid twoMask _ count hword
      hcheck.2.2.1 _ header.length).run (e := badArtefact)
    exact isErr_of_returned hrun he

/-- **The blocks of a list survive**, and nothing else is taken for them, exactly on a little-endian
host, when there are at most sixteen of them and their sections do not stand for blocks of the other
mode as well. -/
theorem roundTrips_iff {littleEndian : Bool} {lib : NumberTheory} {prim : Primitives}
    {seed : Digest} {twoMask : Bool} {blocks : List (NativePreprocessed P)}
    (hblocks : ∀ B ∈ blocks, ∃ supportsPacked masks, NativePreprocessed.build lib supportsPacked
      (NativeSetup.new prim P seed) masks twoMask = .ok B)
    (hne : blocks ≠ []) :
    RoundTrips littleEndian lib prim P seed twoMask blocks ↔
      littleEndian = true ∧ blocks.length ≤ 16 ∧
        ¬Ambiguous (NativeSetup.new prim P seed) twoMask blocks := by
  have hbuilt : AreBlocks lib (NativeSetup.new prim P seed) twoMask blocks := by
    intro B hB
    obtain ⟨supportsPacked, masks, hbuild⟩ := hblocks B hB
    exact build_builtFor hbuild
  obtain ⟨lift, hlift⟩ : ∃ lift, LiftContext.new lib d q = .ok lift := by
    obtain ⟨B, hB⟩ := List.exists_mem_of_ne_nil blocks hne
    exact ⟨B.lift, (hbuilt B hB).1.lift_eq⟩
  obtain ⟨sections, hlen, hbytes, halike⟩ := hbuilt.exists_sections hlift
  have hwrite := hbuilt.writePrepared_eq hne hlen hbytes
  have hsections : sections ≠ [] := List.ne_nil_of_length_pos
    (hlen ▸ List.length_pos_of_ne_nil hne)
  constructor
  · intro htrip
    obtain ⟨bytes, back, -, hread, -⟩ := htrip.round_trip [] rfl
    obtain ⟨hlittle, hfew⟩ : littleEndian = true ∧ blocks.length ≤ 16 := by
      unfold readPrepared at hread
      split at hread
      · cases hread
      · next hcheck =>
        push Not at hcheck
        exact ⟨hcheck.1, hcheck.2.2.2⟩
    refine ⟨hlittle, hfew, ?_⟩
    rintro ⟨others, hothers, hsame⟩
    -- the magic string of the other mode makes it a file of that mode
    have hfile : artefactMagic (!twoMask) ++ (fileBytes (NativeSetup.new prim P seed).id twoMask
        sections).drop 8 = fileBytes (NativeSetup.new prim P seed).id (!twoMask) others := by
      rw [fileBytes, List.drop_left' (length_artefactMagic twoMask), fileBytes, hlen, hbytes,
        hothers, hsame]
    have hrefused := htrip.other_mode [] _ hwrite others.length
    rw [hfile, readPrepared_file hlift [] hlittle (List.ne_nil_of_length_pos
      (hothers ▸ List.length_pos_of_ne_nil hne)) (hothers ▸ hfew) rfl] at hrefused
    obtain ⟨e, he⟩ := hrefused
    cases he
  · rintro ⟨hlittle, hfew, hother⟩
    have hword : sections.length < 256 ^ 8 := lt_of_le_of_lt (hlen ▸ hfew) (by norm_num)
    exact
      { round_trip := fun header halign => ⟨_, _, hwrite, hlen ▸ readPrepared_file hlift header
          hlittle hsections (hlen ▸ hfew) halign, halike⟩
        strict_prefix := fun header part more hpart hmore => by
          rw [← hlen]
          exact readPrepared_strict_prefix hlift header
            (Except.ok.inj (hwrite.symm.trans hpart)) hmore
        extension := fun header bytes more hfile hmore => by
          rw [← hlen, ← Except.ok.inj (hwrite.symm.trans hfile)]
          exact readPrepared_extension hlift header hmore
        other_setup := fun header bytes hfile d' q' P' seed' count hne' hsep => by
          rw [← Except.ok.inj (hwrite.symm.trans hfile)]
          refine readPrepared_other_setup hsections hword _ (fun hsame => ?_) header count
          obtain ⟨hfields, hseed⟩ := setupInput_injective (hsep hsame)
          exact hne' (Prod.ext hfields.symm hseed.symm)
        other_mode := fun header bytes hfile count => by
          rw [← Except.ok.inj (hwrite.symm.trans hfile)]
          exact readPrepared_other_mode hlift header hword (fun others hcount hsame =>
            hother ⟨others, hcount.trans hlen, hsame.trans hbytes⟩) count }

/-! ### Small instances -/

/-- The small profile with Gaussian secrets. -/
def gaussianNativeParams : NativeParams 4 (2 ^ 16) :=
  { smallNativeParams with
    sampler := .gaussian
    two_le_d := smallParams.two_le_d
    d_le := four_le_maxDegree
    d_eq := isPowerOfTwo_four }

/-- A block of degree four. -/
theorem exists_block_gaussian : ∃ B, NativePreprocessed.build nativeNumberTheory false
    (NativeSetup.new smallPrimitives gaussianNativeParams fun _ => 7) (constantRows 1) true =
      .ok B := by
  obtain ⟨lift, hlift⟩ := liftContext_new_native
  obtain ⟨B, hB, -⟩ := build_ok false
    (S := NativeSetup.new smallPrimitives gaussianNativeParams fun _ => 7) hlift invertsOdd_native
    (fun _ _ => 1) (fun _ _ => by decide) true
  rw [List.ofFn_const] at hB
  exact ⟨B, hB⟩

theorem eight_pos : 0 < 8 := by decide

theorem eight_le_maxGadgetBits : 8 ≤ maxGadgetBits := by decide

/-- The small profile with one digit of eight bits. -/
def oneDigitNativeParams : NativeParams 4 (2 ^ 16) :=
  { gaussianNativeParams with
    bits := 8
    ell := 1
    two_le_d := smallParams.two_le_d
    d_le := four_le_maxDegree
    d_eq := isPowerOfTwo_four
    bits_pos := eight_pos
    bits_le := eight_le_maxGadgetBits
    ell_pos := Nat.one_pos
    ell_le := eight_pos
    dropped_eq := rfl }

/-- Two blocks of one digit survive on a little-endian host. -/
theorem roundTrips_iff_small : ∃ B, RoundTrips true nativeNumberTheory smallPrimitives
    oneDigitNativeParams (fun _ => 7) true [B, B] := by
  obtain ⟨lift, hlift⟩ := liftContext_new_native
  obtain ⟨B, hB, -⟩ := build_ok false
    (S := NativeSetup.new smallPrimitives oneDigitNativeParams fun _ => 7) hlift
    invertsOdd_native (fun _ _ => 1) (fun _ _ => by decide) true
  have hblocks : ∀ C ∈ [B, B], ∃ supportsPacked masks, NativePreprocessed.build nativeNumberTheory
      supportsPacked (NativeSetup.new smallPrimitives oneDigitNativeParams fun _ => 7) masks true =
        .ok C := by
    intro C hC
    obtain rfl : C = B := by simpa using hC
    exact ⟨false, _, hB⟩
  refine ⟨B, (roundTrips_iff hblocks (by simp)).mpr ⟨rfl, Nat.le_of_ble_eq_true rfl, ?_⟩⟩
  have hdvd : ¬4 ∣ 2 * (oneDigitNativeParams.ell + 2) := by decide
  refine not_ambiguous_of_not_dvd (fun C hC => ?_) hlift hdvd
  obtain ⟨supportsPacked, masks, hbuild⟩ := hblocks C hC
  exact build_builtFor hbuild

/-- A profile with seventeen blocks: what is written for it is refused. -/
theorem seventeen_blocks_refused : ∃ (profile : NativeClient.NativeProfile gaussianNativeParams)
    (B : NativePreprocessed gaussianNativeParams) (bytes : List UInt8) (e : ReinspiringError),
    NativeClient.NativeProfile.new gaussianNativeParams 4 68 = .ok profile ∧
      profile.cols / 4 = 17 ∧
      NativePreprocessed.build nativeNumberTheory false
        (NativeSetup.new smallPrimitives gaussianNativeParams fun _ => 7) (constantRows 1) true =
          .ok B ∧
      writePrepared (List.replicate 17 B) = .ok bytes ∧
      readPrepared true nativeNumberTheory bytes 0
        (NativeSetup.new smallPrimitives gaussianNativeParams fun _ => 7) 17 =
          .error (.err e) := by
  obtain ⟨B, hB⟩ := exists_block_gaussian
  have hbuilt : AreBlocks nativeNumberTheory
      (NativeSetup.new smallPrimitives gaussianNativeParams fun _ => 7) true
      (List.replicate 17 B) := by
    intro C hC
    rw [(List.mem_replicate.mp hC).2]
    exact build_builtFor hB
  obtain ⟨lift, hlift⟩ := liftContext_new_native
  obtain ⟨sections, hlen, hbytes, -⟩ := hbuilt.exists_sections hlift
  exact ⟨_, B, _, _, rfl, rfl, hB, hbuilt.writePrepared_eq (by simp) hlen hbytes,
    if_pos (Or.inr (Or.inr (Or.inr (by decide))))⟩

end RoundTrip

end Reinspiring
