import IpirSp.Inspiring.Phase
import IpirSp.Reinspiring.Pack

/-!
# The compiled pack refines the cascade

Online, the cascade adds `∑ τ_g(body) · digits` over its steps; the compiled pack adds the action
of one matrix.  `stepSum` is that sum as an element of the ring, in the order of the recorded
digits.  `preprocessFromInspiring_spec` is what offline compilation leaves: a matrix with that
action, the last digits and the component.  `collapse_stepSum` and `pack_stepSum` say that both
online runs add `stepSum` and the product with the last digits to the body vector, and
`pack_eq_packB` concludes that they return the same words.
-/

namespace Reinspiring

open Negacyclic SpiralRs Inspiring Loops

variable {P : RlweParams}

/-- The coefficient limbs of a digit column. -/
def columnLimbs (digits : PolyMatrixNTT P.d P.q) : List (Poly P.d) :=
  (List.range P.gadget.ell).map fun j => P.spiral.fromNttAlloc (digits.poly j 0)

/-- The coefficient limbs of a key body. -/
def rowLimbs (body : PolyMatrixNTT P.d P.q) : List (Poly P.d) :=
  (List.range P.gadget.ell).map fun j => P.spiral.fromNttAlloc (body.poly 0 j)

/-- What the `K_g` steps of a cascade add to the body. -/
noncomputable def stepSum (body : PolyMatrixNTT P.d P.q) (steps : List (PolyMatrixNTT P.d P.q)) :
    NegRing P.d (ZMod P.q) :=
  ((steps.zip (collapseKgExponents P.d)).map fun step =>
    ∑ k : Fin P.gadget.ell, tau step.2 (ringVec (bodyRow body) k) * ringDigits step.1 k).sum

/-- What the last switch adds to the body. -/
noncomputable def lastSum (body last : PolyMatrixNTT P.d P.q) : NegRing P.d (ZMod P.q) :=
  dotProduct (ringVec (bodyRow body)) (ringDigits last)

/-! ## Lists -/

section Lists

/-- A sum over a list of results that stands for the list of their indices. -/
theorem sum_zip_of_forall₂ {α β γ M : Type} [AddCommMonoid M] {R : α → β → Prop} {F : β × γ → M}
    {G : α → M} {Y : α → γ} {ls : List α} {bs : List β} (hR : List.Forall₂ R ls bs)
    (hF : ∀ a b, R a b → F (b, Y a) = G a) :
    ((bs.zip (ls.map Y)).map F).sum = (ls.map G).sum := by
  induction hR with
  | nil => rfl
  | cons h _ ih => rw [List.map_cons, List.zip_cons_cons, List.map_cons, List.sum_cons,
      ih, hF _ _ h, List.map_cons, List.sum_cons]

theorem sum_map_range {M : Type} [AddCommMonoid M] (n : ℕ) (f : ℕ → M) :
    ((List.range n).map f).sum = ∑ k : Fin n, f k := by
  rw [← Finset.sum_range]
  rfl

end Lists

/-! ## What preprocessing leaves -/

section Preprocess

theorem digitLimbsCoeff_eq_ok {digits : PolyMatrixNTT P.d P.q} {limbs : List (Poly P.d)}
    (h : digitLimbsCoeff digits = .ok limbs) :
    (digits.rows = P.gadget.ell ∧ digits.cols = 1) ∧ limbs = columnLimbs digits := by
  unfold digitLimbsCoeff at h
  split at h
  · cases h
  · rename_i hshape
    push Not at hshape
    exact ⟨hshape, (Except.ok.inj h).symm⟩

/-- A traversal of digit columns returns their limbs and has checked their shapes. -/
theorem digitLimbs_of_forall₂ {steps : List (PolyMatrixNTT P.d P.q)}
    {limbs : List (List (Poly P.d))}
    (h : List.Forall₂ (fun D l => digitLimbsCoeff D = .ok l) steps limbs) :
    limbs = steps.map columnLimbs ∧ ∀ D ∈ steps, D.rows = P.gadget.ell ∧ D.cols = 1 := by
  induction h with
  | nil => exact ⟨rfl, by simp⟩
  | cons hhead _ ih =>
      obtain ⟨hshape, hlimbs⟩ := digitLimbsCoeff_eq_ok hhead
      refine ⟨by rw [List.map_cons, hlimbs, ih.1], fun D hD => ?_⟩
      rcases List.mem_cons.mp hD with rfl | hD
      · exact hshape
      · exact ih.2 D hD

/-- A compiled limb is compiled from the digits of that limb. -/
theorem compileLimb_isCompiled {algo : CompileAlgo} {steps : List (PolyMatrixNTT P.d P.q)}
    (hsteps : steps.length = P.d - 2) {limb : ℕ} (hlimb : limb < P.gadget.ell) {M : PackingMatrix}
    (h : compileLimb P algo (collapseKgExponents P.d) (steps.map columnLimbs) limb = .ok M) :
    IsCompiled P.d P.q M ((steps.map fun D => P.spiral.fromNttAlloc (D.poly limb 0)).zip
      (collapseKgExponents P.d)) := by
  have hts : (steps.map columnLimbs).map (fun step => step.getD limb fun _ => 0) =
      steps.map fun D => P.spiral.fromNttAlloc (D.poly limb 0) := by
    rw [List.map_map]
    refine List.map_congr_left fun D _ => ?_
    rw [Function.comp_apply, columnLimbs, List.getD_eq_getElem _ _ (by simpa using hlimb)]
    simp
  unfold compileLimb at h
  dsimp only at h
  rw [hts] at h
  split at h
  · -- Degree two has no step before the last.
    rename_i hd
    obtain rfl : steps = [] := List.length_eq_zero_iff.mp (by omega)
    cases h
    exact isCompiled_zero P.q_pos
  · split at h
    · exact compileNaiveFused_isCompiled P.q_pos
        (fun g hg => odd_of_mem_collapseKgExponents P.d_pos hg) h
    · exact compileFast_isCompiled h

/-- `blocks` are the compiled limbs of the steps. -/
def AreLimbs (algo : CompileAlgo) (steps : List (PolyMatrixNTT P.d P.q))
    (blocks : List PackingMatrix) : Prop :=
  List.Forall₂ (fun limb M => limb < P.gadget.ell ∧
      compileLimb P algo (collapseKgExponents P.d) (steps.map columnLimbs) limb = .ok M)
    (List.range P.gadget.ell) blocks

/-- The action of stacked blocks is the sum of the steps. -/
theorem sum_blocks_eq_stepSum {algo : CompileAlgo} {steps : List (PolyMatrixNTT P.d P.q)}
    (hsteps : steps.length = P.d - 2) {blocks : List PackingMatrix}
    (hblocks : AreLimbs algo steps blocks) (body : PolyMatrixNTT P.d P.q) :
    ((blocks.zip (rowLimbs body)).map fun p =>
      ∑ c : Fin P.d, (p.2 c : ZMod P.q) • Poly.ring P.q (p.1.column P.d c)).sum =
        stepSum body steps := by
  have hterm (limb : ℕ) (M : PackingMatrix) (h : limb < P.gadget.ell ∧ compileLimb P algo
      (collapseKgExponents P.d) (steps.map columnLimbs) limb = .ok M) :
      ∑ c : Fin P.d, (P.spiral.fromNttAlloc (body.poly 0 limb) c : ZMod P.q) •
          Poly.ring P.q (M.column P.d c) =
        ((steps.zip (collapseKgExponents P.d)).map fun step =>
          tau step.2 (P.spiral.ring (body.poly 0 limb)) * P.spiral.ring
            (step.1.poly limb 0)).sum := by
    have hM := compileLimb_isCompiled hsteps h.1 h.2
    rw [hM.action fun t ht => odd_of_mem_collapseKgExponents P.d_pos (List.of_mem_zip ht).2,
      List.zip_map_left, List.map_map]
    refine congrArg List.sum (List.map_congr_left fun step _ => ?_)
    exact mul_comm _ _
  rw [rowLimbs, sum_zip_of_forall₂ hblocks hterm, sum_map_range, stepSum]
  -- Exchange the sums over the limbs and over the steps.
  generalize steps.zip (collapseKgExponents P.d) = schedule
  induction schedule with
  | nil => simp
  | cons step schedule ih =>
      simp only [List.map_cons, List.sum_cons, Finset.sum_add_distrib, ih]
      rfl

/-- What compilation keeps of a preprocessed block. -/
structure IsCompiledFrom (pre : QueryPackPreprocessed P) (out : ReinspiringPreprocessed P)
    (steps : List (PolyMatrixNTT P.d P.q)) (last : PolyMatrixNTT P.d P.q) : Prop where
  component : out.aTildeNtt = pre.collapseAFinalNtt
  digits : pre.digitsNtt = steps ++ [last]
  steps_length : steps.length = P.d - 2
  shape : ∀ D ∈ pre.digitsNtt, D.rows = P.gadget.ell ∧ D.cols = 1
  tDoublePrime : out.tDoublePrime = columnLimbs last
  matrix_q : out.hPrime.q = P.q
  matrix_rows : out.hPrime.rows = P.d
  matrix_cols : out.hPrime.cols = P.gadget.ell * P.d
  action : ∀ (body : PolyMatrixNTT P.d P.q) (hy : ℕ → ℕ), (∀ r < P.d, ((hy r : ℕ) : ZMod P.q) =
      ∑ c ∈ Finset.range out.hPrime.cols, ((out.hPrime.words.value r c : ℤ) : ZMod P.q) *
        ((joinLimbs (rowLimbs body)).getD c 0 : ℕ)) →
    Poly.ring P.q (fun r : Fin P.d => hy r) = stepSum body steps

/-- Blocks of one shape can be stacked. -/
theorem hstack_ok {blocks : List PackingMatrix} {d q : ℕ} (hne : blocks ≠ [])
    (hshape : ∀ b ∈ blocks, b.rows = d ∧ b.cols = d ∧ b.q = q) :
    ∃ H, PackingMatrix.hstack blocks = .ok H := by
  cases blocks with
  | nil => exact absurd rfl hne
  | cons first rest =>
      obtain ⟨hrows, -, hq⟩ := hshape first List.mem_cons_self
      obtain ⟨cols, hcols, -⟩ := foldlM_prefix (fun _ _ => True) (first :: rest) 0
        (f := PackingMatrix.hstackCols first.rows first.q) trivial fun done b tail cols hl _ => by
          obtain ⟨hbrows, hbcols, hbq⟩ := hshape b (by rw [hl]; simp)
          refine ⟨cols + b.cols, ?_, trivial⟩
          rw [PackingMatrix.hstackCols, if_neg (by simp [hbrows, hbq, hrows, hq]),
            if_neg (by simp [hbcols, hrows])]
      exact ⟨_, by rw [PackingMatrix.hstack]; simp only [hcols, ok_bind]; rfl⟩

/-- Stacking checked blocks keeps their shape. -/
theorem hstack_eq_ok {blocks : List PackingMatrix} {d q : ℕ} (hne : blocks ≠ [])
    (hshape : ∀ b ∈ blocks, b.rows = d ∧ b.cols = d ∧ b.q = q) {H : PackingMatrix}
    (h : PackingMatrix.hstack blocks = .ok H) :
    H.rows = d ∧ H.q = q ∧ H.cols = (blocks.map PackingMatrix.cols).sum ∧
      H.entry = PackingMatrix.concatEntry blocks := by
  cases blocks with
  | nil => exact absurd rfl hne
  | cons first rest =>
      obtain ⟨hrows, -, hq⟩ := hshape first List.mem_cons_self
      unfold PackingMatrix.hstack at h
      dsimp only at h
      obtain ⟨cols, hcols, h⟩ := bind_eq_ok h
      cases h
      refine ⟨hrows, hq, ?_, rfl⟩
      have hrun : ∀ (bs : List PackingMatrix) (start cols : ℕ),
          bs.foldlM (PackingMatrix.hstackCols first.rows first.q) start = .ok cols →
            cols = start + (bs.map PackingMatrix.cols).sum := by
        intro bs
        induction bs with
        | nil =>
            intro start cols h
            cases h
            rfl
        | cons b bs ih =>
            intro start cols h
            rw [List.foldlM_cons] at h
            obtain ⟨next, hnext, h⟩ := bind_eq_ok h
            unfold PackingMatrix.hstackCols at hnext
            split at hnext; · cases hnext
            split at hnext; · cases hnext
            cases hnext
            rw [ih _ _ h, List.map_cons, List.sum_cons, add_assoc]
      exact (hrun _ _ _ hcols).trans (zero_add _)

theorem sum_cols_eq {blocks : List PackingMatrix} {d : ℕ} (hcols : ∀ b ∈ blocks, b.cols = d) :
    (blocks.map PackingMatrix.cols).sum = blocks.length * d := by
  have hconst : blocks.map PackingMatrix.cols = List.replicate blocks.length d := by
    rw [List.eq_replicate_iff]
    refine ⟨by simp, fun n hn => ?_⟩
    obtain ⟨b, hb, rfl⟩ := List.mem_map.mp hn
    exact hcols b hb
  rw [hconst, List.sum_replicate, smul_eq_mul]

/-! ### Compiled limbs -/

section AreLimbs

variable {algo : CompileAlgo} {steps : List (PolyMatrixNTT P.d P.q)} {blocks : List PackingMatrix}

theorem areLimbs_of_mapM (h : (List.range P.gadget.ell).mapM
    (compileLimb P algo (collapseKgExponents P.d) (steps.map columnLimbs)) = .ok blocks) :
    AreLimbs algo steps blocks :=
  (List.forall₂_and_left _ _).mpr ⟨fun _ hlimb => List.mem_range.mp hlimb, forall₂_of_mapM_eq_ok h⟩

theorem AreLimbs.length (h : AreLimbs algo steps blocks) : blocks.length = P.gadget.ell := by
  rw [← List.Forall₂.length_eq h, List.length_range]

theorem AreLimbs.ne_nil (h : AreLimbs algo steps blocks) : blocks ≠ [] := by
  rintro rfl
  exact P.ell_pos.ne h.length

/-- Every block is compiled. -/
theorem AreLimbs.isCompiled (h : AreLimbs algo steps blocks) (hsteps : steps.length = P.d - 2) :
    ∀ b ∈ blocks, ∃ terms, IsCompiled P.d P.q b terms := by
  intro b hb
  obtain ⟨i, hi, rfl⟩ := List.getElem_of_mem hb
  obtain ⟨hlimb, hcompile⟩ := List.Forall₂.get h (List.Forall₂.length_eq h ▸ hi) hi
  exact ⟨_, compileLimb_isCompiled hsteps hlimb hcompile⟩

theorem AreLimbs.shape (h : AreLimbs algo steps blocks) (hsteps : steps.length = P.d - 2) :
    ∀ b ∈ blocks, b.rows = P.d ∧ b.cols = P.d ∧ b.q = P.q := by
  intro b hb
  obtain ⟨terms, hb⟩ := h.isCompiled hsteps b hb
  exact ⟨hb.rows, hb.cols, hb.modulus⟩

theorem AreLimbs.width (h : AreLimbs algo steps blocks) (hsteps : steps.length = P.d - 2) :
    (blocks.map PackingMatrix.cols).sum = P.gadget.ell * P.d := by
  rw [sum_cols_eq fun b hb => (h.shape hsteps b hb).2.1, h.length]

/-- **The stored matrix acts as the steps do.** -/
theorem AreLimbs.action (h : AreLimbs algo steps blocks) (hsteps : steps.length = P.d - 2)
    {supportsPacked : Bool} {H : PackingMatrix} (hstack : PackingMatrix.hstack blocks = .ok H)
    {M : NativeMatrix} (hM : NativeMatrix.fromCompiled supportsPacked H = .ok M)
    (body : PolyMatrixNTT P.d P.q) {hy : ℕ → ℕ} (hsum : ∀ r < P.d, ((hy r : ℕ) : ZMod P.q) =
      ∑ c ∈ Finset.range M.cols, ((M.words.value r c : ℤ) : ZMod P.q) *
        ((joinLimbs (rowLimbs body)).getD c 0 : ℕ)) :
    Poly.ring P.q (fun r : Fin P.d => hy r) = stepSum body steps := by
  have hshape := h.shape hsteps
  obtain ⟨hrows, hq, hcols, hentry⟩ := hstack_eq_ok h.ne_nil hshape hstack
  obtain ⟨hMrows, hMq, hMcols, hMvalue⟩ := NativeMatrix.fromBlocks_spec hM
  have hwidth : M.cols = (blocks.map PackingMatrix.cols).sum := by
    rw [hMcols, ← hcols]
    simp
  rw [hMq.trans hq, hMrows.trans hrows] at hMvalue
  rw [← sum_blocks_eq_stepSum hsteps h body]
  refine ring_rowSums fun r hr => ?_
  rw [hsum r hr, ← sum_concatEntry (fun b hb => (hshape b hb).2.1)
    (by rw [h.length]; simp [rowLimbs]), hwidth]
  refine Finset.sum_congr rfl fun c hc => ?_
  have hlt := Finset.mem_range.mp hc
  have hcolumn : PackingMatrix.concatEntry [H] r c = PackingMatrix.concatEntry blocks r c := by
    rw [← hentry]
    exact if_pos (hcols ▸ hlt)
  rw [hMvalue r hr c (hwidth ▸ hlt), hcolumn]

end AreLimbs

/-- The digits of a block are those of its steps and the last ones. -/
theorem exists_last {digits : List (PolyMatrixNTT P.d P.q)} (hlen : digits.length = P.d - 1) :
    ∃ last, digits.drop (P.d - 2) = [last] ∧ digits = digits.take (P.d - 2) ++ [last] ∧
      (digits.take (P.d - 2)).length = P.d - 2 := by
  have hd := P.two_le_d
  have hdrop : (digits.drop (P.d - 2)).length = 1 := by
    rw [List.length_drop]
    omega
  obtain ⟨last, hlast⟩ := List.length_eq_one_iff.mp hdrop
  refine ⟨last, hlast, by rw [← hlast, List.take_append_drop], ?_⟩
  rw [List.length_take]
  omega

/-- **What a successful compilation leaves.** -/
theorem preprocessFromInspiring_spec {lib : NumberTheory} {supportsPacked : Bool}
    {pre : QueryPackPreprocessed P} {liftQ : ℕ} {algo : CompileAlgo}
    {out : ReinspiringPreprocessed P}
    (h : preprocessFromInspiring lib supportsPacked pre liftQ algo = .ok out) :
    ∃ steps last, IsCompiledFrom pre out steps last := by
  unfold preprocessFromInspiring at h
  obtain ⟨rp, -, h⟩ := bind_eq_ok h
  split at h; · cases h
  rename_i hlen
  obtain ⟨last, hdrop, hdigits, hsteps⟩ := exists_last (not_not.mp hlen)
  dsimp only at h
  obtain ⟨limbs, hlimbs, h⟩ := bind_eq_ok h
  obtain ⟨rfl, hshape⟩ := digitLimbs_of_forall₂ (forall₂_of_mapM_eq_ok hlimbs)
  rw [hdrop] at h
  dsimp only at h
  obtain ⟨tDoublePrime, htail, h⟩ := bind_eq_ok h
  obtain ⟨hlastShape, rfl⟩ := digitLimbsCoeff_eq_ok htail
  obtain ⟨blocks, hblocks, h⟩ := bind_eq_ok h
  obtain ⟨H, hstack, h⟩ := bind_eq_ok h
  obtain ⟨lift, -, h⟩ := bind_eq_ok h
  obtain ⟨M, hM, h⟩ := bind_eq_ok h
  cases h
  have hareLimbs := areLimbs_of_mapM hblocks
  obtain ⟨hrows, hq, hcols, -⟩ := hstack_eq_ok hareLimbs.ne_nil (hareLimbs.shape hsteps) hstack
  obtain ⟨hMrows, hMq, hMcols, -⟩ := NativeMatrix.fromBlocks_spec hM
  exact ⟨pre.digitsNtt.take (P.d - 2), last, {
    component := rfl
    digits := hdigits
    steps_length := hsteps
    shape := by
      rw [hdigits]
      intro D hD
      rcases List.mem_append.mp hD with hD | hD
      · exact hshape D hD
      · rw [List.mem_singleton.mp hD]
        exact hlastShape
    tDoublePrime := rfl
    matrix_q := hMq.trans hq
    matrix_rows := hMrows.trans hrows
    matrix_cols := by
      rw [hMcols, List.map_singleton, List.sum_singleton, hcols, hareLimbs.width hsteps]
    action := fun body hy hsum => hareLimbs.action hsteps hstack hM body hsum }⟩

/-- Every limb of a block within the limits of the lifted products is compiled. -/
theorem compileLimb_ok (lift : LiftContext P.d P.q) (algo : CompileAlgo)
    {steps : List (PolyMatrixNTT P.d P.q)} (hsteps : steps.length = P.d - 2) (limb : ℕ) :
    ∃ M, compileLimb P algo (collapseKgExponents P.d) (steps.map columnLimbs) limb = .ok M := by
  have hd := P.two_le_d
  have heven := P.two_dvd_d
  have hle : P.q ≤ 2 ^ 62 := lift.q_le.trans (by decide)
  have hpow : MachineWord.IsPowerOfTwo P.d := by
    rw [MachineWord.IsPowerOfTwo, P.d_eq, Nat.log2_two_pow]
  unfold compileLimb
  dsimp only
  split
  · exact ⟨_, rfl⟩
  · rename_i hne2
    have hlen : ((steps.map columnLimbs).map fun step => step.getD limb fun _ => 0).length =
        (collapseKgExponents P.d).length := by
      rw [length_collapseKgExponents, List.length_map, List.length_map, hsteps]
      omega
    have hne : ((steps.map columnLimbs).map fun step => step.getD limb fun _ => 0) ≠ [] := by
      intro hnil
      have hzero := congrArg List.length hnil
      rw [List.length_map, List.length_map, hsteps, List.length_nil] at hzero
      omega
    split
    · exact compileNaiveFused_ok hne hlen
    · refine compileFast_ok hne hlen lift.two_le_q hle hd lift.d_le hpow ?_ fun g hg =>
        ⟨odd_of_mem_collapseKgExponents P.d_pos hg, lt_of_mem_collapseKgExponents P.d_pos hg⟩
      intro t ht
      obtain ⟨step, hstep, rfl⟩ := List.mem_map.mp ht
      obtain ⟨D, -, rfl⟩ := List.mem_map.mp hstep
      by_cases hlimb : limb < (columnLimbs D).length
      · rw [List.getD_eq_getElem _ _ hlimb]
        obtain ⟨j, -, hj⟩ := List.mem_map.mp (List.getElem_mem hlimb)
        intro i
        rw [← hj]
        exact P.spiral.fromNttAlloc_lt _ i
      · rw [List.getD_eq_default _ _ (not_lt.mp hlimb)]
        exact fun _ => P.q_pos

/-- **Compilation succeeds** on digits of the right shape, within the limits of the lifted products
and of the stored matrix. -/
theorem preprocessFromInspiring_ok {lib : NumberTheory} (supportsPacked : Bool) (algo : CompileAlgo)
    {liftQ : ℕ} {rp : ReinspiringParams} (hrp : ReinspiringParams.fromInspiring P liftQ = .ok rp)
    {lift : LiftContext P.d P.q} (hlift : LiftContext.new lib P.d P.q = .ok lift)
    (hwide : P.gadget.ell * P.d ≤ 32768) {pre : QueryPackPreprocessed P}
    (hlen : pre.digitsNtt.length = P.d - 1)
    (hshape : ∀ D ∈ pre.digitsNtt, D.rows = P.gadget.ell ∧ D.cols = 1) :
    ∃ out, preprocessFromInspiring lib supportsPacked pre liftQ algo = .ok out := by
  have hlimbs (D : PolyMatrixNTT P.d P.q) (hD : D ∈ pre.digitsNtt) :
      digitLimbsCoeff D = .ok (columnLimbs D) := by
    rw [digitLimbsCoeff, if_neg (by simp [(hshape D hD).1, (hshape D hD).2])]
    rfl
  have hmap := mapM_eq_ok fun D hD => hlimbs D (List.mem_of_mem_take (i := P.d - 2) hD)
  obtain ⟨last, hdrop, -, hsteps⟩ := exists_last hlen
  have hlast : last ∈ pre.digitsNtt := List.mem_of_mem_drop (by rw [hdrop]; simp)
  obtain ⟨blocks, hblocks⟩ := exists_mapM_eq_ok fun limb
    (_ : limb ∈ List.range P.gadget.ell) => compileLimb_ok lift algo hsteps limb
  have hareLimbs := areLimbs_of_mapM hblocks
  obtain ⟨H, hH⟩ := hstack_ok hareLimbs.ne_nil (hareLimbs.shape hsteps)
  obtain ⟨hrows, hq, hcols, hentry⟩ := hstack_eq_ok hareLimbs.ne_nil (hareLimbs.shape hsteps) hH
  have hwidth : H.cols = P.gadget.ell * P.d := hcols.trans (hareLimbs.width hsteps)
  obtain ⟨M, hM⟩ := NativeMatrix.fromCompiled_ok supportsPacked (m := H)
    (by rw [hq]; exact lift.two_le_q) (by rw [hq]; exact lift.q_le)
    (by rw [hrows]; exact P.d_pos.ne')
    (by rw [hwidth]; exact (Nat.mul_pos P.ell_pos P.d_pos).ne') (by rw [hwidth]; exact hwide)
    (fun r _ c hc => by
      obtain ⟨b, hb, c', -, hcol⟩ := exists_block_column blocks (c := c) (hcols ▸ hc)
      obtain ⟨terms, hb⟩ := hareLimbs.isCompiled hsteps b hb
      rw [hentry, hcol, hq]
      exact hb.entry_lt r c')
  refine ⟨{
    params := rp
    aTildeNtt := pre.collapseAFinalNtt
    hPrime := M
    tDoublePrime := columnLimbs last
    lift }, ?_⟩
  unfold preprocessFromInspiring
  rw [hrp, ok_bind, if_neg (not_not.mpr hlen)]
  simp only [hmap, hdrop, hlimbs last hlast, hblocks, hH, hlift, hM, ok_bind]

end Preprocess

/-! ## The two online runs -/

section Online

variable {keys : PackingKeys P}

/-- The fused terms of tables of known exponents. -/
theorem map_value_halfTerms {body : PolyMatrixNTT P.d P.q} (hbody : BodyShape body P.gadget.ell)
    {exponents : List ℕ} (hodd : ∀ g ∈ exponents, Odd g) (steps : List (PolyMatrixNTT P.d P.q)) :
    (halfTerms body (exponents.map (tauTable P)) steps).map CollapseTerm.value =
      (steps.zip exponents).map fun step =>
        ∑ k : Fin P.gadget.ell, tau step.2 (ringVec (bodyRow body) k) * ringDigits step.1 k := by
  induction exponents generalizing steps with
  | nil => simp [halfTerms]
  | cons g exponents ih =>
      cases steps with
      | nil => simp [halfTerms]
      | cons D steps =>
          have hrest := ih (fun g' hg' => hodd g' (List.mem_cons_of_mem _ hg')) steps
          rw [halfTerms] at hrest
          rw [halfTerms, List.map_cons, List.zipWith_cons_cons, List.map_cons, hrest,
            List.zip_cons_cons, List.map_cons, value_some hbody (hodd g List.mem_cons_self)]
          rfl

/-- **The cascade adds `stepSum`** and the product with the last digits. -/
theorem packB_stepSum (hq : P.q < 2 ^ 62) {pre : QueryPackPreprocessed P}
    {steps : List (PolyMatrixNTT P.d P.q)} {last : PolyMatrixNTT P.d P.q}
    (hdigits : pre.digitsNtt = steps ++ [last]) (hsteps : steps.length = P.d - 2)
    (hshape : ∀ D ∈ pre.digitsNtt, D.rows = P.gadget.ell ∧ D.cols = 1)
    (hkeys : keys.validate = .ok ()) {top : TopKeyImages P} (htop : TopKeyImages.build P = .ok top)
    (workers : Scheduler (CollapseTerm P)) {bScalars : List ℕ} (hb : bScalars.length = P.d) :
    ∃ c2, pre.packB workers bScalars keys top = .ok ⟨pre.collapseAFinalNtt, c2⟩ ∧
      P.spiral.ring c2 = Poly.ring P.q (fun k => vecGet bScalars k) +
        (stepSum keys.kgBody steps + lastSum keys.khBody last) := by
  obtain ⟨hkg, hkh⟩ := shapes_of_validate hkeys
  -- The images that were built have the tables of the two families.
  have hsep : ProbesSeparate P := by
    by_contra hnot
    rw [TopKeyImages.build, tauGPowerTables_panic hnot, error_bind] at htop
    cases htop
  obtain ⟨top', htop', hvalid, hleft, hright⟩ := topImages_build hsep
  obtain rfl : top' = top := Except.ok.inj (htop'.symm.trans htop)
  have htables (e : ℕ → ℕ) (n : ℕ) : ((List.range' 0 n).map fun i => tauTable P (e i)).reverse =
      ((List.range n).map e).reverse.map (tauTable P) := by
    rw [List.map_reverse, List.map_map, List.range_eq_range']
    rfl
  have hd := P.two_le_d
  have heven := P.two_dvd_d
  have hblock : BlockShape top' pre.digitsNtt P.gadget.ell := {
    digits_length := by
      rw [hdigits, List.length_append, hsteps, List.length_singleton]
      omega
    digits_shape := hshape
    left_length := by rw [hleft]; simp [leftTables]
    right_length := by rw [hright]; simp [rightTables] }
  obtain ⟨c2, hrun, hring⟩ := collapseUploadedBodyBStepwise_eq hblock hkg hkh
    (P.spiral.toNttAlloc fun idx => vecGet bScalars idx % P.q)
  rw [← collapseUploadedBodyB_eq_stepwise hq hblock hkg hkh workers] at hrun
  refine ⟨c2, ?_, ?_⟩
  · rw [QueryPackPreprocessed.packB, PackingKeys.validate, validateReferenceBody_ok hkg, ok_bind,
      validateReferenceBody_ok hkh, ok_bind, hvalid, ok_bind,
      QueryPackPreprocessed.packBPrevalidated, if_neg (not_not.mpr hb)]
    simp only [hrun, ok_bind]
  · rw [hring, P.spiral.ring_toNttAlloc fun i =>
      P.spiral.lt_word_of_le (Nat.mod_lt _ P.q_pos).le, Poly.ring_mod]
    congr 1
    -- Cut the steps where the cascade changes to the right half.
    obtain ⟨left, right, last', hcut, hleftLen, hrightLen⟩ := exists_split_digits hblock
    rw [hdigits, ← List.append_assoc] at hcut
    obtain ⟨rfl, hlast⟩ := List.append_inj' hcut rfl
    obtain rfl : last = last' := List.singleton_inj.mp hlast
    rw [hdigits, List.append_assoc, collapseSchedule_append _ _ hleftLen hrightLen]
    rw [hleft, leftTables, htables] at hleftLen ⊢
    rw [hright, rightTables, htables] at hrightLen ⊢
    have hexps := collapseKgExponents_eq P.d_pos
    have hodd (g : ℕ) (hg : g ∈ collapseKgExponents P.d) : Odd g :=
      odd_of_mem_collapseKgExponents P.d_pos hg
    rw [hexps] at hodd
    rw [← List.append_assoc, List.map_append, List.sum_append, stepSum, hexps, List.zip_append]
    · congr 1
      · rw [List.map_append, List.map_append,
          map_value_halfTerms hkg (fun g hg => hodd g (List.mem_append_left _ hg)),
          map_value_halfTerms hkg fun g hg => hodd g (List.mem_append_right _ hg)]
      · rw [List.map_singleton, List.sum_singleton, value_none hkh]
        rfl
    · rw [hleftLen]
      simp

/-- **The compiled pack adds the same.** -/
theorem pack_stepSum {pre : QueryPackPreprocessed P} {rpre : ReinspiringPreprocessed P}
    {steps : List (PolyMatrixNTT P.d P.q)} {last : PolyMatrixNTT P.d P.q}
    (hcompiled : IsCompiledFrom pre rpre steps last) (hkeys : keys.validate = .ok ())
    {bScalars : List ℕ} (hb : bScalars.length = P.d) :
    ∃ c2, rpre.pack bScalars keys = .ok ⟨pre.collapseAFinalNtt, c2⟩ ∧
      P.spiral.ring c2 = Poly.ring P.q (fun k => vecGet bScalars k) +
        (stepSum keys.kgBody steps + lastSum keys.khBody last) := by
  obtain ⟨hkg, hkh⟩ := shapes_of_validate hkeys
  have hlimbs {body : PolyMatrixNTT P.d P.q} (hbody : BodyShape body P.gadget.ell) :
      bodyLimbsCoeff body = .ok (rowLimbs body) := by
    rw [bodyLimbsCoeff, if_neg (by simp [hbody.1, hbody.2])]
    rfl
  have hcanonical (body : PolyMatrixNTT P.d P.q) : ∀ p ∈ rowLimbs body, ∀ i, p i < P.q := by
    intro p hp i
    obtain ⟨j, -, rfl⟩ := List.mem_map.mp hp
    exact P.spiral.fromNttAlloc_lt _ i
  have hreduced : (rowLimbs keys.kgBody).map (fun limb i => limb i % P.q) =
      rowLimbs keys.kgBody := by
    conv_rhs => rw [← List.map_id (rowLimbs keys.kgBody)]
    refine List.map_congr_left fun limb hlimb => funext fun i => ?_
    exact Nat.mod_eq_of_lt (hcanonical _ limb hlimb i)
  obtain ⟨hy, hmul, hvalue⟩ := rpre.hPrime.multiply_spec (y := joinLimbs (rowLimbs keys.kgBody))
    (by rw [length_joinLimbs, hcompiled.matrix_cols]; simp [rowLimbs])
    (fun v hv => by
      obtain ⟨limb, hlimb, i, rfl⟩ := mem_joinLimbs hv
      rw [hcompiled.matrix_q]
      exact hcanonical _ limb hlimb i)
  rw [hcompiled.matrix_q, hcompiled.matrix_rows] at hvalue
  have hlen : (columnLimbs last).length = (rowLimbs keys.khBody).length := by
    simp [columnLimbs, rowLimbs]
  have hne : columnLimbs last ≠ [] := by
    have hell := P.ell_pos
    simp only [columnLimbs, ne_eq, List.map_eq_nil_iff, List.range_eq_nil]
    omega
  have hcolumns : ∀ p ∈ columnLimbs last, ∀ i, p i < P.q := by
    intro p hp i
    obtain ⟨j, -, rfl⟩ := List.mem_map.mp hp
    exact P.spiral.fromNttAlloc_lt _ i
  obtain ⟨z, hsum, -, hz⟩ := rpre.lift.sum_spec hne hlen hcolumns (hcanonical keys.khBody)
  have hlast : Poly.ring P.q z = lastSum keys.khBody last := by
    rw [hz, columnLimbs, rowLimbs, List.zip_map', List.map_map, sum_map_range]
    exact Finset.sum_congr rfl fun k _ => mul_comm _ _
  have hsteps : Poly.ring P.q (fun r : Fin P.d => hy r) = stepSum keys.kgBody steps :=
    hcompiled.action keys.kgBody hy fun r hr => (hvalue r hr).2
  let c2 : Poly P.d := fun i => ((hy i + z i) % P.q + vecGet bScalars i % P.q) % P.q
  refine ⟨P.spiral.toNttAlloc c2, ?_, ?_⟩
  · rw [ReinspiringPreprocessed.pack, if_neg (not_not.mpr hb), hkeys, fromInspiring_ok]
    simp only [hlimbs hkg, hlimbs hkh, hreduced, hmul, hcompiled.tDoublePrime, hsum, ok_bind,
      hcompiled.component]
    rfl
  · rw [P.spiral.ring_toNttAlloc fun i =>
      P.spiral.lt_word_of_le (Nat.mod_lt _ P.q_pos).le, ← hsteps, ← hlast]
    simp only [Poly.ring, ← map_add]
    congr 1
    funext i
    simp only [Pi.add_apply, Nat.cast_add, ZMod.natCast_mod]
    ring

/-- **The compiled pack refines the cascade.**  Whenever compiling a preprocessed block succeeds,
with either algorithm, on any host, the compiled pack returns the ciphertext that `pack_b` returns,
for every body vector, all keys that pass validation and every division of the work. -/
theorem pack_eq_packB {lib : NumberTheory} {supportsPacked : Bool} {pre : QueryPackPreprocessed P}
    {liftQ : ℕ} {algo : CompileAlgo} {rpre : ReinspiringPreprocessed P}
    (hpre : preprocessFromInspiring lib supportsPacked pre liftQ algo = .ok rpre)
    {top : TopKeyImages P} (htop : TopKeyImages.build P = .ok top) {keys : PackingKeys P}
    (hkeys : keys.validate = .ok ()) (workers : Scheduler (CollapseTerm P)) {bScalars : List ℕ}
    (hb : bScalars.length = P.d) :
    ∃ out, rpre.pack bScalars keys = .ok out ∧ pre.packB workers bScalars keys top = .ok out := by
  obtain ⟨steps, last, hcompiled⟩ := preprocessFromInspiring_spec hpre
  have hq : P.q < 2 ^ 62 := by
    have hle := rpre.hPrime.q_le
    rw [hcompiled.matrix_q] at hle
    omega
  obtain ⟨c2, hpack, hring⟩ := pack_stepSum hcompiled hkeys hb
  obtain ⟨c2', hpackB, hring'⟩ := packB_stepSum hq hcompiled.digits hcompiled.steps_length
    hcompiled.shape hkeys htop workers hb
  obtain rfl : c2 = c2' := P.spiral.ring_injective (hring.trans hring'.symm)
  exact ⟨_, hpack, hpackB⟩

/-- A block of the small parameter set, compiled and packed. -/
theorem pack_eq_packB_small : ∃ pre rpre top out,
    QueryPackPreprocessed.build smallParams (crsOfRows smallParams fun k i => (5 * k + i) % 17) =
        .ok pre ∧ preprocessFromInspiring smallNumberTheory false pre 97 .fast = .ok rpre ∧
      TopKeyImages.build smallParams = .ok top ∧
      rpre.pack [3, 1, 4, 16] (PackingKeys.generateFull smallParams
        (smallParams.spiral.toNttAlloc fun i => i) smallError smallError) = .ok out ∧
      pre.packB (Scheduler.perItem _) [3, 1, 4, 16] (PackingKeys.generateFull smallParams
        (smallParams.spiral.toNttAlloc fun i => i) smallError smallError) top = .ok out := by
  let masks : Fin smallParams.d → Poly smallParams.d := fun k i => (5 * k + i) % 17
  have hmasks (k i : Fin smallParams.d) : masks k i < smallParams.q := Nat.mod_lt _ (by decide)
  obtain ⟨aHat, hbuild, -⟩ := queryBuild_eq probesSeparate_smallParams (by decide) hmasks
  obtain ⟨lift, hlift⟩ := liftContext_new_small
  have hparams : ∃ rp, ReinspiringParams.fromInspiring smallParams 97 = .ok rp := ⟨_, rfl⟩
  obtain ⟨rp, hrp⟩ := hparams
  let kg := fixedReferenceKey smallParams REFERENCE_W_SEED
  let pre : QueryPackPreprocessed smallParams :=
    ⟨blockComponent kg (fixedReferenceKey smallParams REFERENCE_V_SEED) aHat, blockDigits kg aHat⟩
  have hlen : pre.digitsNtt.length = smallParams.d - 1 := length_blockDigits kg aHat
  obtain ⟨rpre, hrpre⟩ := preprocessFromInspiring_ok false .fast hrp hlift (by decide) hlen
    fun _ hD => blockDigits_shape kg aHat hD
  obtain ⟨top, htop, -⟩ := topImages_build probesSeparate_smallParams
  let keys := PackingKeys.generateFull smallParams (smallParams.spiral.toNttAlloc fun i => i)
    smallError smallError
  have hkeys : keys.validate = .ok () := rfl
  have hscalars : [3, 1, 4, 16].length = smallParams.d := rfl
  obtain ⟨out, hpack, hpackB⟩ := pack_eq_packB hrpre htop hkeys (Scheduler.perItem _) hscalars
  exact ⟨pre, rpre, top, out, hbuild, hrpre, htop, hpack, hpackB⟩

end Online

end Reinspiring
