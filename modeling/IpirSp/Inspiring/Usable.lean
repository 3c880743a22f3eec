import IpirSp.Inspiring.Agreement
import IpirSp.Inspiring.PreprocessReuse
import IpirSp.Inspiring.SignedDigits
import Mathlib.Data.Nat.Log

/-!
# Usable parameter sets

`RlweParams::new` checks the degree, the modulus and the gadget, and the functions that run on what
it accepts assert what they need.  This module compares the two.  The one assertion that is not
about shapes asks for `z / 2 ≤ q`, and it is the gadget width that decides it: with at least two
digits the width leaves room below the modulus, and with one digit it never does.

`NoPanic` is the absence of a panic, for outcomes of every kind.  `usable_of_digitsFit` runs all
packing functions without one; `usable_iff` puts the width formula in front of it.
-/

namespace Inspiring

open Negacyclic SpiralRs KeySwitch Loops

variable {P : RlweParams}

/-! ## Outcomes without a panic -/

/-- The call returns a value or an error. -/
def NoPanic {α : Type} (out : Outcome α) : Prop := ∀ msg, out ≠ .error (.panic msg)

section NoPanic

variable {α β : Type}

theorem noPanic_ok (a : α) : NoPanic (.ok a : Outcome α) := by
  intro msg h
  cases h

theorem noPanic_err (e : InspiringError) : NoPanic (.error (.err e) : Outcome α) := by
  intro msg h
  cases h

theorem NoPanic.of_eq_ok {out : Outcome α} (h : ∃ a, out = .ok a) : NoPanic out := by
  obtain ⟨a, rfl⟩ := h
  exact noPanic_ok a

theorem NoPanic.bind {out : Outcome α} {f : α → Outcome β} (hout : NoPanic out)
    (hf : ∀ a, out = .ok a → NoPanic (f a)) : NoPanic (out >>= f) := by
  cases out with
  | error e =>
      cases e with
      | err e => exact noPanic_err e
      | panic msg => exact absurd rfl (hout msg)
  | ok a => exact hf a rfl

theorem noPanic_forM {f : α → Outcome Unit} {l : List α} (hf : ∀ a ∈ l, NoPanic (f a)) :
    NoPanic (l.forM f) := by
  induction l with
  | nil => exact noPanic_ok ()
  | cons a l ih =>
      refine (hf a List.mem_cons_self).bind fun _ _ => ih fun b hb => ?_
      exact hf b (List.mem_cons_of_mem _ hb)

end NoPanic

/-! ## The gadget width -/

/-- `get_bits_per` of the polynomial layer. -/
def gadgetWidth (q ell : ℕ) : ℕ := if ell = Nat.clog 2 q then 1 else Nat.clog 2 q / ell + 1

/-- **The width leaves room for signed digits** unless there is only one. -/
theorem half_le_iff {q ell : ℕ} (hq : 3 ≤ q) (hodd : q % 2 = 1) (hell : 0 < ell) :
    2 ^ gadgetWidth q ell / 2 ≤ q ↔ ell ≠ 1 := by
  have hclog : 2 ≤ Nat.clog 2 q := by
    have hlt := (Nat.lt_clog_iff_pow_lt one_lt_two).mpr (show 2 ^ 1 < q by omega)
    omega
  have hhalf : 2 ^ gadgetWidth q ell / 2 = 2 ^ (gadgetWidth q ell - 1) := by
    have hpos : gadgetWidth q ell - 1 + 1 = gadgetWidth q ell := by
      rw [gadgetWidth]
      split
      · rfl
      · rw [Nat.add_sub_cancel]
    rw [← hpos, pow_succ, Nat.mul_div_cancel _ two_pos, Nat.add_sub_cancel]
  rw [hhalf]
  constructor
  · rintro hle rfl
    have hwidth : gadgetWidth q 1 - 1 = Nat.clog 2 q := by
      rw [gadgetWidth, if_neg (by omega), Nat.div_one, Nat.add_sub_cancel]
    rw [hwidth] at hle
    have heq : 2 ^ Nat.clog 2 q = q := le_antisymm hle (Nat.le_pow_clog one_lt_two q)
    have heven : 2 ∣ q := by
      conv_rhs => rw [← heq]
      exact dvd_pow_self 2 (by omega)
    omega
  · intro hne
    have hwidth : gadgetWidth q ell - 1 ≤ Nat.clog 2 q - 1 := by
      rw [gadgetWidth]
      split
      · omega
      · have hdiv : Nat.clog 2 q / ell ≤ Nat.clog 2 q / 2 := Nat.div_le_div_left (by omega) two_pos
        omega
    have hlt : 2 ^ (Nat.clog 2 q - 1) < q := Nat.pow_pred_clog_lt_self one_lt_two (by omega)
    exact (Nat.pow_le_pow_right two_pos hwidth).trans hlt.le

theorem digitsFit_iff (hwidth : P.spiral.getBitsPer P.gadget.ell = gadgetWidth P.q P.gadget.ell) :
    DigitsFit P ↔ P.gadget.ell ≠ 1 := by
  rw [DigitsFit, GadgetParams.z, ← P.bitsPer_eq, hwidth]
  exact half_le_iff P.three_le_q P.q_odd P.ell_pos

/-! ## The functions with their remaining assertions -/

/-- What the digit loop leaves for the top digit. -/
def topQuotient (g : GadgetParams) : ℕ → ℕ → ℕ
  | 0, x => x
  | n + 1, x =>
      let low := x &&& (g.z - 1)
      let rest := x >>> g.bitsPer
      if low ≥ g.z / 2 then topQuotient g n (rest + 1) else topQuotient g n rest

/-- `signed_gadget_invert_alloc` of a build with debug assertions. -/
def signedGadgetInvertDebug (P : RlweParams) (input : Poly P.d) : Outcome (ℕ → Poly P.d) := do
  let digits ← signedGadgetInvertAlloc P input
  if ∀ i, topQuotient P.gadget (P.gadget.ell - 1)
      (if input i ≥ P.q then input i % P.q else input i) ≤ P.gadget.z then .ok digits
  else .error (.panic "assertion failed: x <= z")

/-- `ks_setup`, on the mask and the error that the samplers drew. -/
def ksSetup (P : RlweParams) (sFrom sTo : PolyMatrixNTT P.d P.q) (a e : ℕ → Poly P.d) :
    Outcome (KeySwitchingMatrix P) :=
  if sFrom.rows ≠ 1 ∨ sFrom.cols ≠ 1 ∨ sTo.rows ≠ 1 ∨ sTo.cols ≠ 1 then
    .error (.panic "assertion failed: s_from_ntt.rows == 1")
  else
    let S := P.spiral
    let w : PolyMatrixNTT P.d P.q := .ofRow P.gadget.ell fun k => S.toNttAlloc (S.negRaw (a k))
    let y : PolyMatrixNTT P.d P.q := .ofRow P.gadget.ell fun k =>
      let gadget := S.toNttAlloc fun i => if i = 0 then S.buildGadget P.gadget.ell k else 0
      let scaled := S.scalarMultiply (sFrom.poly 0 0) gadget
      let product := S.multiply (fun _ : Fin 1 => sTo.poly 0 0) fun _ => S.toNttAlloc (a k)
      S.addInto (S.addInto product (S.toNttAlloc (e k))) scaled
    .ok ⟨w.stack y⟩

/-- The quotient is what the balanced digits leave. -/
theorem topQuotient_eq {g : GadgetParams} (hbits : 0 < g.bitsPer) (n x : ℕ) :
    (topQuotient g n x : ℤ) = Gadget.remainder g.z n x := by
  induction n generalizing x with
  | zero => rfl
  | succ n ih =>
      rw [Gadget.remainder, rest_eq hbits, ← ih]
      simp only [topQuotient, low_bits, high_bits]
      split <;> rfl

/-- **The debug assertion of the digit loop holds** for every parameter set. -/
theorem topQuotient_le (P : RlweParams) (x : ℕ) :
    topQuotient P.gadget (P.gadget.ell - 1) (if x ≥ P.q then x % P.q else x) ≤ P.gadget.z := by
  have hlt : (if x ≥ P.q then x % P.q else x) < P.q := by
    split
    · exact Nat.mod_lt _ P.q_pos
    · omega
  have hell : P.gadget.ell - 1 + 1 = P.gadget.ell := Nat.sub_add_cancel P.ell_pos
  have hle := (remainder_le_z P.bitsPer_pos (hell.symm ▸ hlt.le.trans P.q_le_z_pow)).2
  rw [← topQuotient_eq P.bitsPer_pos] at hle
  exact_mod_cast hle

theorem signedGadgetInvertDebug_eq (input : Poly P.d) :
    signedGadgetInvertDebug P input = signedGadgetInvertAlloc P input := by
  unfold signedGadgetInvertDebug signedGadgetInvertAlloc
  split
  · rw [ok_bind, if_pos fun i => topQuotient_le P (input i)]
  · rfl

/-! ## Preprocessing -/

section Preprocess

theorem noPanic_validateReferenceBody (body : PolyMatrixNTT P.d P.q) (label : String) :
    NoPanic (validateReferenceBody P body label) := by
  unfold validateReferenceBody
  split
  · exact noPanic_err _
  · exact noPanic_ok ()

theorem noPanic_validate (keys : PackingKeys P) : NoPanic keys.validate := by
  unfold PackingKeys.validate
  exact (noPanic_validateReferenceBody _ _).bind fun _ _ => noPanic_validateReferenceBody _ _

theorem noPanic_topValidate (top : TopKeyImages P) : NoPanic top.validate := by
  have himages (side : String) (tops : List (PolyMatrixNTT P.d P.q)) :
      NoPanic (validateTopImages side tops) := by
    refine noPanic_forM fun pair _ => ?_
    have hbody := noPanic_validateReferenceBody pair.1 s!"reference {side} kg top"
    dsimp only
    split
    · exact noPanic_err _
    · exact hbody
  unfold TopKeyImages.validate
  dsimp only
  split; · exact noPanic_err _
  split; · exact noPanic_err _
  split; · exact noPanic_err _
  split; · exact noPanic_err _
  exact (noPanic_validateReferenceBody _ _).bind fun _ _ => (himages _ _).bind fun _ _ =>
    himages _ _

/-- Validated images come with a table for every switch. -/
theorem tables_of_validate {top : TopKeyImages P} (h : top.validate = .ok ()) :
    top.kgBodyLeftTables.length = P.d / 2 - 1 ∧ top.kgBodyRightTables.length = P.d / 2 - 1 := by
  unfold TopKeyImages.validate at h
  dsimp only at h
  split at h; · cases h
  split at h; · cases h
  split at h; · cases h
  rename_i hleft
  split at h; · cases h
  rename_i hright
  exact ⟨not_not.mp hleft, not_not.mp hright⟩

/-- A block is refused or becomes the component and the digits of its aggregates. -/
theorem build_cases (hsep : ProbesSeparate P) (hfit : DigitsFit P) (crs : PolyMatrixNTT P.d P.q) :
    (∃ e, PackPublicPreprocessed.build P crs = .error (.err e) ∧
      QueryPackPreprocessed.build P crs = .error (.err e)) ∨
    ∃ aHat : ℕ → Ntt P.d P.q,
      PackPublicPreprocessed.build P crs = .ok ⟨(List.range P.d).map aHat⟩ ∧
      QueryPackPreprocessed.build P crs =
        .ok ⟨blockComponent (fixedReferenceKey P REFERENCE_W_SEED)
            (fixedReferenceKey P REFERENCE_V_SEED) aHat,
          blockDigits (fixedReferenceKey P REFERENCE_W_SEED) aHat⟩ := by
  by_cases hshape : crs.rows ≠ P.d ∨ crs.cols ≠ 1
  · left
    refine ⟨_, if_pos hshape, ?_⟩
    rw [QueryPackPreprocessed.build, PackPublicPreprocessed.build, if_pos hshape]
    rfl
  · right
    obtain ⟨aHat, hpub⟩ := publicBuild_ok hsep
      ⟨not_not.mp (not_or.mp hshape).1, not_not.mp (not_or.mp hshape).2⟩
    refine ⟨aHat, hpub, ?_⟩
    rw [QueryPackPreprocessed.build, hpub, ok_bind]
    exact precomputeReferenceTrace_eq aHat hsep hfit

/-- Preprocessing with full keys. -/
theorem noPanic_packPreprocessed (hsep : ProbesSeparate P) (hfit : DigitsFit P)
    (crs : PolyMatrixNTT P.d P.q) (kg kh : KeySwitchingMatrix P) :
    NoPanic (PackPreprocessed.build P crs kg kh) := by
  unfold PackPreprocessed.build
  rcases build_cases hsep hfit crs with ⟨e, hpub, -⟩ | ⟨aHat, hpub, -⟩
  · rw [hpub]
    exact noPanic_err e
  · rw [hpub, ok_bind, PackPublicPreprocessed.bindKeys]
    split
    · exact noPanic_err _
    · rename_i hkg
      split
      · exact noPanic_err _
      · rename_i hkh
        have hkg' : kg.WellShaped := ⟨not_not.mp (not_or.mp hkg).1, not_not.mp (not_or.mp hkg).2⟩
        have hkh' : kh.WellShaped := ⟨not_not.mp (not_or.mp hkh).1, not_not.mp (not_or.mp hkh).2⟩
        obtain ⟨c2, hcollapse, -⟩ := collapse_eq aHat hfit hkg' hkh' fun _ => 0
        rw [tauGPowerTables_eq hsep, ok_bind]
        simp only [precomputeCollapseAffine, hcollapse, ok_bind]
        exact noPanic_ok _

end Preprocess

/-! ## Packing -/

section Pack

theorem noPanic_batchValidate (batch : LweBatch) : NoPanic (batch.validate P) := by
  unfold LweBatch.validate
  split
  · exact noPanic_err _
  · split
    · exact noPanic_err _
    · exact noPanic_ok ()

theorem noPanic_pack (batch : LweBatch) (pre : PackPreprocessed P) : NoPanic (pack batch pre) := by
  unfold pack
  exact (noPanic_batchValidate batch).bind fun _ _ => noPanic_ok _

/-- Lanes that have not wrapped are reduced. -/
theorem finishLanes_isSome (b : Ntt P.d P.q) {partials : Lanes P}
    (h : ∀ dst, (partials dst).isSome) : ∃ out, finishLanes b partials = some out :=
  ⟨_, dif_pos h⟩

section Bodies

variable {kgBody khBody : PolyMatrixNTT P.d P.q} {topImages : TopKeyImages P}
  {digits : List (PolyMatrixNTT P.d P.q)} {ell : ℕ}

/-- Under the gate every division of the schedule is summed. -/
theorem finishLanes_schedule (hgate : fusedAccumulatorFits P ell)
    (hshape : BlockShape topImages digits ell) (hkg : BodyShape kgBody ell)
    (hkh : BodyShape khBody ell) (b : Ntt P.d P.q) {tasks : TaskTree (CollapseTerm P)}
    (hflat : tasks.flatten = collapseSchedule kgBody khBody topImages digits) :
    ∃ out, finishLanes b (collapsePartials tasks) = some out := by
  refine finishLanes_isSome b fun dst => ?_
  have hfits := sum_total_lt hgate (hflat ▸ (length_collapseSchedule hshape).le)
    (hflat ▸ collapseSchedule_cols hshape hkg hkh) dst
  rw [collapsePartials_eq tasks dst hfits]
  rfl

/-- **The online sum** of well-shaped bodies over a block returns. -/
theorem collapseUploadedBodyB_ok (hshape : BlockShape topImages digits ell)
    (hkg : BodyShape kgBody ell) (hkh : BodyShape khBody ell) (workers : Scheduler (CollapseTerm P))
    (b : Ntt P.d P.q) :
    ∃ out, collapseUploadedBodyB workers b kgBody khBody topImages digits = .ok out := by
  rw [collapseUploadedBodyB, if_neg (not_not.mpr hshape.digits_length), hkg.2]
  by_cases hgate : fusedAccumulatorFits P ell
  · have hlens : ¬(topImages.kgBodyLeftTables.length ≠ P.d / 2 - 1 ∨
        topImages.kgBodyRightTables.length ≠ P.d / 2 - 1) := by
      simp [hshape.left_length, hshape.right_length]
    have hcols : ¬(digits.any fun D => D.cols ≠ 1) = true := by
      simp only [List.any_eq_true, decide_eq_true_eq, not_exists, not_and, not_not]
      exact fun D hD => (hshape.digits_shape D hD).2
    obtain ⟨out, hout⟩ := finishLanes_schedule hgate hshape hkg hkh b (workers.flatten_divide _)
    rw [if_neg (not_not.mpr hgate), if_neg hlens, if_neg hcols, collapseTerms, hout]
    exact ⟨out, rfl⟩
  · rw [if_pos hgate]
    obtain ⟨out, hout, -⟩ := collapseUploadedBodyBStepwise_eq hshape hkg hkh b
    exact ⟨out, hout⟩

/-- **The online sums of a batch** return. -/
theorem collapseUploadedBodyBBatched_ok (hshape : BlockShape topImages digits ell)
    {b : List (Ntt P.d P.q)} {bodies : List (KeyBodies P)} (hlen : b.length = bodies.length)
    (hbodies : ∀ pair ∈ bodies, BodyShape pair.1 ell ∧ BodyShape pair.2 ell)
    (workers : Scheduler (BatchedTerm P)) :
    ∃ out, collapseUploadedBodyBBatched workers b bodies topImages digits = .ok out := by
  have hlens : ¬(topImages.kgBodyLeftTables.length ≠ P.d / 2 - 1 ∨
      topImages.kgBodyRightTables.length ≠ P.d / 2 - 1) := by
    simp [hshape.left_length, hshape.right_length]
  have hcols : ¬(digits.any fun D => D.cols ≠ 1) = true := by
    simp only [List.any_eq_true, decide_eq_true_eq, not_exists, not_and, not_not]
    exact fun D hD => (hshape.digits_shape D hD).2
  rw [collapseUploadedBodyBBatched, if_neg (not_not.mpr hshape.digits_length),
    if_neg (not_not.mpr hlen)]
  by_cases hfits : (bodies.all fun pair => fusedAccumulatorFits P pair.1.cols) = true
  · rw [if_neg (not_not.mpr hfits), if_neg hlens, if_neg hcols]
    refine exists_mapM_eq_ok fun item hitem => ?_
    obtain ⟨-, hidx, -⟩ := List.mem_zipIdx hitem
    have hpos : item.2 < bodies.length := by omega
    have hmem : bodies[item.2] ∈ bodies := List.getElem_mem hpos
    obtain ⟨hkg, hkh⟩ := hbodies _ hmem
    have hgate : fusedAccumulatorFits P ell = true := by
      rw [← hkg.2]
      exact List.all_eq_true.mp hfits _ hmem
    obtain ⟨out, hout⟩ := finishLanes_schedule hgate hshape hkg hkh item.1
      (show ((workers.divide (batchedSchedule topImages digits)).map
        (BatchedTerm.forQuery · bodies[item.2])).flatten = _ by
          rw [TaskTree.flatten_map, workers.flatten_divide, batchedSchedule_forQuery])
    refine ⟨out, ?_⟩
    simp only [batchedPartials_apply (List.getElem?_eq_getElem hpos), hout, overflowPanic]
  · rw [if_pos hfits]
    refine exists_mapM_eq_ok fun item hitem => ?_
    obtain ⟨hkg, hkh⟩ := hbodies _ (List.of_mem_zip hitem).2
    obtain ⟨out, hout, -⟩ := collapseUploadedBodyBStepwise_eq hshape hkg hkh item.1
    exact ⟨out, hout⟩

end Bodies

/-- The digits of a block and validated tables. -/
theorem blockShape {kg : KeySwitchingMatrix P} (aHat : ℕ → Ntt P.d P.q) {top : TopKeyImages P}
    (htop : top.validate = .ok ()) : BlockShape top (blockDigits kg aHat) P.gadget.ell where
  digits_length := length_blockDigits kg aHat
  digits_shape _ hD := blockDigits_shape kg aHat hD
  left_length := (tables_of_validate htop).1
  right_length := (tables_of_validate htop).2

/-- **`pack_b`** over a built block, on any request. -/
theorem noPanic_packB (hsep : ProbesSeparate P) (hfit : DigitsFit P) {crs : PolyMatrixNTT P.d P.q}
    {pre : QueryPackPreprocessed P} (hpre : QueryPackPreprocessed.build P crs = .ok pre)
    (workers : Scheduler (CollapseTerm P)) (bScalars : List ℕ) (keys : PackingKeys P)
    (top : TopKeyImages P) : NoPanic (pre.packB workers bScalars keys top) := by
  rcases build_cases hsep hfit crs with ⟨e, -, hbuild⟩ | ⟨aHat, -, hbuild⟩
  · cases hpre.symm.trans hbuild
  · obtain rfl := Except.ok.inj (hpre.symm.trans hbuild)
    unfold QueryPackPreprocessed.packB
    refine (noPanic_validate keys).bind fun _ hkeys => (noPanic_topValidate top).bind fun _ htop =>
      ?_
    obtain ⟨hkg, hkh⟩ := shapes_of_validate hkeys
    unfold QueryPackPreprocessed.packBPrevalidated
    split
    · exact noPanic_err _
    · refine (NoPanic.of_eq_ok ?_).bind fun _ _ => noPanic_ok _
      exact collapseUploadedBodyB_ok (blockShape aHat htop) hkg hkh workers _

/-- The contexts of a validated batch are aggregated. -/
theorem aggregate_ok {batch : LweBatch} (hvalid : batch.validate P = .ok ()) :
    ∃ agg, (batch.inner.mapM (transform P) >>= aggregate P) = .ok agg ∧ agg.aHat.length = P.d := by
  obtain ⟨hlen, hbatch⟩ := LweBatch.shape_of_validate hvalid
  rw [mapM_eq_ok fun ct hct => transform_eq (hbatch ct hct), ok_bind, aggregate,
    if_neg (by simp [hlen])]
  refine foldlM_prefix (fun _ (acc : IRCtx P) => acc.aHat.length = P.d) _ _ (by simp) ?_
  intro done item rest acc hsplit hacc
  have hitem : item.1.aHat.length = P.d := by
    have hmem : item ∈ _ := hsplit ▸ List.mem_append_right done List.mem_cons_self
    obtain ⟨ct, -, hct⟩ := List.mem_map.mp (List.fst_mem_of_mem_zipIdx hmem)
    rw [← hct]
    simp
  refine ⟨_, if_neg (not_not.mpr hitem), ?_⟩
  simp [hacc, hitem]

/-- **The all-online path** on a validated batch and a well-shaped key pair. -/
theorem noPanic_packAllOnline (hfit : DigitsFit P) {batch : LweBatch}
    (hvalid : batch.validate P = .ok ()) {kg kh : KeySwitchingMatrix P} (hkg : kg.WellShaped)
    (hkh : kh.WellShaped) : NoPanic (packAllOnline batch kg kh) := by
  obtain ⟨⟨aHat, bTilde⟩, hagg, hlen⟩ := aggregate_ok hvalid
  have hslots : aHat = (List.range P.d).map fun i => aHat.getD i P.spiral.zeroNtt := by
    refine List.ext_getElem (by simpa using hlen) fun i hi _ => ?_
    rw [List.getElem_map, List.getElem_range, List.getD_eq_getElem _ _ hi]
  obtain ⟨c2, hcollapse, -⟩ :=
    collapse_eq (fun i => aHat.getD i P.spiral.zeroNtt) hfit hkg hkh bTilde
  rw [← hslots] at hcollapse
  refine NoPanic.of_eq_ok ⟨⟨blockComponent kg kh fun i => aHat.getD i P.spiral.zeroNtt, c2⟩, ?_⟩
  unfold packAllOnline
  rw [hagg, ok_bind]
  simp only [onlineImages_eq]
  exact hcollapse

end Pack

/-! ## Which parameter sets are usable -/

/-- No assertion stops a function of the crate: decomposition, key generation, preprocessing and
packing return on canonical inputs, and end in an error at worst on others. -/
structure Usable (P : RlweParams) : Prop where
  half_le : P.gadget.z / 2 ≤ P.q
  coverage : P.q ≤ P.gadget.z ^ P.gadget.ell
  decompose : ∀ input, ∃ digits, signedGadgetInvertDebug P input = .ok digits
  setup : ∀ (sFrom sTo : Ntt P.d P.q) (a e : ℕ → Poly P.d), ∃ k,
    ksSetup P (.ofCol 1 fun _ => sFrom) (.ofCol 1 fun _ => sTo) a e = .ok k ∧ k.WellShaped
  switch : ∀ k : KeySwitchingMatrix P, k.WellShaped → ∀ c1 c2, ∃ out, ksSwitch k c1 c2 = .ok out
  generate : ∀ (secretNtt : Ntt P.d P.q) (kgError khError : ℕ → Poly P.d),
    (PackingKeys.generateFull P secretNtt kgError khError).validate = .ok ()
  keyPair : ∀ keys : PackingKeys P, NoPanic keys.toKeyPair
  top : ∃ top, TopKeyImages.build P = .ok top ∧ top.validate = .ok ()
  build : ∀ crs : PolyMatrixNTT P.d P.q, NoPanic (QueryPackPreprocessed.build P crs) ∧
    (crs.rows = P.d → crs.cols = 1 → ∃ pre, QueryPackPreprocessed.build P crs = .ok pre)
  buildWithTop : ∀ crs top, TopKeyImages.build P = .ok top →
    NoPanic (QueryPackPreprocessed.buildWithTop P crs top)
  buildWithKeys : ∀ crs kg kh, NoPanic (PackPreprocessed.build P crs kg kh)
  pack : ∀ (batch : LweBatch) (pre : PackPreprocessed P), NoPanic (pack batch pre)
  packB : ∀ crs pre, QueryPackPreprocessed.build P crs = .ok pre → ∀ workers bScalars keys top,
    NoPanic (pre.packB workers bScalars keys top)
  packBatched : ∀ crs pre, QueryPackPreprocessed.build P crs = .ok pre →
    ∀ (workers : Scheduler (BatchedTerm P)) (b : List (Ntt P.d P.q)) (keys : List (PackingKeys P))
      (top : TopKeyImages P), b.length = keys.length → (∀ k ∈ keys, k.validate = .ok ()) →
      top.validate = .ok () → ∃ out, collapseUploadedBodyBBatched workers b
        (keys.map fun k => (k.kgBody, k.khBody)) top pre.digitsNtt = .ok out
  packAllOnline : ∀ batch : LweBatch, batch.validate P = .ok () → ∀ kg kh : KeySwitchingMatrix P,
    kg.WellShaped → kh.WellShaped → NoPanic (packAllOnline batch kg kh)

/-- **Room for signed digits is all that the functions need.** -/
theorem usable_of_digitsFit (hsep : ProbesSeparate P) (hfit : DigitsFit P) : Usable P where
  half_le := hfit
  coverage := P.q_le_z_pow
  decompose input := by
    have hassert : P.gadget.z / 2 ≤ P.q := hfit
    rw [signedGadgetInvertDebug_eq, signedGadgetInvertAlloc, if_pos hassert]
    exact ⟨_, rfl⟩
  setup sFrom sTo a e := ⟨_, rfl, rfl, rfl⟩
  switch k hk c1 c2 := ⟨_, ksSwitch_eq hfit hk c1 c2⟩
  generate secretNtt kgError khError := by
    rw [PackingKeys.validate, validateReferenceBody_ok ⟨rfl, rfl⟩, ok_bind,
      validateReferenceBody_ok ⟨rfl, rfl⟩]
  keyPair keys := by
    unfold PackingKeys.toKeyPair
    exact (noPanic_validate keys).bind fun _ _ => noPanic_ok _
  top := by
    obtain ⟨top, htop, hvalid, -⟩ := topImages_build hsep
    exact ⟨top, htop, hvalid⟩
  build crs := by
    rcases build_cases hsep hfit crs with ⟨e, hpub, hbuild⟩ | ⟨aHat, -, hbuild⟩
    · rw [hbuild]
      refine ⟨noPanic_err e, fun hrows hcols => ?_⟩
      obtain ⟨aHat, hok⟩ := publicBuild_ok hsep ⟨hrows, hcols⟩
      cases hpub.symm.trans hok
    · rw [hbuild]
      exact ⟨noPanic_ok _, fun _ _ => ⟨_, rfl⟩⟩
  buildWithTop crs top htop := by
    rcases build_cases hsep hfit crs with ⟨e, hpub, -⟩ | ⟨aHat, hpub, -⟩
    · unfold QueryPackPreprocessed.buildWithTop
      refine (noPanic_topValidate top).bind fun _ _ => ?_
      rw [hpub]
      exact noPanic_err e
    · rw [buildWithTop_eq_block hfit htop hpub]
      exact noPanic_ok _
  buildWithKeys := noPanic_packPreprocessed hsep hfit
  pack := noPanic_pack
  packB _ _ hpre := noPanic_packB hsep hfit hpre
  packBatched crs pre hpre workers b keys top hlen hkeys htop := by
    rcases build_cases hsep hfit crs with ⟨e, -, hbuild⟩ | ⟨aHat, -, hbuild⟩
    · cases hpre.symm.trans hbuild
    · obtain rfl := Except.ok.inj (hpre.symm.trans hbuild)
      refine collapseUploadedBodyBBatched_ok (blockShape aHat htop) (by simpa using hlen) ?_ workers
      intro pair hpair
      obtain ⟨k, hk, rfl⟩ := List.mem_map.mp hpair
      exact shapes_of_validate (hkeys k hk)
  packAllOnline _ hvalid _ _ hkg hkh := noPanic_packAllOnline hfit hvalid hkg hkh

/-- The panic of the digit loop. -/
def digitsPanic : Failure InspiringError := .panic "signed digits must be representable modulo q"

theorem ksDigitsNttFromC1_panic (hfit : ¬DigitsFit P) (c1 : Ntt P.d P.q) :
    ksDigitsNttFromC1 P c1 = .error digitsPanic := by
  have hassert : ¬P.gadget.z / 2 ≤ P.q := hfit
  rw [ksDigitsNttFromC1, signedGadgetInvertAlloc, if_neg hassert]
  rfl

/-- **Without that room every block panics.** -/
theorem queryBuild_panic_of_not_fit (hsep : ProbesSeparate P) (hfit : ¬DigitsFit P)
    {crs : PolyMatrixNTT P.d P.q} (hshape : crs.rows = P.d ∧ crs.cols = 1) :
    QueryPackPreprocessed.build P crs = .error digitsPanic := by
  obtain ⟨aHat, hpub⟩ := publicBuild_ok hsep hshape
  have hkg := fixedReferenceKey_wellShaped (P := P) REFERENCE_W_SEED
  have hsteps : P.d / 2 - 1 = halfSteps P := rfl
  rw [QueryPackPreprocessed.build, hpub, ok_bind, precomputeReferenceTrace, tauGPowerTables_eq hsep]
  simp only [ok_bind, map_leftTables, map_rightTables, take_half, drop_half,
    ofVec_map_range, hsteps]
  -- at degree two no half has a switch, and the merge is the first to decompose
  rcases hn : halfSteps P with _ | n
  · simp [collectHalfDigits, stackBelow, ksDigitsNttFromC1_panic hfit]
  · have hstack : stackBelow aHat (n + 1) = aHat n :: stackBelow aHat n := by
      simp [stackBelow, List.range_succ]
    have hleft (b : Ntt P.d P.q) : collectHalfDigits
        ((List.range (n + 1)).map fun i => keyImage (fixedReferenceKey P REFERENCE_W_SEED)
          (leftExp P.d i)) (aHat (n + 1)) (stackBelow aHat (n + 1)) b = .error digitsPanic := by
      rw [hstack, collectHalfDigits, index, length_stackBelow]
      simp [ksDigitsNttFromC1_panic hfit]
    rw [hleft]
    rfl

/-- **A parameter set is usable exactly if its gadget has more than one digit**, at the width that
the polynomial layer gives it and with probes that separate the slots. -/
theorem usable_iff (P : RlweParams)
    (hwidth : P.spiral.getBitsPer P.gadget.ell = gadgetWidth P.q P.gadget.ell)
    (hsep : ProbesSeparate P) : Usable P ↔ P.gadget.ell ≠ 1 := by
  rw [← digitsFit_iff hwidth]
  constructor
  · intro h
    exact h.half_le
  · intro hfit
    exact usable_of_digitsFit hsep hfit

/-- The small parameter set is usable. -/
theorem usable_iff_small : Usable smallParams :=
  (usable_iff smallParams (by decide) probesSeparate_smallParams).mpr (by decide)

/-! ## A gadget of one digit -/

/-- A layer at degree eight modulo `12289` with the widths of `get_bits_per`. -/
def unaryLayer : ReferenceData 8 12289 where
  logLen := 3
  d_eq := rfl
  one_lt := by decide
  lt_word := by decide
  root := 4134
  root_pow := by decide
  exp s := 2 * s + 1
  odd_exp s := ⟨s, rfl⟩
  exp_lt s := by omega
  exp_injective s t h := by
    refine Fin.ext ?_
    dsimp only at h
    omega
  dInv := 10753
  dInv_mul := by decide
  bitsPer ell := gadgetWidth 12289 ell
  random _ k i := (3 * k + 1) * i * i + 5 * i

/-- The parameter set that `new` makes of a gadget of one digit. -/
def unaryParams : RlweParams where
  d := 8
  q := 12289
  p := 4
  sigmaChi := .finite false 3 0
  gadget := ⟨15, 1⟩
  delta := 3072
  dInv := 10753
  spiral := unaryLayer.params
  two_le_d := by decide
  three_le_q := by decide
  q_odd := by decide
  two_le_p := smallParams.two_le_d
  p_le_q := by decide
  sigmaChi_pos := by decide
  bitsPer_pos := by decide
  bitsPer_lt := by decide
  ell_pos := by decide
  coverage := by decide
  bitsPer_eq := by decide
  delta_eq := by decide
  dInv_lt := by decide
  dInv_mul := by decide

/-- An `init` that knows one layer. -/
def unaryInit : SpiralInit := fun d q =>
  if h : d = 8 ∧ q = 12289 then some (h.1 ▸ h.2 ▸ unaryLayer.params) else none

theorem modInverse_unary : modInverse 8 12289 = some 10753 := by
  have hloop : modInverseLoop 12289 8 0 1 = (1, -1536) := by
    rw [modInverseLoop, dif_neg (by decide), modInverseLoop, dif_neg (by decide), modInverseLoop]
    rfl
  rw [modInverse, hloop]
  rfl

theorem new_unary :
    RlweParams.new unaryInit 8 12289 4 (.finite false 3 0) ⟨15, 1⟩ = .ok unaryParams := by
  have hinit : unaryInit 8 12289 = some unaryLayer.params := dif_pos ⟨rfl, rfl⟩
  unfold RlweParams.new
  simp only
  rw [dif_neg (by decide), dif_neg (by decide), dif_neg (by decide), dif_neg (by decide),
    dif_neg (by decide), dif_neg (by decide), dif_neg (by decide)]
  split
  · rename_i hnone
    rw [modInverse_unary] at hnone
    cases hnone
  · rename_i dInv hsome
    obtain rfl := Option.some.inj (modInverse_unary.symm.trans hsome)
    rfl

theorem probesSeparate_unaryParams : ProbesSeparate unaryParams := by decide

/-- **An accepted parameter set panics**: the width that `new` insists on is too wide for the digit
loop, so decomposing any polynomial and building any block ends in its assertion. -/
theorem unary_gadget_panics :
    RlweParams.new unaryInit 8 12289 4 (.finite false 3 0) ⟨15, 1⟩ = .ok unaryParams ∧
      unaryParams.spiral.getBitsPer 1 = gadgetWidth 12289 1 ∧
      ¬unaryParams.gadget.z / 2 ≤ unaryParams.q ∧
      signedGadgetInvertAlloc unaryParams (fun _ => 0) =
        .error (.panic "signed digits must be representable modulo q") ∧
      QueryPackPreprocessed.build unaryParams (crsOfRows unaryParams fun _ _ => 0) =
        .error (.panic "signed digits must be representable modulo q") := by
  have hfit : ¬unaryParams.gadget.z / 2 ≤ unaryParams.q := by decide
  refine ⟨new_unary, rfl, hfit, if_neg hfit, ?_⟩
  exact queryBuild_panic_of_not_fit probesSeparate_unaryParams hfit ⟨rfl, rfl⟩

end Inspiring
