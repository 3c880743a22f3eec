import IpirSp.Reinspiring.AggregateMasks
import IpirSp.Reinspiring.Compile
import IpirSp.Reinspiring.NativeMatrix
import IpirSp.Reinspiring.NativeSetup

/-!
# Building a native block

`build` aggregates the masks of one block, orders the traces into two chains, collapses each chain
with the generator key and, in one-mask mode, the two results with the conjugation key.  The digits
of the collapse are compiled into a matrix; the digits of the last step become the leftover operand.
In two-mask mode the last step is left out and both masks are published.

`traceHalf` records for every step the polynomial that it decomposes and its digits.
`BuiltFor` says what every block of a setup satisfies, and `build_builtFor` that every build gives
it.
-/

namespace Reinspiring

open SpiralRs Inspiring Loops MachineWord

variable {d q : ℕ} {P : NativeParams d q}

/-- A block: `NativePreprocessed`. -/
structure NativePreprocessed (P : NativeParams d q) where
  id : Digest
  a : Poly d
  aOther : Option (Poly d)
  h : NativeMatrix
  leftover : Option (PreparedLiftOperand d q)
  lift : LiftContext d q

section Code

/-- The powers of five that order a chain. -/
def chainExponents (d : ℕ) : List ℕ := List.iterate (fun g => g * 5 % (2 * d)) 1 (d / 2)

/-- `agg[i]`. -/
def aggAt (agg : Fin d → Poly d) (i : ℕ) : Poly d := if h : i < d then agg ⟨i, h⟩ else fun _ => 0

/-- The first half of `slots`. -/
def leftSlots (agg : Fin d → Poly d) : List (Poly d) :=
  (chainExponents d).map fun g => aggAt agg ((g - 1) / 2)

/-- The second half of `slots`. -/
def rightSlots (agg : Fin d → Poly d) : List (Poly d) :=
  (chainExponents d).map fun g => aggAt agg (((2 * d - g) % (2 * d) - 1) / 2)

/-- One step of a chain: the polynomial it decomposes and its digits. -/
abbrev TraceStep (d : ℕ) := Poly d × List (Poly d)

/-- One step of `trace_half`. -/
def traceStep (lib : NumberTheory) (P : NativeParams d q) (lift : LiftContext d q)
    (publicW : PreparedPublicDot d q) (state : Poly d × List (TraceStep d))
    (item : Poly d × ℕ) : Result (Poly d × List (TraceStep d)) := do
  let ds ← decompose P state.1
  match lib.invertUintMod item.2 (2 * d) with
  | none => .error (.panic "called `Option::unwrap()` on a `None` value")
  | some inverse =>
      let unrotated := ds.map fun digit => tauCoeffs digit inverse q
      let update := tauCoeffs (← lift.publicDot publicW unrotated) item.2 q
      .ok (fun i => item.1 i + update i &&& (q - 1), state.2 ++ [(state.1, ds)])

/-- `trace_half`: what is left in slot zero of the half, and the steps. -/
def traceHalf (lib : NumberTheory) (P : NativeParams d q) (lift : LiftContext d q)
    (publicW : PreparedPublicDot d q) (half : List (Poly d)) (exps : List ℕ) :
    Result (Poly d × List (TraceStep d)) :=
  match half.reverse with
  | [] => .error (.panic "attempt to subtract with overflow")
  | last :: rest => (rest.zip exps).foldlM (traceStep lib P lift publicW) (last, [])

/-- What the trace stage leaves. -/
structure NativeTrace (d q : ℕ) where
  lift : LiftContext d q
  steps : List (TraceStep d)
  left : Poly d
  right : Poly d
  /-- The digits of the last step, in one-mask mode. -/
  last : Option (List (Poly d))
  a : Poly d

/-- The last step of the trace, with the published mask. -/
def lastStep (S : NativeSetup P) (lift : LiftContext d q) (left right : Poly d) (twoMask : Bool) :
    Result (Option (List (Poly d)) × Poly d) :=
  if twoMask then .ok (none, left)
  else do
    let publicV ← lift.preparePublicDot S.v P.digitBound
    let last ← decompose P right
    let update ← lift.publicDot publicV last
    .ok (some last, fun i => left i + update i &&& (q - 1))

/-- The aggregation and trace stages of `build_internal_screened`. -/
def traceMasks (lib : NumberTheory) (S : NativeSetup P) (masks : List (Poly d)) (twoMask : Bool) :
    Result (NativeTrace d q) :=
  if hlen : masks.length ≠ d then invalidParams "expected d mask rows"
  else do
    masks.forM (validatePoly P)
    let lift ← LiftContext.new lib d q
    let agg ← aggregateMasks q fun j : Fin d => masks.get (j.cast (not_not.mp hlen).symm)
    let publicW ← lift.preparePublicDot S.w P.digitBound
    let exponents := collapseKgExponents d
    let (left, leftSteps) ←
      traceHalf lib P lift publicW (leftSlots agg) (exponents.take (d / 2 - 1))
    let (right, rightSteps) ←
      traceHalf lib P lift publicW (rightSlots agg) (exponents.drop (d / 2 - 1))
    let (last, a) ← lastStep S lift left right twoMask
    .ok ⟨lift, leftSteps ++ rightSteps, left, right, last, a⟩

/-- The compiled block of digit `j`. -/
def compileDigit (q : ℕ) (steps : List (TraceStep d)) (j : ℕ) :
    Result PackingMatrix :=
  if d = 2 then .ok (PackingMatrix.zero d d q)
  else compileFast (steps.map fun step => step.2.getD j fun _ => 0) (collapseKgExponents d) q

/-- The compiled matrix of `build_internal_screened`. -/
def compileMatrix (P : NativeParams d q) (supportsPacked : Bool) (trace : NativeTrace d q) :
    Result NativeMatrix := do
  let blocks ← (List.range P.ell).mapM (compileDigit q trace.steps)
  NativeMatrix.fromBlocks supportsPacked blocks

/-- The block that `build_internal_screened` returns, once its leftover operand is prepared. -/
def NativeTrace.toBlock (S : NativeSetup P) (trace : NativeTrace d q) (h : NativeMatrix) :
    Result (NativePreprocessed P) :=
  match trace.last with
  | none => .ok ⟨S.id, trace.a, some trace.right, h, none, trace.lift⟩
  | some last => do
      let leftover ← trace.lift.preparePublic last
      .ok ⟨S.id, trace.a, none, h, some leftover, trace.lift⟩

/-- The compilation stage of `build_internal_screened`. -/
def compileTrace (supportsPacked : Bool) (S : NativeSetup P) (trace : NativeTrace d q) :
    Result (NativePreprocessed P) := do
  let h ← compileMatrix P supportsPacked trace
  trace.toBlock S h

/-- `build` and `build_two_mask`. -/
def NativePreprocessed.build (lib : NumberTheory) (supportsPacked : Bool) (S : NativeSetup P)
    (masks : List (Poly d)) (twoMask : Bool) : Result (NativePreprocessed P) := do
  let trace ← traceMasks lib S masks twoMask
  compileTrace supportsPacked S trace

end Code

/-! ## What every block satisfies -/

section Built

variable {lib : NumberTheory}

/-- What holds of every block that was built for a setup. -/
structure NativePreprocessed.BuiltFor (lib : NumberTheory) (S : NativeSetup P)
    (B : NativePreprocessed P) : Prop where
  lift_eq : LiftContext.new lib d q = .ok B.lift
  id_eq : B.id = S.id
  q_eq : B.h.q = q
  rows_eq : B.h.rows = d
  cols_eq : B.h.cols = P.ell * d
  a_lt : ∀ i, B.a i < q
  other_lt : ∀ other, B.aOther = some other → ∀ i, other i < q
  two_mask : B.aOther ≠ none → B.leftover = none
  one_mask : B.aOther = none → ∃ op last, B.leftover = some op ∧
    op.transforms = last.map B.lift.limbOf ∧ op.Fits B.lift (q / 2) last ∧ last.length = P.ell ∧
    ∀ digit ∈ last, ∀ i, (centered (digit i) q).natAbs ≤ P.digitBound

theorem aggregateMasks_lt (P : NativeParams d q) {masks : Fin d → Poly d} {agg : Fin d → Poly d}
    (h : aggregateMasks q masks = .ok agg) (r i : Fin d) : agg r i < q := by
  unfold aggregateMasks at h
  dsimp only at h
  split at h
  · cases h
  · cases h
    exact mask_lt P.isPowerOfTwo _

theorem aggAt_lt (P : NativeParams d q) {agg : Fin d → Poly d} (hagg : ∀ r i, agg r i < q) (n : ℕ)
    (i : Fin d) : aggAt agg n i < q := by
  unfold aggAt
  split
  · exact hagg _ i
  · exact P.q_pos

/-- The result of a chain is reduced. -/
theorem traceHalf_lt {lift : LiftContext d q} {publicW : PreparedPublicDot d q}
    {half : List (Poly d)} {exps : List ℕ} {out : Poly d × List (TraceStep d)}
    (h : traceHalf lib P lift publicW half exps = .ok out) (hhalf : ∀ a ∈ half, ∀ i, a i < q) :
    ∀ i, out.1 i < q := by
  have hrun (items : List (Poly d × ℕ)) (start : Poly d × List (TraceStep d))
      (hstart : ∀ i, start.1 i < q)
      (hfold : items.foldlM (traceStep lib P lift publicW) start = .ok out) :
      ∀ i, out.1 i < q := by
    induction items generalizing start with
    | nil =>
        cases hfold
        exact hstart
    | cons item items ih =>
        rw [List.foldlM_cons] at hfold
        obtain ⟨next, hnext, hrest⟩ := bind_eq_ok hfold
        refine ih next ?_ hrest
        unfold traceStep at hnext
        obtain ⟨ds, -, hnext⟩ := bind_eq_ok hnext
        split at hnext
        · cases hnext
        · obtain ⟨update, -, hnext⟩ := bind_eq_ok hnext
          cases hnext
          exact fun i => mask_lt P.isPowerOfTwo _
  unfold traceHalf at h
  split at h
  · cases h
  · next last rest hrev =>
    refine hrun _ _ (hhalf last ?_) h
    rw [← List.mem_reverse, hrev]
    exact List.mem_cons_self

/-- The last step in either mode. -/
theorem lastStep_spec {S : NativeSetup P} {lift : LiftContext d q} {left right : Poly d}
    {twoMask : Bool} {last : Option (List (Poly d))} {a : Poly d} (hleft : ∀ i, left i < q)
    (h : lastStep S lift left right twoMask = .ok (last, a)) :
    (∀ i, a i < q) ∧ last.isNone = twoMask ∧
      ∀ digits, last = some digits → digits = (List.range P.ell).map (P.limb right) := by
  unfold lastStep at h
  split at h
  · next htwo =>
    cases h
    exact ⟨hleft, htwo.symm, fun _ hnone => by cases hnone⟩
  · next hone =>
    obtain ⟨publicV, -, h⟩ := bind_eq_ok h
    obtain ⟨digits, hdigits, h⟩ := bind_eq_ok h
    obtain ⟨update, -, h⟩ := bind_eq_ok h
    cases h
    refine ⟨fun i => mask_lt P.isPowerOfTwo _, by simpa using hone, ?_⟩
    intro digits' heq
    cases heq
    unfold decompose at hdigits
    obtain ⟨-, -, hdigits⟩ := bind_eq_ok hdigits
    cases hdigits
    rfl

/-- What the trace stage leaves. -/
theorem traceMasks_spec {S : NativeSetup P} {masks : List (Poly d)} {twoMask : Bool}
    {trace : NativeTrace d q} (h : traceMasks lib S masks twoMask = .ok trace) :
    LiftContext.new lib d q = .ok trace.lift ∧ (∀ i, trace.a i < q) ∧ (∀ i, trace.right i < q) ∧
      trace.last.isNone = twoMask ∧ ∀ digits, trace.last = some digits →
      digits = (List.range P.ell).map (P.limb trace.right) := by
  unfold traceMasks at h
  split at h
  · cases h
  · obtain ⟨-, -, h⟩ := bind_eq_ok h
    obtain ⟨lift, hlift, h⟩ := bind_eq_ok h
    obtain ⟨agg, hagg, h⟩ := bind_eq_ok h
    obtain ⟨publicW, -, h⟩ := bind_eq_ok h
    obtain ⟨⟨left, leftSteps⟩, hleft, h⟩ := bind_eq_ok h
    obtain ⟨⟨right, rightSteps⟩, hright, h⟩ := bind_eq_ok h
    obtain ⟨⟨last, a⟩, hlast, h⟩ := bind_eq_ok h
    cases h
    have hslots (index : ℕ → ℕ) : ∀ poly ∈ (chainExponents d).map fun g => aggAt agg (index g),
        ∀ i, poly i < q := by
      intro poly hpoly
      obtain ⟨g, -, rfl⟩ := List.mem_map.mp hpoly
      exact aggAt_lt P (aggregateMasks_lt P hagg) _
    have hleftLt := traceHalf_lt hleft (hslots fun g => (g - 1) / 2)
    have hrightLt := traceHalf_lt hright (hslots fun g => ((2 * d - g) % (2 * d) - 1) / 2)
    obtain ⟨ha, hmode, hdigits⟩ := lastStep_spec hleftLt hlast
    exact ⟨hlift, ha, hrightLt, hmode, hdigits⟩

theorem compileDigit_shape {steps : List (TraceStep d)} {j : ℕ} {M : PackingMatrix}
    (h : compileDigit q steps j = .ok M) : M.q = q ∧ M.rows = d ∧ M.cols = d := by
  unfold compileDigit at h
  split at h
  · cases h
    exact ⟨rfl, rfl, rfl⟩
  · have hcompiled := compileFast_isCompiled h
    exact ⟨hcompiled.modulus, hcompiled.rows, hcompiled.cols⟩

/-- The stored matrix has the modulus of the profile, `d` rows and `ell` blocks of columns. -/
theorem fromBlocks_shape {supportsPacked : Bool} {steps : List (TraceStep d)}
    {blocks : List PackingMatrix} {M : NativeMatrix}
    (hblocks : (List.range P.ell).mapM (compileDigit q steps) = .ok blocks)
    (h : NativeMatrix.fromBlocks supportsPacked blocks = .ok M) :
    M.q = q ∧ M.rows = d ∧ M.cols = P.ell * d := by
  have hall := forall₂_of_mapM_eq_ok hblocks
  have hshape : ∀ b ∈ blocks, b.q = q ∧ b.rows = d ∧ b.cols = d := by
    intro b hb
    obtain ⟨n, hn, rfl⟩ := List.getElem_of_mem hb
    exact compileDigit_shape (hall.get (hall.length_eq ▸ hn) hn)
  cases blocks with
  | nil => cases h
  | cons first rest =>
      obtain ⟨hrows, hq, hcols, -⟩ := NativeMatrix.fromBlocks_spec h
      obtain ⟨hfirstQ, hfirstRows, -⟩ := hshape first List.mem_cons_self
      refine ⟨hq.trans hfirstQ, hrows.trans hfirstRows, hcols.trans ?_⟩
      have hconst : (first :: rest).map PackingMatrix.cols =
          List.replicate (first :: rest).length d :=
        List.eq_replicate_iff.mpr ⟨List.length_map _, fun c hc => by
          obtain ⟨b, hb, rfl⟩ := List.mem_map.mp hc
          exact (hshape b hb).2.2⟩
      rw [hconst, List.sum_replicate, ← hall.length_eq, List.length_range, smul_eq_mul]

theorem NativeTrace.toBlock_h {S : NativeSetup P} {trace : NativeTrace d q} {h : NativeMatrix}
    {B : NativePreprocessed P} (hB : trace.toBlock S h = .ok B) : B.h = h := by
  unfold NativeTrace.toBlock at hB
  split at hB
  · cases hB
    rfl
  · obtain ⟨leftover, -, hB⟩ := bind_eq_ok hB
    cases hB
    rfl

/-- **Every build gives a block of its setup.** -/
theorem build_builtFor {supportsPacked : Bool} {S : NativeSetup P} {masks : List (Poly d)}
    {twoMask : Bool} {B : NativePreprocessed P}
    (h : NativePreprocessed.build lib supportsPacked S masks twoMask = .ok B) :
    B.BuiltFor lib S ∧ B.aOther.isSome = twoMask := by
  unfold NativePreprocessed.build at h
  obtain ⟨trace, htrace, h⟩ := bind_eq_ok h
  obtain ⟨hlift, ha, hright, hmode, hlast⟩ := traceMasks_spec htrace
  obtain ⟨M, hcompile, h⟩ := bind_eq_ok h
  obtain ⟨blocks, hblocks, hM⟩ := bind_eq_ok hcompile
  obtain ⟨hq, hrows, hcols⟩ := fromBlocks_shape (P := P) hblocks hM
  unfold NativeTrace.toBlock at h
  split at h
  · next hnone =>
    rw [hnone] at hmode
    cases h
    refine ⟨⟨hlift, rfl, hq, hrows, hcols, ha, fun other hother => ?_, fun _ => rfl,
      fun hnone => by cases hnone⟩, hmode⟩
    cases hother
    exact hright
  · next digits hdigits =>
    rw [hdigits] at hmode
    obtain ⟨leftover, hleftover, h⟩ := bind_eq_ok h
    cases h
    have hlast' := hlast digits hdigits
    have hne : digits ≠ [] := by
      intro hnil
      have hlen := congrArg List.length hlast'
      rw [hnil, List.length_map, List.length_range, List.length_nil] at hlen
      exact P.ell_pos.ne hlen
    have hlt : ∀ digit ∈ digits, ∀ i, digit i < q := by
      rw [hlast']
      intro digit hdigit
      obtain ⟨j, -, rfl⟩ := List.mem_map.mp hdigit
      exact P.limb_lt _ j
    obtain ⟨op, hop, hlimbs, hfits⟩ := trace.lift.preparePublic_spec hne hlt
    rw [hleftover] at hop
    cases hop
    refine ⟨⟨hlift, rfl, hq, hrows, hcols, ha, fun other hother => (by cases hother),
      fun hsome => absurd rfl hsome, fun _ => ⟨leftover, digits, rfl, hlimbs, hfits, ?_, ?_⟩⟩,
        hmode⟩
    · rw [hlast', List.length_map, List.length_range]
    · rw [hlast']
      intro digit hdigit
      obtain ⟨j, -, rfl⟩ := List.mem_map.mp hdigit
      exact P.natAbs_centered_limb_le _ j

end Built

end Reinspiring
