import IpirSp.Inspiring.Phase

/-!
# Preprocessing with shared top images

`build_with_top` preprocesses a block with the mask images that `TopKeyImages::build` made once.
It runs the two halves of the cascade on the mask rows alone: the body that the general builder
carries along is zero and stays out.  `collapseHalfTop_eq` says that a half on mask rows is the
cascade of those rows, with the same digits in the same order, and `buildWithTop_eq_build` that the
block is the one `QueryPackPreprocessed.build` returns.
-/

namespace Inspiring

open Negacyclic SpiralRs Loops

variable {P : RlweParams}

/-! ## The builder -/

/-- `preprocess_reuse::add_product`, as the value left in `destination`.  The product of the layer
below asserts that the shapes match. -/
def addProduct (destination : Ntt P.d P.q) (mask digits : PolyMatrixNTT P.d P.q) :
    Outcome (Ntt P.d P.q) :=
  if mask.rows ≠ 1 ∨ mask.cols ≠ P.gadget.ell ∨ digits.rows ≠ P.gadget.ell ∨ digits.cols ≠ 1 then
    .error (.panic "assertion failed: a.cols == b.rows")
  else
    .ok (P.spiral.addInto destination
      (P.spiral.multiply (mask.row 0 P.gadget.ell) (digits.col P.gadget.ell)))

/-- The loop of `preprocess_reuse::collapse_half`: the slot that is left and the digits it
pushes. -/
def collapseHalfTop (masks : List (PolyMatrixNTT P.d P.q)) :
    Ntt P.d P.q → List (Ntt P.d P.q) → Outcome (Ntt P.d P.q × List (PolyMatrixNTT P.d P.q))
  | last, [] => .ok (last, [])
  | last, prev :: below => do
      let next ← ksDigitsNttFromC1 P last
      let mask ← index masks below.length
      let prev ← addProduct prev mask next
      let (out, ds) ← collapseHalfTop masks prev below
      .ok (out, next :: ds)

/-- `QueryPackPreprocessed::build_with_top`. -/
def QueryPackPreprocessed.buildWithTop (P : RlweParams) (crs : PolyMatrixNTT P.d P.q)
    (top : TopKeyImages P) : Outcome (QueryPackPreprocessed P) := do
  top.validate
  let pub ← PackPublicPreprocessed.build P crs
  let left ← CollapseState.ofVec (pub.aAgg.take (P.d / 2)) P.spiral.zeroNtt
  let right ← CollapseState.ofVec (pub.aAgg.drop (P.d / 2)) P.spiral.zeroNtt
  let (leftA, leftDigits) ← collapseHalfTop top.kgTopLeft left.last left.below
  let (rightA, rightDigits) ← collapseHalfTop top.kgTopRight right.last right.below
  let finalDigits ← ksDigitsNttFromC1 P rightA
  let collapsed ← addProduct leftA top.khTop finalDigits
  .ok ⟨collapsed, leftDigits ++ rightDigits ++ [finalDigits]⟩

/-! ## One half -/

theorem addProduct_eq {mask digits : PolyMatrixNTT P.d P.q} (hmask : BodyShape mask P.gadget.ell)
    (hrows : digits.rows = P.gadget.ell) (hcols : digits.cols = 1) (destination : Ntt P.d P.q) :
    addProduct destination mask digits = .ok (P.spiral.addInto destination
      (P.spiral.multiply (bodyRow mask) (digits.col P.gadget.ell))) := by
  rw [addProduct, if_neg (by simp [hmask.1, hmask.2, hrows, hcols])]
  rfl

/-- **A half on mask rows is the cascade of those rows.** -/
theorem collapseHalfTop_eq (hfit : DigitsFit P) {masks : List (PolyMatrixNTT P.d P.q)}
    {mask : ℕ → PolyMatrixNTT P.d P.q} {below : List (Ntt P.d P.q)}
    (hget : ∀ i < below.length, masks[i]? = some (mask i))
    (hshape : ∀ i, BodyShape (mask i) P.gadget.ell) (last : Ntt P.d P.q) :
    collapseHalfTop masks last below =
      .ok (foldLast (fun i => bodyRow (mask i)) last below,
        foldDigits (fun i => bodyRow (mask i)) last below) := by
  induction below generalizing last with
  | nil => rfl
  | cons prev below ih =>
      have hrest : ∀ i < below.length, masks[i]? = some (mask i) := fun i hi =>
        hget i (by rw [List.length_cons]; omega)
      have hmask : index masks below.length = (.ok (mask below.length) : Outcome _) := by
        rw [index, hget below.length (by simp)]
      rw [collapseHalfTop, ksDigitsNttFromC1_eq hfit, ok_bind, hmask, ok_bind,
        addProduct_eq (hshape _) rfl rfl, ok_bind, ih hrest, ok_bind]
      rfl

/-- A half on the fixed images of one family of exponents. -/
theorem collapseHalfTop_images (hfit : DigitsFit P) (seed : Seed) (exp : ℕ → ℕ)
    {tables : List (NttAutomorphTable P.d)} {below : List (Ntt P.d P.q)}
    (htables : tables = (List.range below.length).map fun i => tauTable P (exp i))
    (last : Ntt P.d P.q) :
    collapseHalfTop (tables.map (applyTauNttAlloc (referenceMaskTop P seed))) last below =
      .ok (foldLast (fun i => (keyImage (fixedReferenceKey P seed) (exp i)).top) last below,
        foldDigits (fun i => (keyImage (fixedReferenceKey P seed) (exp i)).top) last below) := by
  have hget : ∀ i < below.length,
      (tables.map (applyTauNttAlloc (referenceMaskTop P seed)))[i]? =
        some (applyTauNttAlloc (referenceMaskTop P seed) (tauTable P (exp i))) := by
    intro i hi
    rw [htables, List.map_map, List.getElem?_map, List.getElem?_range hi]
    rfl
  exact collapseHalfTop_eq hfit hget (fun _ => ⟨rfl, rfl⟩) last

/-! ## The block -/

/-- What `TopKeyImages::build` keeps. -/
theorem topImages_fields {top : TopKeyImages P} (htop : TopKeyImages.build P = .ok top) :
    ProbesSeparate P ∧ top.validate = .ok () ∧
      top.kgTopLeft = (leftTables P 0 (P.d / 2 - 1)).map
        (applyTauNttAlloc (referenceMaskTop P REFERENCE_W_SEED)) ∧
      top.kgTopRight = (rightTables P 0 (P.d / 2 - 1)).map
        (applyTauNttAlloc (referenceMaskTop P REFERENCE_W_SEED)) ∧
      top.khTop = referenceMaskTop P REFERENCE_V_SEED := by
  have hsep : ProbesSeparate P := by
    by_contra hnot
    rw [TopKeyImages.build, tauGPowerTables_panic hnot, error_bind] at htop
    cases htop
  obtain ⟨top', htop', hvalid, -, -⟩ := topImages_build hsep
  obtain rfl : top' = top := Except.ok.inj (htop'.symm.trans htop)
  rw [TopKeyImages.build, tauGPowerTables_eq hsep, ok_bind] at htop
  cases htop
  exact ⟨hsep, hvalid, rfl, rfl, rfl⟩

/-- The reused images leave the component and the digits of the block. -/
theorem buildWithTop_eq_block (hfit : DigitsFit P) {top : TopKeyImages P}
    (htop : TopKeyImages.build P = .ok top) {crs : PolyMatrixNTT P.d P.q} {aHat : ℕ → Ntt P.d P.q}
    (hpub : PackPublicPreprocessed.build P crs = .ok ⟨(List.range P.d).map aHat⟩) :
    QueryPackPreprocessed.buildWithTop P crs top =
      .ok ⟨blockComponent (fixedReferenceKey P REFERENCE_W_SEED)
          (fixedReferenceKey P REFERENCE_V_SEED) aHat,
        blockDigits (fixedReferenceKey P REFERENCE_W_SEED) aHat⟩ := by
  obtain ⟨-, hvalid, hleft, hright, hkh⟩ := topImages_fields htop
  have htables (exp : ℕ → ℕ) (a : ℕ → Ntt P.d P.q) :
      (List.range' 0 (P.d / 2 - 1)).map (fun i => tauTable P (exp i)) =
        (List.range (stackBelow a (halfSteps P)).length).map fun i => tauTable P (exp i) := by
    rw [length_stackBelow, List.range_eq_range']
    rfl
  have hrunLeft := collapseHalfTop_images hfit REFERENCE_W_SEED (leftExp P.d)
    (htables (leftExp P.d) aHat) (aHat (halfSteps P))
  have hrunRight := collapseHalfTop_images hfit REFERENCE_W_SEED (rightExp P.d)
    (htables (rightExp P.d) fun i => aHat (P.d / 2 + i)) (aHat (P.d / 2 + halfSteps P))
  rw [QueryPackPreprocessed.buildWithTop, hvalid, ok_bind, hpub, ok_bind, hleft, hright, hkh]
  simp only [take_half, drop_half, ofVec_map_range, ok_bind]
  rw [leftTables, rightTables, hrunLeft, ok_bind, hrunRight, ok_bind, ksDigitsNttFromC1_eq hfit,
    ok_bind, addProduct_eq ⟨rfl, rfl⟩ rfl rfl, ok_bind]
  rfl

/-- The rows of any block of the right shape are aggregated. -/
theorem publicBuild_ok (hsep : ProbesSeparate P) {crs : PolyMatrixNTT P.d P.q}
    (hshape : crs.rows = P.d ∧ crs.cols = 1) :
    ∃ aHat : ℕ → Ntt P.d P.q,
      PackPublicPreprocessed.build P crs = .ok ⟨(List.range P.d).map aHat⟩ := by
  obtain ⟨aHat, hrun, -⟩ := ring_buildAAgg hsep (fun row => aTildeCoeffs P (crsRows crs row))
    fun _ _ => aTildeCoeffs_lt _ _
  refine ⟨aHat, ?_⟩
  rw [PackPublicPreprocessed.build, if_neg (by simp [hshape.1, hshape.2])]
  simp only [hrun, ok_bind]

/-- **Reusing the top images changes nothing.**  For every CRS block, of any shape, preprocessing
with the images that `TopKeyImages::build` returns gives the outcome of preprocessing without
them, and so does every pack of it.  On a block of the right shape the two agree also where the
table search panics. -/
theorem buildWithTop_eq_build (P : RlweParams) (hfit : DigitsFit P) (crs : PolyMatrixNTT P.d P.q) :
    (∀ top, TopKeyImages.build P = .ok top →
      QueryPackPreprocessed.buildWithTop P crs top = QueryPackPreprocessed.build P crs ∧
      ∀ (workers : Scheduler (CollapseTerm P)) (bScalars : List ℕ) (keys : PackingKeys P)
        (images : TopKeyImages P),
        (QueryPackPreprocessed.buildWithTop P crs top >>= fun pre =>
            pre.packB workers bScalars keys images) =
          QueryPackPreprocessed.build P crs >>= fun pre =>
            pre.packB workers bScalars keys images) ∧
      (crs.rows = P.d → crs.cols = 1 →
        (TopKeyImages.build P >>= QueryPackPreprocessed.buildWithTop P crs) =
          QueryPackPreprocessed.build P crs) := by
  have heq : ∀ top, TopKeyImages.build P = .ok top →
      QueryPackPreprocessed.buildWithTop P crs top = QueryPackPreprocessed.build P crs := by
    intro top htop
    obtain ⟨hsep, hvalid, -⟩ := topImages_fields htop
    by_cases hshape : crs.rows = P.d ∧ crs.cols = 1
    · obtain ⟨aHat, hpub⟩ := publicBuild_ok hsep hshape
      rw [buildWithTop_eq_block hfit htop hpub, QueryPackPreprocessed.build, hpub, ok_bind]
      exact (precomputeReferenceTrace_eq aHat hsep hfit).symm
    · -- Both builders stop at the shape check.
      have hbad : crs.rows ≠ P.d ∨ crs.cols ≠ 1 := not_and_or.mp hshape
      rw [QueryPackPreprocessed.buildWithTop, hvalid, ok_bind, QueryPackPreprocessed.build,
        PackPublicPreprocessed.build, if_pos hbad]
      rfl
  constructor
  · intro top htop
    exact ⟨heq top htop, fun workers bScalars keys images => by rw [heq top htop]⟩
  · intro hrows hcols
    by_cases hsep : ProbesSeparate P
    · obtain ⟨top, htop, -⟩ := topImages_build hsep
      rw [htop, ok_bind, heq top htop]
    · rw [TopKeyImages.build, tauGPowerTables_panic hsep, error_bind, error_bind,
        QueryPackPreprocessed.build, PackPublicPreprocessed.build,
        if_neg (by simp [hrows, hcols])]
      simp only [buildAAgg, tauGPowerTables_panic hsep, error_bind]

/-- A block of the small parameter set, built in both ways. -/
theorem buildWithTop_eq_build_small :
    ∃ top pre, TopKeyImages.build smallParams = .ok top ∧
      QueryPackPreprocessed.buildWithTop smallParams
        (crsOfRows smallParams fun k i => (5 * k + i) % 17) top = .ok pre ∧
      QueryPackPreprocessed.build smallParams
        (crsOfRows smallParams fun k i => (5 * k + i) % 17) = .ok pre := by
  obtain ⟨top, htop, -⟩ := topImages_build probesSeparate_smallParams
  obtain ⟨aHat, hbuild, -⟩ := queryBuild_eq probesSeparate_smallParams (by decide)
    (fun _ _ => Nat.mod_lt _ (by decide) : ∀ k i, (fun (k i : Fin smallParams.d) =>
      (5 * (k : ℕ) + i) % 17) k i < smallParams.q)
  have heq := ((buildWithTop_eq_build smallParams (by decide)
    (crsOfRows smallParams fun k i => (5 * k + i) % 17)).1 top htop).1
  exact ⟨top, _, htop, heq.trans hbuild, hbuild⟩

end Inspiring
