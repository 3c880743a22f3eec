import IpirSp.Inspiring.Preprocess

/-!
# The schedule of a block

All three packing paths run the same schedule over the `d` aggregated components of a block: the
left half from its last component down, the right half from its last component down, and one
switch with `K_h` from the survivor of the right half to that of the left.  `leftDigits`,
`rightDigits` and `finalDigits` are the digits of that schedule and `blockComponent` is the
component that is left; they depend on the mask rows of the keys only.  `blockBody` is the body
that is left.

`collapse_eq`, `precomputeReferenceTrace_eq` and `collapseUploadedBodyB_eq` say that the cascade
with full keys, the cascade that records its digits and the replay on uploaded bodies compute
these.
-/

namespace Inspiring

open Negacyclic SpiralRs KeySwitch Loops

variable {P : RlweParams}

variable (P) in
/-- The switches of a half. -/
def halfSteps : ℕ := P.d / 2 - 1

/-- Components `0, …, n - 1` from the top down. -/
def stackBelow (a : ℕ → Ntt P.d P.q) (n : ℕ) : List (Ntt P.d P.q) := ((List.range n).map a).reverse

@[simp] theorem length_stackBelow (a : ℕ → Ntt P.d P.q) (n : ℕ) : (stackBelow a n).length = n := by
  simp [stackBelow]

theorem halfSteps_succ : halfSteps P + 1 = P.d / 2 := by
  have := P.two_le_d
  simp only [halfSteps]
  omega

theorem halfSteps_add : halfSteps P + halfSteps P + 1 = P.d - 1 := by
  have := P.two_le_d
  have := P.two_dvd_d
  simp only [halfSteps]
  omega

/-- The state of a half over the first `halfSteps + 1` components. -/
theorem ofVec_map_range (a : ℕ → Ntt P.d P.q) (b : Ntt P.d P.q) (n : ℕ) :
    CollapseState.ofVec ((List.range (n + 1)).map a) b = .ok ⟨a n, stackBelow a n, b⟩ := by
  rw [CollapseState.ofVec, List.range_succ, List.map_append, List.reverse_append]
  rfl

theorem take_half (a : ℕ → Ntt P.d P.q) :
    ((List.range P.d).map a).take (P.d / 2) = (List.range (halfSteps P + 1)).map a := by
  rw [halfSteps_succ, ← List.map_take, List.take_range, min_eq_left (Nat.div_le_self _ _)]

theorem drop_half (a : ℕ → Ntt P.d P.q) :
    ((List.range P.d).map a).drop (P.d / 2) =
      (List.range (halfSteps P + 1)).map fun i => a (P.d / 2 + i) := by
  have hsplit : List.range P.d = List.range (P.d / 2 + P.d / 2) :=
    congrArg List.range (by have := P.two_dvd_d; omega)
  rw [hsplit, List.range_add, halfSteps_succ, List.map_append, List.drop_left' (by simp),
    List.map_map]
  rfl

/-! ## Key images -/

section Images

variable (kg : KeySwitchingMatrix P)

/-- The key image of the automorphism `e`. -/
noncomputable def keyImage (e : ℕ) : KeySwitchingMatrix P :=
  automorphicImageWithTable kg (tauTable P e)

/-- The mask rows of the left images. -/
noncomputable def leftTop (i : ℕ) : Fin P.gadget.ell → Ntt P.d P.q :=
  (keyImage kg (leftExp P.d i)).top

/-- The mask rows of the right images. -/
noncomputable def rightTop (i : ℕ) : Fin P.gadget.ell → Ntt P.d P.q :=
  (keyImage kg (rightExp P.d i)).top

theorem map_leftTables (n : ℕ) : (leftTables P 0 n).map (automorphicImageWithTable kg) =
    (List.range n).map fun i => keyImage kg (leftExp P.d i) := by
  rw [leftTables, List.map_map, List.range_eq_range']
  rfl

theorem map_rightTables (n : ℕ) : (rightTables P 0 n).map (automorphicImageWithTable kg) =
    (List.range n).map fun i => keyImage kg (rightExp P.d i) := by
  rw [rightTables, List.map_map, List.range_eq_range']
  rfl

variable {kg}

theorem keyImage_wellShaped (hkg : kg.WellShaped) (e : ℕ) : (keyImage kg e).WellShaped := hkg

/-- An image of a row is the automorphism on each of its entries. -/
theorem ringVec_keyImage_top {e : ℕ} (he : Odd e) :
    ringVec (keyImage kg e).top = fun k => tau e (ringVec kg.top k) :=
  funext fun k => ring_applyTauNtt he (kg.top k)

theorem ringVec_keyImage_body {e : ℕ} (he : Odd e) :
    ringVec (keyImage kg e).body = fun k => tau e (ringVec kg.body k) :=
  funext fun k => ring_applyTauNtt he (kg.body k)

end Images

/-! ## The component side -/

section Component

variable (kg kh : KeySwitchingMatrix P) (aHat : ℕ → Ntt P.d P.q)

/-- The digits of the left half, in execution order. -/
noncomputable def leftDigits : List (PolyMatrixNTT P.d P.q) :=
  foldDigits (leftTop kg) (aHat (halfSteps P)) (stackBelow aHat (halfSteps P))

/-- The survivor of the left half. -/
noncomputable def leftSurvivor : Ntt P.d P.q :=
  foldLast (leftTop kg) (aHat (halfSteps P)) (stackBelow aHat (halfSteps P))

/-- The digits of the right half, in execution order. -/
noncomputable def rightDigits : List (PolyMatrixNTT P.d P.q) :=
  foldDigits (rightTop kg) (aHat (P.d / 2 + halfSteps P))
    (stackBelow (fun i => aHat (P.d / 2 + i)) (halfSteps P))

/-- The survivor of the right half. -/
noncomputable def rightSurvivor : Ntt P.d P.q :=
  foldLast (rightTop kg) (aHat (P.d / 2 + halfSteps P))
    (stackBelow (fun i => aHat (P.d / 2 + i)) (halfSteps P))

/-- The digits of the last switch. -/
noncomputable def finalDigits : PolyMatrixNTT P.d P.q := digitsNtt P (rightSurvivor kg aHat)

/-- All digits of a block in the order in which they are recorded. -/
noncomputable def blockDigits : List (PolyMatrixNTT P.d P.q) :=
  leftDigits kg aHat ++ rightDigits kg aHat ++ [finalDigits kg aHat]

/-- The component that a block leaves. -/
noncomputable def blockComponent : Ntt P.d P.q :=
  P.spiral.addInto (leftSurvivor kg aHat)
    (P.spiral.multiply kh.top ((finalDigits kg aHat).col P.gadget.ell))

@[simp] theorem length_leftDigits : (leftDigits kg aHat).length = halfSteps P := by
  simp [leftDigits]

@[simp] theorem length_rightDigits : (rightDigits kg aHat).length = halfSteps P := by
  simp [rightDigits]

theorem length_blockDigits : (blockDigits kg aHat).length = P.d - 1 := by
  rw [← halfSteps_add]
  simp [blockDigits, add_assoc]

theorem blockDigits_shape {D : PolyMatrixNTT P.d P.q} (hD : D ∈ blockDigits kg aHat) :
    D.rows = P.gadget.ell ∧ D.cols = 1 := by
  simp only [blockDigits, List.mem_append, List.mem_singleton] at hD
  rcases hD with (hD | hD) | rfl
  · exact foldDigits_shape _ hD
  · exact foldDigits_shape _ hD
  · exact ⟨rfl, rfl⟩

/-- The component side reads the mask rows of the keys and nothing else. -/
theorem leftTop_congr {kg kg' : KeySwitchingMatrix P} (htop : kg.top = kg'.top) :
    leftTop kg = leftTop kg' := by
  funext i k
  exact congrArg (applyTauNtt · _) (congrFun htop k)

theorem rightTop_congr {kg kg' : KeySwitchingMatrix P} (htop : kg.top = kg'.top) :
    rightTop kg = rightTop kg' := by
  funext i k
  exact congrArg (applyTauNtt · _) (congrFun htop k)

theorem blockComponent_congr {kg kg' kh kh' : KeySwitchingMatrix P} (hkg : kg.top = kg'.top)
    (hkh : kh.top = kh'.top) : blockComponent kg kh aHat = blockComponent kg' kh' aHat := by
  simp only [blockComponent, leftSurvivor, finalDigits, rightSurvivor, leftTop_congr hkg,
    rightTop_congr hkg, hkh]

end Component

/-! ## The body side -/

section Body

/-- What one half of the digits adds to the body: digit vector by digit vector, the image of the
key body under the half's automorphism of that step. -/
noncomputable def halfBody (exp : ℕ → ℕ) (body : Fin P.gadget.ell → NegRing P.d (ZMod P.q))
    (ds : List (PolyMatrixNTT P.d P.q)) : NegRing P.d (ZMod P.q) :=
  dotSum (fun i k => tau (exp i) (body k)) (ds.map ringDigits)

variable (P) in
/-- What a vector in the place of the key bodies adds to the body of a block. -/
noncomputable def blockSum (kgBody khBody : Fin P.gadget.ell → NegRing P.d (ZMod P.q))
    (left right : List (PolyMatrixNTT P.d P.q)) (last : PolyMatrixNTT P.d P.q) :
    NegRing P.d (ZMod P.q) :=
  halfBody (leftExp P.d) kgBody left + halfBody (rightExp P.d) kgBody right +
    dotProduct khBody (ringDigits last)

/-- A body row of length `ell`. -/
def bodyRow (body : PolyMatrixNTT P.d P.q) : Fin P.gadget.ell → Ntt P.d P.q :=
  body.row 0 P.gadget.ell

theorem value_some {body D : PolyMatrixNTT P.d P.q} (hbody : BodyShape body P.gadget.ell) {e : ℕ}
    (he : Odd e) :
    CollapseTerm.value ⟨body, some (tauTable P e), D⟩ =
      dotProduct (fun k => tau e (ringVec (bodyRow body) k)) (ringDigits D) := by
  obtain ⟨rows, cols, poly⟩ := body
  obtain ⟨-, hcols⟩ := hbody
  simp only at hcols
  subst hcols
  rw [CollapseTerm.value, dotProduct]
  refine Finset.sum_congr rfl fun k _ => ?_
  rw [CollapseTerm.image, ring_applyTauNtt he]
  rfl

theorem value_none {body D : PolyMatrixNTT P.d P.q} (hbody : BodyShape body P.gadget.ell) :
    CollapseTerm.value ⟨body, none, D⟩ = dotProduct (ringVec (bodyRow body)) (ringDigits D) := by
  obtain ⟨rows, cols, poly⟩ := body
  obtain ⟨-, hcols⟩ := hbody
  simp only at hcols
  subst hcols
  rfl

/-- The terms of a half of the online schedule add the half's body. -/
theorem sum_halfTerms {body : PolyMatrixNTT P.d P.q} (hbody : BodyShape body P.gadget.ell)
    {exp : ℕ → ℕ} (hexp : ∀ i, Odd (exp i)) (n : ℕ) {ds : List (PolyMatrixNTT P.d P.q)}
    (hlen : ds.length = n) :
    ((halfTerms body ((List.range n).map fun i => tauTable P (exp i)).reverse ds).map
        CollapseTerm.value).sum = halfBody exp (ringVec (bodyRow body)) ds := by
  induction n generalizing ds with
  | zero =>
      obtain rfl : ds = [] := List.length_eq_zero_iff.mp hlen
      simp [halfTerms, halfBody]
  | succ n ih =>
      obtain ⟨D, ds, rfl⟩ := List.exists_cons_of_length_eq_add_one hlen
      have hlen' : ds.length = n := by simpa using hlen
      have hrest := ih hlen'
      simp only [halfBody, halfTerms] at hrest
      simp only [halfBody, halfTerms, List.range_succ, List.map_append, List.reverse_append,
        List.map_cons, List.map_nil, List.reverse_cons, List.reverse_nil, List.nil_append,
        List.cons_append, List.zipWith_cons_cons, List.sum_cons, dotSum_cons,
          List.length_map, hlen']
      rw [hrest, value_some hbody (hexp n)]

end Body

/-! ## The three runs -/

section Runs

variable {kg kh : KeySwitchingMatrix P} (aHat : ℕ → Ntt P.d P.q)

/-- The left images, held by the `Vec` that the tables build. -/
theorem holdsLeft (hkg : kg.WellShaped) :
    HoldsImages ((List.range (halfSteps P)).map fun i => keyImage kg (leftExp P.d i))
      (stackBelow aHat (halfSteps P)).length fun i => keyImage kg (leftExp P.d i) := by
  rw [length_stackBelow]
  exact holdsImages_map_range _ fun i _ => keyImage_wellShaped hkg _

theorem holdsRight (hkg : kg.WellShaped) :
    HoldsImages ((List.range (halfSteps P)).map fun i => keyImage kg (rightExp P.d i))
      (stackBelow (fun i => aHat (P.d / 2 + i)) (halfSteps P)).length
      fun i => keyImage kg (rightExp P.d i) := by
  rw [length_stackBelow]
  exact holdsImages_map_range _ fun i _ => keyImage_wellShaped hkg _

/-- The body of a half with full keys. -/
theorem ring_foldBody_keyImage {exp : ℕ → ℕ} (hexp : ∀ i, Odd (exp i))
    (ds : List (PolyMatrixNTT P.d P.q)) (b : Ntt P.d P.q) :
    P.spiral.ring (foldBody (fun i => (keyImage kg (exp i)).body) ds b) =
      P.spiral.ring b + halfBody exp (ringVec kg.body) ds := by
  rw [ring_foldBody, halfBody]
  simp only [ringVec_keyImage_body (hexp _)]

theorem collapseHalf_left (hfit : DigitsFit P) (hkg : kg.WellShaped) (b : Ntt P.d P.q) :
    collapseHalf ⟨aHat (halfSteps P), stackBelow aHat (halfSteps P), b⟩
        ((List.range (halfSteps P)).map fun i => keyImage kg (leftExp P.d i)) =
      .ok (leftSurvivor kg aHat,
        foldBody (fun i => (keyImage kg (leftExp P.d i)).body) (leftDigits kg aHat) b) := by
  rw [collapseHalf, if_pos (by simp)]
  exact collapseHalfLoop_eq hfit (holdsLeft aHat hkg) _ b

theorem collapseHalf_right (hfit : DigitsFit P) (hkg : kg.WellShaped) (b : Ntt P.d P.q) :
    collapseHalf ⟨aHat (P.d / 2 + halfSteps P),
        stackBelow (fun i => aHat (P.d / 2 + i)) (halfSteps P), b⟩
        ((List.range (halfSteps P)).map fun i => keyImage kg (rightExp P.d i)) =
      .ok (rightSurvivor kg aHat,
        foldBody (fun i => (keyImage kg (rightExp P.d i)).body) (rightDigits kg aHat) b) := by
  rw [collapseHalf, if_pos (by simp)]
  exact collapseHalfLoop_eq hfit (holdsRight aHat hkg) _ b

/-- **The full collapse** of the aggregated components `aHat 0, …, aHat (d - 1)`. -/
theorem collapse_eq (hfit : DigitsFit P) (hkg : kg.WellShaped) (hkh : kh.WellShaped)
    (bTilde : Poly P.d) :
    ∃ c2, collapse ⟨(List.range P.d).map aHat, bTilde⟩
        ((leftTables P 0 (P.d / 2 - 1)).map (automorphicImageWithTable kg))
        ((rightTables P 0 (P.d / 2 - 1)).map (automorphicImageWithTable kg)) kh =
          .ok ⟨blockComponent kg kh aHat, c2⟩ ∧
      P.spiral.ring c2 = P.spiral.ring (P.spiral.toNttAlloc bTilde) +
        blockSum P (ringVec kg.body) (ringVec kh.body) (leftDigits kg aHat) (rightDigits kg aHat)
          (finalDigits kg aHat) := by
  have hsteps : P.d / 2 - 1 = halfSteps P := rfl
  rw [collapse, map_leftTables, map_rightTables, if_neg (by simp), if_neg (by simp),
    if_neg (by simp)]
  simp only [take_half, drop_half, ofVec_map_range, hsteps, collapseHalf_left aHat hfit hkg,
    collapseHalf_right aHat hfit hkg, ksSwitch_eq hfit hkh, ok_bind]
  refine ⟨_, rfl, ?_⟩
  rw [P.spiral.ring_addInto, ring_multiply_eq_dotProduct,
    ring_foldBody_keyImage (odd_rightExp P.d_pos), ring_foldBody_keyImage (odd_leftExp P.d),
      blockSum]
  show dotProduct (ringVec kh.body) (ringDigits (finalDigits kg aHat)) + _ = _
  ring

theorem fixedReferenceKey_wellShaped (seed : Seed) : (fixedReferenceKey P seed).WellShaped :=
  ⟨rfl, rfl⟩

/-- **The recorded run** keeps the component and the digits of the block. -/
theorem precomputeReferenceTrace_eq (hsep : ProbesSeparate P) (hfit : DigitsFit P) :
    precomputeReferenceTrace ((List.range P.d).map aHat) =
      .ok ⟨blockComponent (fixedReferenceKey P REFERENCE_W_SEED)
          (fixedReferenceKey P REFERENCE_V_SEED) aHat,
        blockDigits (fixedReferenceKey P REFERENCE_W_SEED) aHat⟩ := by
  have hsteps : P.d / 2 - 1 = halfSteps P := rfl
  have hkg := fixedReferenceKey_wellShaped (P := P) REFERENCE_W_SEED
  have hkh := fixedReferenceKey_wellShaped (P := P) REFERENCE_V_SEED
  have hleft := collectHalfDigits_eq hfit (holdsLeft aHat hkg) (aHat (halfSteps P))
  have hright := collectHalfDigits_eq hfit (holdsRight aHat hkg) (aHat (P.d / 2 + halfSteps P))
  rw [precomputeReferenceTrace, tauGPowerTables_eq hsep]
  simp only [ok_bind, map_leftTables, map_rightTables, take_half, drop_half,
    ofVec_map_range, hsteps, hleft, hright, ksDigitsNttFromC1_eq hfit]
  rw [ksSwitchWithDigitsNtt_eq hkh rfl rfl]
  rfl

/-- The online run over tables of the two families, on the recorded digits of a block. -/
theorem collapseUploadedBodyB_eq (kg : KeySwitchingMatrix P) (aHat : ℕ → Ntt P.d P.q)
    (hq : P.q < 2 ^ 62) (workers : Scheduler (CollapseTerm P))
    (b : Ntt P.d P.q) {kgBody khBody : PolyMatrixNTT P.d P.q}
    (hkg : BodyShape kgBody P.gadget.ell) (hkh : BodyShape khBody P.gadget.ell)
    {topImages : TopKeyImages P}
    (hleft : topImages.kgBodyLeftTables = leftTables P 0 (P.d / 2 - 1))
    (hright : topImages.kgBodyRightTables = rightTables P 0 (P.d / 2 - 1)) :
    ∃ c2, collapseUploadedBodyB workers b kgBody khBody topImages (blockDigits kg aHat) = .ok c2 ∧
      P.spiral.ring c2 = P.spiral.ring b +
        blockSum P (ringVec (bodyRow kgBody)) (ringVec (bodyRow khBody)) (leftDigits kg aHat)
          (rightDigits kg aHat) (finalDigits kg aHat) := by
  have htables (n : ℕ) :
      leftTables P 0 n = (List.range n).map (fun i => tauTable P (leftExp P.d i)) ∧
      rightTables P 0 n = (List.range n).map (fun i => tauTable P (rightExp P.d i)) := by
    simp only [leftTables, rightTables, List.range_eq_range', and_self]
  have hshape : BlockShape topImages (blockDigits kg aHat) P.gadget.ell := {
    digits_length := length_blockDigits kg aHat
    digits_shape := fun D hD => blockDigits_shape kg aHat hD
    left_length := by rw [hleft]; simp [leftTables]
    right_length := by rw [hright]; simp [rightTables] }
  obtain ⟨c2, hrun, hring⟩ := collapseUploadedBodyBStepwise_eq hshape hkg hkh b
  refine ⟨c2, (collapseUploadedBodyB_eq_stepwise hq hshape hkg hkh workers b).trans hrun, ?_⟩
  rw [hring, blockDigits, List.append_assoc, collapseSchedule_append kgBody khBody
    (by rw [hleft]; simp [leftTables, halfSteps]) (by rw [hright]; simp [rightTables, halfSteps])]
  simp only [List.map_append, List.sum_append, List.map_cons, List.map_nil, List.sum_cons,
    List.sum_nil, add_zero]
  rw [hleft, hright, (htables _).1, (htables _).2,
    sum_halfTerms hkg (odd_leftExp P.d) (P.d / 2 - 1) (length_leftDigits kg aHat),
    sum_halfTerms hkg (odd_rightExp P.d_pos) (P.d / 2 - 1) (length_rightDigits kg aHat),
    value_none hkh, blockSum, add_assoc (halfBody _ _ _)]

end Runs

end Inspiring
