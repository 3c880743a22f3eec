import IpirSp.Reinspiring.NativePhase
import IpirSp.Reinspiring.Noise

/-!
# What the accounting promises

The phase of a packed block misses the body and the inner products of its masks by errors
(`NativeSecret.packedPhase`), and an analysis reports one weight for all of them.  Here both meet:
every error is a sum of values within a bound, with the weights that one part of the analysis
measured as its coefficients.  `Within` is the currency: a residue with a representative of bounded
magnitude.

A block is also met after its published masks have been rounded.  The rounding adds multiples of the
secret, and a screen measures the compiled residues together with what the rounding adds.
-/

namespace Reinspiring

open Negacyclic SpiralRs Inspiring Loops MachineWord KeySwitch Matrix WeightNorms

variable {d q : ℕ} {P : NativeParams d q}

/-! ## Residues of bounded magnitude -/

section Within

/-- A residue with a representative within a bound. -/
def Within (x : ZMod q) (bound : ℕ) : Prop := ∃ v : ℤ, (v : ZMod q) = x ∧ |v| ≤ bound

theorem Within.add {x y : ZMod q} {m n : ℕ} (hx : Within x m) (hy : Within y n) :
    Within (x + y) (m + n) := by
  obtain ⟨v, rfl, hv⟩ := hx
  obtain ⟨w, rfl, hw⟩ := hy
  refine ⟨v + w, Int.cast_add v w, (abs_add_le v w).trans ?_⟩
  rw [Nat.cast_add]
  exact add_le_add hv hw

theorem Within.mono {x : ZMod q} {m n : ℕ} (hx : Within x m) (hle : m ≤ n) : Within x n := by
  obtain ⟨v, hv, hm⟩ := hx
  exact ⟨v, hv, hm.trans (Int.ofNat_le.mpr hle)⟩

/-- Centring finds a representative within the bound. -/
theorem Within.centered_le (hq : 0 < q) {z : ℤ} {bound : ℕ} (h : Within (z : ZMod q) bound) :
    (centered (z % (q : ℤ)).toNat q).natAbs ≤ bound := by
  obtain ⟨v, hv, hbound⟩ := h
  have hmod : z % (q : ℤ) = v % q := ((ZMod.intCast_eq_intCast_iff v z q).mp hv).symm
  rw [Int.abs_eq_natAbs] at hbound
  rw [hmod]
  exact (NativeParams.natAbs_centered_emod_le hq v).trans (Int.ofNat_le.mp hbound)

/-- **Values within a bound, with measured weights.** -/
theorem within_weightedSum (n : ℕ) (w : ℕ → ℤ) (y : ℕ → ℕ) {bound : ℕ}
    (hy : ∀ c < n, (centered (y c) q).natAbs ≤ bound) :
    Within (∑ c ∈ Finset.range n, (w c : ZMod q) * (y c : ZMod q))
      ((norms ((List.range n).map w)).l1 * bound) := by
  refine ⟨∑ c ∈ Finset.range n, w c * centered (y c) q, ?_, ?_⟩
  · rw [Int.cast_sum]
    refine Finset.sum_congr rfl fun c _ => ?_
    rw [Int.cast_mul, cast_centered]
  · rw [Nat.cast_mul]
    refine abs_weightedSum_le n w _ fun c hc => ?_
    rw [Int.abs_eq_natAbs]
    exact Int.ofNat_le.mpr (hy c hc)

/-- A row of a matrix. -/
theorem within_row (M : PackingMatrix) (r len : ℕ) (y : ℕ → ℕ) {bound : ℕ}
    (hy : ∀ c < len, (centered (y c) q).natAbs ≤ bound) :
    Within (∑ c ∈ Finset.range len, (M.entry r c : ZMod q) * (y c : ZMod q))
      ((norms (centeredRow M q r 0 len)).l1 * bound) := by
  have hsum := within_weightedSum len (fun c => centered (M.entry r (0 + c)) q) y hy
  simp only [cast_centered, Nat.zero_add] at hsum
  simpa only [centeredRow, Nat.zero_add] using hsum

variable [NeZero d]

/-- The norm of centred words is that of the polynomials. -/
theorem l1_centeredWords_cons (a : Poly d) (digits : List (Poly d)) :
    ((norms (centeredWords q (a :: digits))).l1 : ℤ) =
      ∑ i, |coeff (intPoly q a) i| + (norms (centeredWords q digits)).l1 := by
  have hsplit : centeredWords q (a :: digits) =
      (List.ofFn a).map (fun x => centered x q) ++ centeredWords q digits := by
    rw [centeredWords, flatWords, List.flatMap_cons, List.map_append]
    rfl
  have hfirst : (((norms ((List.ofFn a).map fun x => centered x q)).l1 : ℕ) : ℤ) =
      ∑ i, |coeff (intPoly q a) i| := by
    rw [norms]
    simp only [List.map_ofFn, List.sum_ofFn, Nat.cast_sum, Function.comp_apply]
    refine Finset.sum_congr rfl fun i _ => ?_
    rw [intPoly, coeff_ofCoeffs, Int.abs_eq_natAbs]
  rw [hsplit, norms_append, ← hfirst]
  exact Nat.cast_add _ _

/-- **Digits with their keys**: the norm of the digits bounds every coefficient of the sum. -/
theorem abs_coeff_intDot_le {bound : ℕ} (digits : List (Poly d)) {key : List (Poly d)}
    (hkey : ∀ a ∈ key, CoeffsLe (intPoly q a) bound) (i : Fin d) :
    |coeff (intDot q digits key) i| ≤ (norms (centeredWords q digits)).l1 * bound := by
  induction digits generalizing key with
  | nil =>
      rw [intDot_nil_left, coeff_zero, abs_zero]
      positivity
  | cons a digits ih =>
      cases key with
      | nil =>
          rw [intDot_nil_right, coeff_zero, abs_zero]
          positivity
      | cons b key =>
          have hfirst := abs_coeff_mul_le (intPoly q a) (hkey b List.mem_cons_self) i
          have hrest := ih fun c hc => hkey c (List.mem_cons_of_mem _ hc)
          rw [intDot_cons, coeff_add, l1_centeredWords_cons, add_mul]
          exact (abs_add_le _ _).trans (add_le_add hfirst hrest)

theorem within_dot {bound : ℕ} (digits : List (Poly d)) {key : List (Poly d)}
    (hkey : ∀ a ∈ key, ∀ i, (centered (a i) q).natAbs ≤ bound) (i : Fin d) :
    Within (coeff (dot q digits key) i) ((norms (centeredWords q digits)).l1 * bound) := by
  refine ⟨coeff (intDot q digits key) i, ?_, ?_⟩
  · rw [← reduce_intDot, reduce, coeff_baseChange]
    rfl
  · rw [Nat.cast_mul]
    exact abs_coeff_intDot_le digits (fun a ha => coeffsLe_of_natAbs (hkey a ha)) i

end Within

/-! ## The parts of an analysis -/

section Parts

variable [NeZero d]

/-- The stored matrix on the errors of the generator key. -/
theorem within_action {M : NativeMatrix} (hq : M.q = q) {eg : List (Poly d)} {bound : ℕ}
    (heg : ∀ a ∈ eg, ∀ i, (centered (a i) q).natAbs ≤ bound) (r : Fin d) :
    Within (coeff (M.action q eg) r)
      ((norms (centeredRow M.toCompiled q r 0 M.toCompiled.cols)).l1 * bound) := by
  subst hq
  have hy (c : ℕ) : (centered ((joinLimbs eg).getD c 0) M.q).natAbs ≤ bound := by
    by_cases hc : c < (joinLimbs eg).length
    · rw [List.getD_eq_getElem _ _ hc]
      obtain ⟨a, ha, i, hval⟩ := mem_joinLimbs (List.getElem_mem hc)
      rw [hval]
      exact heg a ha i
    · rw [List.getD_eq_default _ _ (not_lt.mp hc)]
      exact Nat.zero_le _
  have hrow := within_row (q := M.q) M.toCompiled r M.cols _ fun c _ => hy c
  rw [NativeMatrix.action, coeff_ofCoeffs]
  refine (congrArg (fun x => Within x _) (Finset.sum_congr rfl fun c _ => ?_)).mp hrow
  exact congrArg (· * _) (cast_toNat_emod M.q_pos _)

/-- **A compiled matrix on the secret**: the terms it is compiled from. -/
theorem within_terms {M : PackingMatrix} {terms : List (Term d)} (hM : IsCompiled d q M terms)
    (hodd : ∀ t ∈ terms, Odd t.2) {secret : Poly d} {bound : ℕ}
    (hbound : ∀ i, (centered (secret i) q).natAbs ≤ bound) (r : Fin d) :
    Within (coeff (terms.map fun t => Poly.ring q t.1 * tau t.2 (Poly.ring q secret)).sum r)
      ((norms (centeredRow M q r 0 M.cols)).l1 * bound) := by
  have hy (c : ℕ) (hc : c < d) :
      (centered (if h : c < d then secret ⟨c, h⟩ else 0) q).natAbs ≤ bound := by
    rw [dif_pos hc]
    exact hbound ⟨c, hc⟩
  have hrow := within_row M r d _ hy
  rw [hM.cols, ← hM.action hodd secret, coeff_sum]
  refine (congrArg (fun x => Within x _) ?_).mp hrow
  rw [Finset.sum_range]
  refine Finset.sum_congr rfl fun c _ => ?_
  rw [dif_pos c.2, coeff_smul, Poly.coeff_ring, mul_comm]
  rfl

/-- A combined matrix is compiled from both lists of terms. -/
theorem combined_isCompiled (P : NativeParams d q) {M correction : PackingMatrix}
    {terms masks : List (Term d)} (hM : IsCompiled d q M terms)
    (hcorrection : IsCompiled d q correction masks) :
    IsCompiled d q (combined q M correction) (terms ++ masks) where
  rows := hM.rows
  cols := hM.cols
  modulus := hM.modulus
  entry_lt _ _ := mask_lt P.isPowerOfTwo _
  ring_column c hc := by
    rw [List.map_append, List.sum_append, ← hM.ring_column c hc, ← hcorrection.ring_column c hc]
    refine ext_coeff fun r => ?_
    simp only [coeff_add, Poly.coeff_ring, PackingMatrix.column, combined]
    rw [cast_mask P.isPowerOfTwo, cast_wrappingAdd P.dvd_W64]

/-- **All parts of an analysis together**: the errors of both keys, the terms that meet the secret
and an error of the floors. -/
theorem within_weights {B : NativeMatrix} (hq : B.q = q) {M : PackingMatrix}
    {terms : List (Term d)} (hM : IsCompiled d q M terms) (hodd : ∀ t ∈ terms, Odd t.2)
    (digits : List (Poly d)) {secret : Poly d} {bound rounding : ℕ}
    (hbound : ∀ i, (centered (secret i) q).natAbs ≤ bound) {eg eh : List (Poly d)}
    (heg : ∀ a ∈ eg, ∀ i, (centered (a i) q).natAbs ≤ bound)
    (heh : ∀ a ∈ eh, ∀ i, (centered (a i) q).natAbs ≤ bound + rounding) {e : NegRing d ℤ}
    (he : CoeffsLe e (d * (d - 1) * bound)) (i : Fin d) :
    Within (coeff (B.action q eg + dot q digits eh +
        (terms.map fun t => Poly.ring q t.1 * tau t.2 (Poly.ring q secret)).sum - reduce q e) i)
      ((rowWeights q B.toCompiled M digits).l1 * bound +
        (norms (centeredWords q digits)).l1 * rounding + divisionErrorBound d bound) := by
  have hfloor : Within (coeff (-reduce q e) i) (divisionErrorBound d bound) := by
    refine ⟨coeff (-e) i, ?_, ?_⟩
    · rw [← map_neg, reduce, coeff_baseChange]
      rfl
    · have hnonneg : (0 : ℤ) ≤ d * bound := by positivity
      have hle := he i
      rw [coeff_neg, abs_neg, divisionErrorBound]
      push_cast
      linarith only [hnonneg, hle]
  have hparts := (((within_action hq heg i).add (within_dot digits heh i)).add
    (within_terms hM hodd hbound i)).add hfloor
  have hrow := Nat.mul_le_mul_right bound (l1_row_le (q := q) B.toCompiled M digits i)
  rw [← coeff_add, ← coeff_add, ← coeff_add, ← sub_eq_add_neg] at hparts
  refine hparts.mono ?_
  rw [Nat.add_mul, Nat.add_mul] at hrow
  rw [Nat.mul_add]
  omega

end Parts

/-! ## The terms of a trace -/

section Terms

theorem secretTerms_odd (P : NativeParams d q) (trace : NativeTrace d q) :
    ∀ t ∈ trace.secretTerms P, Odd t.2 := by
  intro t ht
  rcases List.mem_append.mp ht with ht | ht
  · exact (secretExponents_odd P.d_pos _ (List.of_mem_zip ht).2).1
  · split at ht
    · rw [List.mem_singleton.mp ht]
      exact odd_two_mul_sub_one P.d_pos
    · exact absurd ht List.not_mem_nil

theorem publishedMasks_odd (hd : 0 < d) (trace : NativeTrace d q) :
    ∀ mask ∈ trace.publishedMasks, Odd mask.2 := by
  intro mask hmask
  unfold NativeTrace.publishedMasks at hmask
  split at hmask
  · rw [List.mem_singleton.mp hmask]
    exact odd_one
  · rcases List.mem_cons.mp hmask with rfl | hmask
    · exact odd_one
    · rw [List.mem_singleton.mp hmask]
      exact odd_two_mul_sub_one hd

variable [NeZero d] {S : NativeSetup P} {masks : Fin d → Poly d} {twoMask : Bool}
  {left right : List (TraceStep d)} {trace : NativeTrace d q}

/-- What rounding the published masks adds to a phase. -/
noncomputable def NativeTrace.maskError (bits : ℕ) (trace : NativeTrace d q)
    (s : NegRing d (ZMod q)) : NegRing d (ZMod q) :=
  (trace.publishedMasks.map fun mask =>
    (Poly.ring q (roundMask bits q mask.1) - Poly.ring q mask.1) * tau mask.2 s).sum

/-- The last digits of a trace decompose its right output. -/
theorem IsTrace.last_eq (h : IsTrace S masks twoMask left right trace) {last : List (Poly d)}
    (hlast : trace.last = some last) : last = P.limbs trace.right := by
  cases twoMask with
  | true => rw [(h.two_mask rfl).1] at hlast; cases hlast
  | false => exact Option.some.inj (hlast.symm.trans (h.one_mask rfl).1)

theorem IsTrace.step_spec (h : IsTrace S masks twoMask left right trace) {step : TraceStep d}
    (hstep : step ∈ trace.steps) : step.2 = P.limbs step.1 ∧ ∀ i, step.1 i < q := by
  rw [h.steps, List.mem_append] at hstep
  rcases hstep with hstep | hstep
  · exact ⟨h.left.steps_digits step hstep, h.left.steps_lt step hstep⟩
  · exact ⟨h.right.steps_digits step hstep, h.right.steps_lt step hstep⟩

/-- **The terms of the secret** are what the digits of the trace leave. -/
theorem sum_secretTerms (h : IsTrace S masks twoMask left right trace) (s : NegRing d (ZMod q)) :
    ((trace.secretTerms P).map fun t => Poly.ring q t.1 * tau t.2 s).sum =
      trace.secretError P s := by
  have hsteps : (((trace.residues P).zip (secretExponents d (collapseKgExponents d))).map
      fun t => Poly.ring q t.1 * tau t.2 s).sum =
        restSum P s (trace.steps.zip (collapseKgExponents d)) := by
    rw [NativeTrace.residues, secretExponents, List.zip_map, List.map_map, restSum]
    refine congrArg List.sum (List.map_congr_left fun step hstep => ?_)
    obtain ⟨hdigits, hlt⟩ := h.step_spec (List.of_mem_zip hstep).1
    simp only [Function.comp_apply, Prod.map_fst, Prod.map_snd]
    rw [hdigits, ring_residual P hlt, mul_comm]
  rw [NativeTrace.secretTerms, List.map_append, List.sum_append, hsteps, NativeTrace.secretError]
  congr 1
  cases hlast : trace.last with
  | none => simp
  | some last =>
      rw [if_pos Option.isSome_some, h.last_eq hlast]
      simp only [List.map_cons, List.map_nil, List.sum_cons, List.sum_nil, add_zero]
      rw [ring_residual P h.right.out_lt, mul_comm]

theorem publishedMasks_lt (h : IsTrace S masks twoMask left right trace) :
    ∀ mask ∈ trace.publishedMasks, ∀ i, mask.1 i < q := by
  intro mask hmask
  unfold NativeTrace.publishedMasks at hmask
  split at hmask
  · rw [List.mem_singleton.mp hmask]
    exact h.a_lt
  · rcases List.mem_cons.mp hmask with rfl | hmask
    · exact h.left.out_lt
    · rw [List.mem_singleton.mp hmask]
      exact h.right.out_lt

/-- What a screen compiles is what the rounding adds. -/
theorem sum_maskDelta (h : IsTrace S masks twoMask left right trace) (bits : ℕ)
    (s : NegRing d (ZMod q)) :
    ((trace.publishedMasks.map fun mask => (maskDelta bits q mask.1, mask.2)).map
      fun t => Poly.ring q t.1 * tau t.2 s).sum = trace.maskError bits s := by
  rw [List.map_map, NativeTrace.maskError]
  refine congrArg List.sum (List.map_congr_left fun mask hmask => ?_)
  rw [Function.comp_apply, ring_maskDelta P bits (publishedMasks_lt h mask hmask)]

end Terms

/-! ## Soundness -/

section Sound

variable {lib : NumberTheory} {S : NativeSetup P}

/-- Packing in the mode of a block, and the phase under masks that are rounded to `bits` bits. -/
def NativeSecret.roundedPhase (lib : NumberTheory) (secret : NativeSecret P)
    (B : NativePreprocessed P) (bits : ℕ) (b : Poly d) (keys : NativeKeys d) : Result (Poly d) :=
  if B.aOther.isSome then do
    let ct ← B.packTwoMask b keys
    secret.phaseTwoMask lib
      { ct with a := roundMask bits q ct.a, aOther := roundMask bits q ct.aOther }
  else do
    let ct ← B.pack b keys
    secret.phase lib { ct with a := roundMask bits q ct.a }

/-- How far a phase is from the body and the inner products of the masks, centred. -/
def deviation (q : ℕ) (masks : Fin d → Poly d) (secret b phase : Poly d) (i : Fin d) : ℤ :=
  centered ((((phase i : ℤ) - b i - ∑ j, (masks i j : ℤ) * secret j) % (q : ℤ)).toNat) q

/-- **Rounded masks** move the phase by what the rounding adds. -/
theorem roundedPhase_ring [NeZero d] {masks : Fin d → Poly d} {twoMask : Bool}
    {left right : List (TraceStep d)} {trace : NativeTrace d q} {B : NativePreprocessed P}
    (hB : B.BuiltFor lib S) (htrace : IsTrace S masks twoMask left right trace)
    (hfrom : IsBuiltFrom S trace B) {secret : NativeSecret P} (hsecret : ∀ i, secret.coeffs i < q)
    {keys : NativeKeys d} (hfits : keys.FitsMode S twoMask) (hcanonical : keys.Canonical q)
    {b phase : Poly d} (hb : ∀ i, b i < q) (hphase : secret.packedPhase lib B b keys = .ok phase)
    (bits : ℕ) :
    ∃ rounded, secret.roundedPhase lib B bits b keys = .ok rounded ∧
      Poly.ring q rounded =
        Poly.ring q phase + trace.maskError bits (Poly.ring q secret.coeffs) := by
  have hround (a : Poly d) : ∀ i, roundMask bits q a i < q := roundMask_lt P bits a
  cases twoMask with
  | true =>
      obtain ⟨hlast, ha⟩ := htrace.two_mask rfl
      obtain ⟨ct, hct, hctA, hctOther, -⟩ := packTwoMask_body hB hfrom hlast hfits hcanonical hb
      have hsome : B.aOther.isSome := by rw [hfrom.two_mask hlast]; rfl
      obtain ⟨plain, hplain, -, hring⟩ := NativeSecret.phaseTwoMask_spec hB.lift_eq hsecret ct
        (by rw [hctA]; exact htrace.a_lt) (by rw [hctOther]; exact htrace.right.out_lt)
      obtain ⟨rounded, hrounded, -, hring'⟩ := NativeSecret.phaseTwoMask_spec hB.lift_eq hsecret
        { ct with a := roundMask bits q ct.a, aOther := roundMask bits q ct.aOther }
        (hround ct.a) (hround ct.aOther)
      rw [NativeSecret.packedPhase, if_pos hsome, hct, ok_bind, hplain] at hphase
      obtain rfl : plain = phase := Except.ok.inj hphase
      refine ⟨rounded, by rw [NativeSecret.roundedPhase, if_pos hsome, hct, ok_bind, hrounded], ?_⟩
      rw [hring', hring, NativeTrace.maskError, NativeTrace.publishedMasks, hlast]
      simp only [List.map_cons, List.map_nil, List.sum_cons, List.sum_nil, tau_one, AlgHom.id_apply]
      rw [hctA, hctOther, ha]
      ring
  | false =>
      obtain ⟨hlast, -⟩ := htrace.one_mask rfl
      obtain ⟨ct, hct, hctA, -⟩ := pack_body hB hfrom hlast (P.length_limbs _) hfits hcanonical hb
      have hone : ¬B.aOther.isSome := by
        rw [(hfrom.one_mask _ hlast).1]
        exact Bool.false_ne_true
      obtain ⟨plain, hplain, -, hring⟩ := NativeSecret.phase_spec hB.lift_eq hsecret ct
        (by rw [hctA]; exact htrace.a_lt)
      obtain ⟨rounded, hrounded, -, hring'⟩ := NativeSecret.phase_spec hB.lift_eq hsecret
        { ct with a := roundMask bits q ct.a } (hround ct.a)
      rw [NativeSecret.packedPhase, if_neg hone, hct, ok_bind, hplain] at hphase
      obtain rfl : plain = phase := Except.ok.inj hphase
      refine ⟨rounded, by rw [NativeSecret.roundedPhase, if_neg hone, hct, ok_bind, hrounded], ?_⟩
      rw [hring', hring, NativeTrace.maskError, NativeTrace.publishedMasks, hlast]
      simp only [List.map_cons, List.map_nil, List.sum_cons, List.sum_nil, tau_one, AlgHom.id_apply]
      rw [hctA]
      ring

/-- **Every build is analyzed**: the accounting goes through, and reports what it measured. -/
theorem buildScreened_ok [NeZero d] {supportsPacked : Bool} {masks : Fin d → Poly d}
    {twoMask : Bool}
    {left right : List (TraceStep d)} {trace : NativeTrace d q} {B : NativePreprocessed P}
    (h : NativePreprocessed.build lib supportsPacked S (List.ofFn masks) twoMask = .ok B)
    (hrun : traceMasks lib S (List.ofFn masks) twoMask = .ok trace)
    (htrace : IsTrace S masks twoMask left right trace) (screens : ℕ × ℕ) :
    ∃ A secret, NativePreprocessed.buildScreened lib supportsPacked S (List.ofFn masks) twoMask
        screens = .ok (B, A) ∧ IsAnalysis P B.h.toCompiled trace screens A secret := by
  obtain ⟨hB, -⟩ := build_builtFor h
  have hleft := htrace.left.length
  have hright := htrace.right.length
  rw [List.length_reverse, List.length_map, List.length_range] at hleft hright
  have hacc : Accountable P B.h trace := by
    refine ⟨⟨hB.rows_eq, hB.q_eq, fun r c => ?_⟩, hB.cols_eq, ?_, fun last hlast => ?_⟩
    · have hlt : B.h.toCompiled.entry r c < B.h.q := toNat_emod_lt B.h.q_pos _
      rwa [hB.q_eq] at hlt
    · rw [htrace.steps, List.length_append, hleft, hright, collapseKgExponents_eq P.d_pos]
      simp
    · rw [htrace.last_eq hlast]
      exact ⟨P.length_limbs _, P.limbs_lt _⟩
  obtain ⟨A, secret, hA, hspec⟩ := hacc.analyzeTrace_ok screens
  refine ⟨A, secret, ?_, hspec⟩
  unfold NativePreprocessed.build compileTrace at h
  rw [hrun, ok_bind] at h
  obtain ⟨M, hM, hblock⟩ := bind_eq_ok h
  -- the analysis is run on the matrix that the block keeps
  rw [NativeTrace.toBlock_h hblock] at hA
  rw [NativePreprocessed.buildScreened, hrun, ok_bind, hM, ok_bind, hA, ok_bind, hblock, ok_bind]

theorem natAbs_deviation_le [NeZero d] (P : NativeParams d q) {masks : Fin d → Poly d}
    {secret b phase : Poly d} {i : Fin d} {bound : ℕ}
    (h : Within (coeff (Poly.ring q phase - Poly.ring q b - innerProducts q masks secret) i)
      bound) :
    (deviation q masks secret b phase i).natAbs ≤ bound := by
  refine Within.centered_le P.q_pos ?_
  rw [coeff_sub, coeff_sub, Poly.coeff_ring, Poly.coeff_ring, innerProducts, coeff_ofCoeffs] at h
  push_cast
  exact h

/-- **The accounting is sound.**  Every build is analyzed.  For every secret and all keys whose
coefficients and errors are within a bound, those of the conjugation key also within a further
rounding, the phase of what the block packs misses the body and the inner products of the masks by
at most the reported weight of the bound, the reported weight of the rounding and the division
error.  The weight of a screen does the same for the masks that are rounded to its width. -/
theorem noise_bound (hinv : lib.InvertsOdd d) {supportsPacked : Bool} {masks : Fin d → Poly d}
    {twoMask : Bool} {B : NativePreprocessed P}
    (h : NativePreprocessed.build lib supportsPacked S (List.ofFn masks) twoMask = .ok B)
    (screens : ℕ × ℕ) {secret : NativeSecret P} (hsecret : ∀ i, secret.coeffs i < q)
    {bound rounding : ℕ} (hbound : ∀ i, (centered (secret.coeffs i) q).natAbs ≤ bound)
    {eg eh : List (Poly d)} (heg : ∀ a ∈ eg, ∀ i, (centered (a i) q).natAbs ≤ bound)
    (heh : ∀ a ∈ eh, ∀ i, (centered (a i) q).natAbs ≤ bound + rounding) {keys : NativeKeys d}
    (hkeys : keys.IsFor S secret.coeffs eg eh twoMask) {b : Poly d} (hb : ∀ i, b i < q) :
    ∃ (A : NativeNoiseAnalysis) (phase : Poly d),
      NativePreprocessed.buildScreened lib supportsPacked S (List.ofFn masks) twoMask screens =
        .ok (B, A) ∧
      secret.packedPhase lib B b keys = .ok phase ∧
      (∀ i, (deviation q masks secret.coeffs b phase i).natAbs ≤
        A.weights.l1 * bound + A.khL1 * rounding + divisionErrorBound d bound) ∧
      (A.publicMaskScreens.map Prod.fst = if twoMask
        then List.range' screens.1 (min screens.2 q.log2 + 1 - screens.1)
        else List.range' 24 (min 32 q.log2 + 1 - 24)) ∧
      ∀ screen ∈ A.publicMaskScreens, ∃ rounded : Poly d,
        secret.roundedPhase lib B screen.1 b keys = .ok rounded ∧
        ∀ i, (deviation q masks secret.coeffs b rounded i).natAbs ≤
          screen.2.l1 * bound + A.khL1 * rounding + divisionErrorBound d bound := by
  have : NeZero d := ⟨P.d_pos.ne'⟩
  obtain ⟨trace, left, right, hrun, htrace, hfrom⟩ := exists_builtTrace hinv h
  obtain ⟨hB, -⟩ := build_builtFor h
  obtain ⟨A, M, hA, hspec⟩ := buildScreened_ok h hrun htrace screens
  obtain ⟨phase, hphase, -, hring⟩ := packedPhase_ring hB htrace hfrom hsecret hkeys hb
  obtain ⟨e, he, hfloor⟩ := exists_floorError P masks hbound
  have hsecretSum := sum_secretTerms htrace (Poly.ring q secret.coeffs)
  refine ⟨A, phase, hA, hphase, fun i => natAbs_deviation_le P ?_, ?_, fun screen hscreen => ?_⟩
  · have hwithin := within_weights hB.q_eq hspec.compiled (secretTerms_odd P trace)
      (trace.last.getD []) hbound heg heh he i
    rw [hsecretSum] at hwithin
    rw [hspec.weights, hspec.khL1, hring, hfloor]
    refine (congrArg (fun p => Within (coeff p i) _) ?_).mp hwithin
    rw [NativeTrace.lastError]
    ring
  · rw [hspec.widths, NativeTrace.screenWidths]
    cases twoMask with
    | true => rw [(htrace.two_mask rfl).1]; rfl
    | false => rw [(htrace.one_mask rfl).1]; rfl
  · obtain ⟨correction, hcorrection, hweights⟩ := hspec.screens screen hscreen
    obtain ⟨rounded, hrounded, hmoved⟩ := roundedPhase_ring hB htrace hfrom hsecret hkeys.fits
      hkeys.canonical hb hphase screen.1
    refine ⟨rounded, hrounded, fun i => natAbs_deviation_le P ?_⟩
    have hodd : ∀ t ∈ trace.secretTerms P ++
        trace.publishedMasks.map (fun mask => (maskDelta screen.1 q mask.1, mask.2)), Odd t.2 := by
      intro t ht
      rcases List.mem_append.mp ht with ht | ht
      · exact secretTerms_odd P trace t ht
      · obtain ⟨mask, hmask, rfl⟩ := List.mem_map.mp ht
        exact publishedMasks_odd P.d_pos trace mask hmask
    have hwithin := within_weights hB.q_eq (combined_isCompiled P hspec.compiled hcorrection) hodd
      (trace.last.getD []) hbound heg heh he i
    rw [List.map_append, List.sum_append, hsecretSum, sum_maskDelta htrace] at hwithin
    rw [hweights, hspec.khL1, hmoved, hring, hfloor]
    refine (congrArg (fun p => Within (coeff p i) _) ?_).mp hwithin
    rw [NativeTrace.lastError]
    ring

/-- A block of degree four with two published masks, screened at three widths. -/
theorem noise_bound_small : ∃ (B : NativePreprocessed smallNativeParams) (A : NativeNoiseAnalysis)
    (keys : NativeKeys 4) (phase : Poly 4),
    NativePreprocessed.buildScreened nativeNumberTheory false smallSetup
      (List.ofFn fun j i : Fin 4 => 4000 * (j : ℕ) + 7 * i) true (13, 15) = .ok (B, A) ∧
    NativeKeys.generateOneKey nativeNumberTheory onesGenerator smallSetup onesSecret () =
      .ok (keys, ()) ∧
    onesSecret.packedPhase nativeNumberTheory B (fun i => i) keys = .ok phase ∧
    (∀ i, (deviation (2 ^ 16) (fun j i : Fin 4 => 4000 * (j : ℕ) + 7 * i) onesSecret.coeffs
      (fun i => i) phase i).natAbs ≤
        A.weights.l1 * 65 + A.khL1 * 0 + divisionErrorBound 4 65) ∧
    A.publicMaskScreens.map Prod.fst = [13, 14, 15] := by
  obtain ⟨lift, hlift⟩ := liftContext_new_native
  have hmasks (j i : Fin 4) : 4000 * (j : ℕ) + 7 * i < 2 ^ 16 := by omega
  obtain ⟨B, hB, -⟩ := build_ok false (S := smallSetup) hlift invertsOdd_native _ hmasks true
  have hone (i : Fin 4) : onesSecret.coeffs i < 2 ^ 16 := Nat.one_lt_two_pow (by decide)
  have hle (i : Fin 4) : (centered (onesSecret.coeffs i) (2 ^ 16)).natAbs ≤ 65 :=
    show (centered 1 (2 ^ 16)).natAbs ≤ 65 by decide
  have hbody (i : Fin 4) : (i : ℕ) < 2 ^ 16 := i.2.trans (by decide)
  obtain ⟨keys, ⟨⟩, hkeys⟩ :=
    NativeKeys.returns_generateInternal onesGenerator smallSetup hone hlift true ()
  obtain ⟨eg, eh, hfor, hsmall⟩ :=
    yields_generateInternal_isFor onesGenerator_bounded hone true () keys () hkeys
  have heh : ∀ a ∈ eh, ∀ i : Fin 4, (centered (a i) (2 ^ 16)).natAbs ≤ 65 + 0 :=
    fun a ha => (hsmall a (List.mem_append_right _ ha)).le
  obtain ⟨A, phase, hA, hphase, hdeviation, hwidths, -⟩ := noise_bound invertsOdd_native hB (13, 15)
    hone hle (fun a ha => (hsmall a (List.mem_append_left _ ha)).le) heh hfor hbody
  exact ⟨B, A, keys, phase, hA, hkeys, hphase, hdeviation, hwidths.trans (by decide)⟩

end Sound

end Reinspiring
