import IpirSp.Reinspiring.NativePack
import IpirSp.Reinspiring.NativeSecret

/-!
# Key bodies

A body of a native key hides a gadget multiple of an image of the secret behind an error.
`NativeKeys.IsFor` says this of all bodies of an upload, for arbitrary errors, and
`yields_generateInternal_isFor` that generated keys are of this kind, with errors within the support
of the sampler.
-/

namespace Reinspiring

open Negacyclic SpiralRs Inspiring Loops MachineWord KeySwitch Matrix

variable {d q : ℕ} {P : NativeParams d q}

/-! ## Bodies and their errors -/

section Keys

/-- The weights of the limbs. -/
noncomputable def NativeParams.gadgetVec (P : NativeParams d q) (j : Fin P.ell) :
    NegRing d (ZMod q) := ((P.factor j : ℕ) : NegRing d (ZMod q))

/-- What the limbs of a polynomial leave of it. -/
noncomputable def NativeParams.roundOff (P : NativeParams d q) (a : Poly d) : NegRing d (ZMod q) :=
  ofCoeffs fun i => ((P.roundingError (a i) : ℤ) : ZMod q)

/-- Bodies that encrypt the gadget multiples of `target` under `s`, against the given masks. -/
def IsNativeBody (P : NativeParams d q) (s target : NegRing d (ZMod q))
    (masks errs bodies : List (Poly d)) : Prop :=
  ∀ j, digitVector P bodies j =
    -(s * digitVector P masks j) + digitVector P errs j + target * P.gadgetVec j

/-- Keys of a setup for a secret, with the errors of their bodies. -/
structure NativeKeys.IsFor (S : NativeSetup P) (secret : Poly d) (eg eh : List (Poly d))
    (twoMask : Bool) (keys : NativeKeys d) : Prop where
  fits : keys.FitsMode S twoMask
  canonical : keys.Canonical q
  length_eg : eg.length = P.ell
  length_eh : twoMask = false → eh.length = P.ell
  kg : IsNativeBody P (Poly.ring q secret) (tau 5 (Poly.ring q secret)) S.w eg keys.kg
  kh : twoMask = false →
    IsNativeBody P (Poly.ring q secret) (tau (2 * d - 1) (Poly.ring q secret)) S.v eh keys.kh

/-- **The limbs with their weights** are the polynomial, up to what they leave. -/
theorem gadgetVec_dotProduct_limbs [NeZero d] (a : Poly d) :
    P.gadgetVec ⬝ᵥ digitVector P (P.limbs a) = Poly.ring q a + P.roundOff a := by
  refine ext_coeff fun i => ?_
  have hsum := P.sum_decompose a i
  rw [Finset.sum_range] at hsum
  rw [coeff_add, Poly.coeff_ring, NativeParams.roundOff, coeff_ofCoeffs, ← hsum,
    dotProduct, coeff_sum]
  refine Finset.sum_congr rfl fun j _ => ?_
  have hscale : P.gadgetVec j * digitVector P (P.limbs a) j =
      ((P.factor j : ℕ) : ZMod q) • Poly.ring q (P.limb a j) := by
    rw [digitVector_limbs, NativeParams.gadgetVec, Algebra.smul_def, map_natCast]
  rw [hscale, coeff_smul, Poly.coeff_ring, mul_comm]

/-- A key body is a key family under the exponents of a chain. -/
theorem isKeyFamily_native {S : NativeSetup P} {s : NegRing d (ZMod q)} {eg kg : List (Poly d)}
    (hkg : IsNativeBody P s (tau 5 s) S.w eg kg) {exp : ℕ → ℕ} (hodd : ∀ i, Odd (exp i))
    (hsucc : ∀ i, exp i * 5 ≡ exp (i + 1) [MOD 2 * d]) (n : ℕ) :
    IsKeyFamily n P.gadgetVec (fun i => tau (exp i) s) (S.top exp)
      (fun i j => tau (exp i) (digitVector P kg j))
      (fun i j => tau (exp i) (digitVector P eg j)) := by
  intro i _ j
  have hnext : tau (exp i) (tau 5 s) = tau (exp (i + 1)) s := by
    rw [tau_tau (hodd i) (by decide)]
    exact congrArg (fun f => f s) (tau_congr ((hodd i).mul (by decide)) (hodd (i + 1)) (hsucc i))
  have hweight : tau (exp i) (P.gadgetVec j) = P.gadgetVec j := map_natCast _ _
  dsimp only
  rw [hkg j, map_add, map_add, map_neg, map_mul, map_mul, hnext, hweight]
  rfl

end Keys

/-! ## Generated keys -/

section Generated

variable {R : Type} {gen : Generator R} {lib : NumberTheory}

/-- Canonical polynomials whose coefficients are within a bound. -/
structure SmallPoly (q bound : ℕ) (a : Poly d) : Prop where
  lt : ∀ i, a i < q
  le : ∀ i, (centered (a i) q).natAbs ≤ bound

theorem yields_gaussian (hgen : gen.Bounded q) :
    Yields (drawPoly d (gen.gaussian q)) (SmallPoly q gaussianMaxVal) :=
  (yields_drawPoly (fun x => x < q ∧ (centered x q).natAbs ≤ gaussianMaxVal)
    fun rng => ⟨hgen.lt rng, hgen.le rng⟩).mono fun _ h => ⟨fun i => (h i).1, fun i => (h i).2⟩

/-- **A generated body** hides a gadget multiple behind a small error. -/
theorem yields_generateBody (hgen : gen.Bounded q) {lift : LiftContext d q}
    {secret : NativeSecret P}
    (hsecret : ∀ i, secret.coeffs i < q) (source : Poly d) {w : Poly d}
    (hw : ∀ i, w i < q) (j : ℕ) :
    Yields (NativeKeys.generateBody gen lift secret source (w, j)) fun body =>
      ∃ err : Poly d, SmallPoly q gaussianMaxVal err ∧ Poly.ring q body =
        -(Poly.ring q secret.coeffs * Poly.ring q w) + Poly.ring q err +
          Poly.ring q source * ((P.factor j : ℕ) : NegRing d (ZMod q)) := by
  refine (yields_stateless _).bind fun ws hws => ?_
  refine (yields_gaussian hgen).bind fun err herr => Yields.pure ⟨err, herr, ?_⟩
  obtain ⟨ws', hws', hlt, hring⟩ := lift.multiply_spec hw hsecret
  obtain rfl : ws = ws' := Except.ok.inj (hws.symm.trans hws')
  have hword (i : Fin d) : ws i ≤ W64 :=
    (hlt i).le.trans (P.q_le.trans (by decide))
  have hscale : Poly.ring q source * ((P.factor j : ℕ) : NegRing d (ZMod q)) =
      ((P.factor j : ℕ) : ZMod q) • Poly.ring q source := by
    rw [Algebra.smul_def, map_natCast, mul_comm]
  rw [mul_comm (Poly.ring q secret.coeffs), ← hring, hscale, Poly.ring, Poly.ring, Poly.ring,
    Poly.ring, ← map_neg, ← map_smul, ← map_add, ← map_add]
  congr 1
  funext i
  rw [cast_mask P.isPowerOfTwo, cast_wrappingSub P.dvd_W64 _ (hword i), cast_wrappingAdd P.dvd_W64,
    cast_wrappingMul P.dvd_W64]
  simp only [Pi.add_apply, Pi.neg_apply, Pi.smul_apply, smul_eq_mul]
  ring

/-- **Generated bodies** are native bodies with small errors. -/
theorem yields_generateBodies_isNativeBody (hgen : gen.Bounded q) {lift : LiftContext d q}
    {secret : NativeSecret P} (hsecret : ∀ i, secret.coeffs i < q) {masks : List (Poly d)}
    (hlen : masks.length = P.ell) (hmasks : ∀ w ∈ masks, ∀ i, w i < q) {g : ℕ} (hg : Odd g) :
    Yields (NativeKeys.generateBodies gen lift secret masks g) fun bodies =>
      ∃ errs : List (Poly d), errs.length = P.ell ∧ (∀ a ∈ errs, SmallPoly q gaussianMaxVal a) ∧
        IsNativeBody P (Poly.ring q secret.coeffs) (tau g (Poly.ring q secret.coeffs)) masks errs
          bodies := by
  have hitems : ∀ item ∈ masks.zipIdx, Yields (NativeKeys.generateBody gen lift secret
      (tauCoeffs secret.coeffs g q) item) fun body =>
        ∃ err : Poly d, SmallPoly q gaussianMaxVal err ∧
        Poly.ring q body = -(Poly.ring q secret.coeffs * Poly.ring q item.1) + Poly.ring q err +
          tau g (Poly.ring q secret.coeffs) * ((P.factor item.2 : ℕ) : NegRing d (ZMod q)) := by
    rintro ⟨w, j⟩ hitem
    rw [← ring_tauCoeffs P.q_pos hg]
    exact yields_generateBody hgen hsecret _ (hmasks w (List.fst_mem_of_mem_zipIdx hitem)) j
  refine (yields_mapM hitems).mono fun bodies hbodies => ?_
  -- the errors of the bodies, position by position
  have herr (j : Fin P.ell) : ∃ err : Poly d, SmallPoly q gaussianMaxVal err ∧
      digitVector P bodies j = -(Poly.ring q secret.coeffs * digitVector P masks j) +
        Poly.ring q err + tau g (Poly.ring q secret.coeffs) * P.gadgetVec j := by
    have hj : (j : ℕ) < masks.zipIdx.length := by
      rw [List.length_zipIdx, hlen]
      exact j.2
    have hj' : (j : ℕ) < bodies.length := hbodies.length_eq ▸ hj
    obtain ⟨err, hsmall, hring⟩ := hbodies.get hj hj'
    refine ⟨err, hsmall, ?_⟩
    simp only [List.get_eq_getElem, List.getElem_zipIdx, zero_add] at hring
    rw [digitVector, digitVector, List.getD_eq_getElem _ _ hj',
      List.getD_eq_getElem _ _ (by rw [hlen]; exact j.2)]
    exact hring
  choose err hsmall hring using herr
  refine ⟨List.ofFn err, List.length_ofFn, fun a ha => ?_, fun j => ?_⟩
  · obtain ⟨j, rfl⟩ := (List.mem_ofFn' err a).mp ha
    exact hsmall j
  · have herrs : digitVector P (List.ofFn err) j = Poly.ring q (err j) := by
      rw [digitVector, List.getD_eq_getElem _ _ (by rw [List.length_ofFn]; exact j.2),
        List.getElem_ofFn]
    rw [herrs]
    exact hring j

/-- **Generated keys are keys of the secret**, with errors within the support of the sampler. -/
theorem yields_generateInternal_isFor (hgen : gen.Bounded q) {S : NativeSetup P}
    {secret : NativeSecret P} (hsecret : ∀ i, secret.coeffs i < q) (oneKey : Bool) :
    Yields (NativeKeys.generateInternal lib gen S secret oneKey) fun keys =>
      ∃ eg eh, keys.IsFor S secret.coeffs eg eh oneKey ∧
        ∀ a ∈ eg ++ eh, SmallPoly q gaussianMaxVal a := by
  have hfive : Odd (5 % (2 * d)) := odd_mod_two_mul (odd_five_pow 1) d
  have htau : tau (5 % (2 * d)) (Poly.ring q secret.coeffs) = tau 5 (Poly.ring q secret.coeffs) :=
    congrArg (fun f => f (Poly.ring q secret.coeffs))
      (tau_congr hfive (odd_five_pow 1) (Nat.mod_modEq _ _))
  have hbodies : Yields (NativeKeys.generateInternal lib gen S secret oneKey) fun keys =>
      ∃ eg eh : List (Poly d), (eg.length = P.ell ∧ (oneKey = false → eh.length = P.ell) ∧
        ∀ a ∈ eg ++ eh, SmallPoly q gaussianMaxVal a) ∧
        IsNativeBody P (Poly.ring q secret.coeffs) (tau 5 (Poly.ring q secret.coeffs)) S.w
          eg keys.kg ∧
        (oneKey = false → IsNativeBody P (Poly.ring q secret.coeffs)
          (tau (2 * d - 1) (Poly.ring q secret.coeffs)) S.v eh keys.kh) := by
    refine (yields_stateless _).bind fun lift _ => ?_
    refine (yields_generateBodies_isNativeBody hgen hsecret S.length_w S.w_lt hfive).bind
      fun kg hkg => ?_
    obtain ⟨eg, hlenG, hsmallG, hbodyG⟩ := hkg
    rw [htau] at hbodyG
    cases oneKey with
    | true =>
        refine Yields.bind (fun _ _ _ _ => trivial) fun kh _ => Yields.pure ⟨eg, [], ?_⟩
        refine ⟨⟨hlenG, (fun h => by cases h), fun a ha => ?_⟩, hbodyG, fun h => by cases h⟩
        exact hsmallG a (by rwa [List.append_nil] at ha)
    | false =>
        refine (yields_generateBodies_isNativeBody hgen hsecret S.length_v S.v_lt
          (odd_two_mul_sub_one P.d_pos)).bind fun kh hkh => ?_
        obtain ⟨eh, hlenH, hsmallH, hbodyH⟩ := hkh
        refine Yields.pure ⟨eg, eh, ⟨hlenG, fun _ => hlenH, fun a ha => ?_⟩, hbodyG, fun _ =>
          hbodyH⟩
        exact (List.mem_append.mp ha).elim (hsmallG a) (hsmallH a)
  intro rng keys rng' hrun
  obtain ⟨hid, hlenG, hlenH, hcanonical⟩ :=
    NativeKeys.yields_generateInternal lib gen S secret oneKey rng keys rng' hrun
  obtain ⟨eg, eh, ⟨hlenEg, hlenEh, hsmall⟩, hkg, hkh⟩ := hbodies rng keys rng' hrun
  refine ⟨eg, eh, ⟨⟨hid, hlenG, ?_⟩, hcanonical, hlenEg, hlenEh, hkg, hkh⟩, hsmall⟩
  cases oneKey with
  | true => exact List.length_eq_zero_iff.mp hlenH
  | false => exact hlenH

end Generated

end Reinspiring
