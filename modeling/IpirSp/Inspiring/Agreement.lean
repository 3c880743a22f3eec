import IpirSp.Inspiring.Phase
import IpirSp.Inspiring.Intermediate

/-!
# The three packing paths agree

The all-online path runs `transform`, `aggregate` and `collapse` on the ciphertexts and the
materialised key pair.  `PackPreprocessed.build` and `pack` collapse the same keys offline over a
zero body and add the body vector at the end.  `QueryPackPreprocessed.build` and `packB` never see
the key bodies offline.

All three run the schedule of `IpirSp.Inspiring.Trace` on the same components: the first two with
the key pair itself, the third with keys that have the same mask rows.  As the component side reads
nothing else, components and digits agree, and the bodies are the same sum.
-/

namespace Inspiring

open Negacyclic SpiralRs Loops

variable {P : RlweParams}

/-- The all-online path: every ciphertext through `transform`, then `aggregate` and `collapse` with
the automorphic images of the key pair. -/
def packAllOnline (batch : LweBatch) (kg kh : KeySwitchingMatrix P) :
    Outcome (RlweCiphertext P) := do
  let agg ← batch.inner.mapM (transform P) >>= aggregate P
  let leftImages := (List.range (P.d / 2 - 1)).map fun i => automorphicImage kg (tauGPow i P.d)
  let rightImages := (List.range (P.d / 2 - 1)).map fun i =>
    automorphicImage kg (tauGPow i P.d * h P.d % (2 * P.d))
  collapse agg leftImages rightImages kh

/-- The masks of a batch. -/
def LweBatch.masks (batch : LweBatch) (k : Fin P.d) : Poly P.d :=
  vecGet ((batch.inner.map LweCiphertext.a).getD k [])

/-- The CRS block of a batch. -/
def LweBatch.crs (batch : LweBatch) : PolyMatrixNTT P.d P.q := crsOfRows P batch.masks

/-- The bodies of a batch. -/
def LweBatch.bScalars (batch : LweBatch) : List ℕ := batch.inner.map LweCiphertext.b

/-- What `validate` accepts. -/
theorem LweBatch.shape_of_validate {batch : LweBatch} (h : batch.validate P = .ok ()) :
    batch.inner.length = P.d ∧ ∀ ct ∈ batch.inner, ct.a.length = P.d := by
  unfold LweBatch.validate at h
  split at h
  · cases h
  · rename_i hlen
    split at h
    · cases h
    · rename_i hfind
      refine ⟨not_not.mp hlen, ?_⟩
      intro ct hct
      obtain ⟨i, hi, rfl⟩ := List.getElem_of_mem hct
      have hnone := List.find?_eq_none.mp hfind (batch.inner[i], i)
        (List.mk_mem_zipIdx_iff_getElem?.mpr (List.getElem?_eq_getElem hi))
      simpa using hnone

/-- An image through the coefficient domain is the image through the table. -/
theorem automorphicImage_eq (kg : KeySwitchingMatrix P) {e : ℕ} (he : Odd e) :
    automorphicImage kg e = keyImage kg e := by
  have hentry : (fun v => tauNtt P v e) = fun v => applyTauNtt v (tauTable P e) := by
    funext v
    apply P.spiral.ring_injective
    rw [ring_tauNtt he, ring_applyTauNtt he]
  unfold automorphicImage keyImage automorphicImageWithTable
  rw [hentry]

/-- The image lists of the all-online path are those of the tables. -/
theorem onlineImages_eq (kg : KeySwitchingMatrix P) (n : ℕ) :
    ((List.range n).map fun i => automorphicImage kg (tauGPow i P.d)) =
        (leftTables P 0 n).map (automorphicImageWithTable kg) ∧
      ((List.range n).map fun i => automorphicImage kg (tauGPow i P.d * h P.d % (2 * P.d))) =
        (rightTables P 0 n).map (automorphicImageWithTable kg) := by
  rw [map_leftTables, map_rightTables]
  constructor
  · refine List.map_congr_left fun i _ => ?_
    rw [tauGPow_eq P.d_pos, automorphicImage_eq kg (odd_leftExp P.d i)]
  · refine List.map_congr_left fun i _ => ?_
    have hmod : leftExp P.d i * (2 * P.d - 1) % (2 * P.d) = rightExp P.d i := by
      have hcongr := leftExp_mul_neg P.d i
      rwa [Nat.ModEq, Nat.mod_eq_of_lt (rightExp_lt P.d_pos i)] at hcongr
    rw [tauGPow_eq P.d_pos, h, hmod, automorphicImage_eq kg (odd_rightExp P.d_pos i)]

/-- The masks of a batch of reduced words are reduced. -/
theorem LweBatch.masks_lt {batch : LweBatch} (hwords : ∀ ct ∈ batch.inner, ∀ w ∈ ct.a, w < P.q)
    (k i : Fin P.d) : batch.masks k i < P.q := by
  have hmem (l : List ℕ) (hl : ∀ w ∈ l, w < P.q) : vecGet l i < P.q := by
    rw [vecGet, List.getD_eq_getElem?_getD]
    cases hget : l[(i : ℕ)]? with
    | none => exact P.q_pos
    | some w => exact hl w (List.mem_of_getElem? hget)
  apply hmem
  rw [List.getD_eq_getElem?_getD]
  cases hget : (batch.inner.map LweCiphertext.a)[(k : ℕ)]? with
  | none =>
      intro w hw
      cases hw
  | some a =>
      obtain ⟨ct, hct, rfl⟩ := List.mem_map.mp (List.mem_of_getElem? hget)
      exact hwords ct hct

/-- The components that stages one and two leave are the aggregated slots of the block. -/
theorem aHat_eq_map_range {aHat : ℕ → Ntt P.d P.q} {l : List (Ntt P.d P.q)} (hlen : l.length = P.d)
    (hl : ∀ e (he : e < l.length), P.spiral.ring l[e] = P.spiral.ring (aHat e)) :
    l = (List.range P.d).map aHat := by
  apply List.ext_getElem
  · simpa using hlen
  · intro e he _
    rw [List.getElem_map, List.getElem_range]
    exact P.spiral.ring_injective (hl e he)

section Keys

variable {keys : PackingKeys P}

/-- The key pair of validated uploads. -/
def PackingKeys.pair (keys : PackingKeys P) : KeySwitchingMatrix P × KeySwitchingMatrix P :=
  (⟨(referenceMaskTop P REFERENCE_W_SEED).stack keys.kgBody⟩,
    ⟨(referenceMaskTop P REFERENCE_V_SEED).stack keys.khBody⟩)

theorem toKeyPair_eq (hkg : BodyShape keys.kgBody P.gadget.ell)
    (hkh : BodyShape keys.khBody P.gadget.ell) : keys.toKeyPair = .ok keys.pair := by
  unfold PackingKeys.toKeyPair PackingKeys.validate
  rw [validateReferenceBody_ok hkg, ok_bind, validateReferenceBody_ok hkh]
  rfl

theorem pair_wellShaped (hkg : BodyShape keys.kgBody P.gadget.ell)
    (hkh : BodyShape keys.khBody P.gadget.ell) :
    keys.pair.1.WellShaped ∧ keys.pair.2.WellShaped := by
  constructor
  · exact ⟨congrArg (1 + ·) hkg.1, rfl⟩
  · exact ⟨congrArg (1 + ·) hkh.1, rfl⟩

end Keys

/-- **The all-online path** on a batch whose aggregated slots are `aHat`. -/
theorem packAllOnline_eq (hq : P.q < 2 ^ 62) (hfit : DigitsFit P) {batch : LweBatch}
    (hvalid : batch.validate P = .ok ()) {kg kh : KeySwitchingMatrix P} (hkg : kg.WellShaped)
    (hkh : kh.WellShaped) {aHat : ℕ → Ntt P.d P.q}
    (hring : ∀ slot < P.d, P.spiral.ring (aHat slot) =
      aggRing (fun row => aTildeCoeffs P (batch.masks row)) slot) :
    ∃ c2, packAllOnline batch kg kh = .ok ⟨blockComponent kg kh aHat, c2⟩ ∧
      P.spiral.ring c2 = Poly.ring P.q (fun k => vecGet batch.bScalars k) +
        blockSum P (ringVec kg.body) (ringVec kh.body) (leftDigits kg aHat) (rightDigits kg aHat)
          (finalDigits kg aHat) := by
  obtain ⟨hlen, hrows⟩ := LweBatch.shape_of_validate hvalid
  obtain ⟨⟨aggSlots, bTilde⟩, hrun, hslots, hagg, hlt, hbody⟩ := aggregate_transform hq hlen hrows
  obtain rfl : aggSlots = (List.range P.d).map aHat := by
    refine aHat_eq_map_range hslots ?_
    intro e he
    rw [hagg e he, hring e (hslots ▸ he)]
    rfl
  obtain ⟨c2, hcollapse, hc2⟩ := collapse_eq aHat hfit hkg hkh bTilde
  refine ⟨c2, ?_, ?_⟩
  · unfold packAllOnline
    rw [hrun, ok_bind]
    simp only [onlineImages_eq]
    exact hcollapse
  · rw [hc2, P.spiral.ring_toNttAlloc fun i => P.spiral.lt_word_of_le (hlt i).le, hbody]
    rfl

/-- **Preprocessing with full keys, then `pack`.** -/
theorem packPreprocessed_eq (hsep : ProbesSeparate P) (hfit : DigitsFit P) {batch : LweBatch}
    (hvalid : batch.validate P = .ok ()) {kg kh : KeySwitchingMatrix P} (hkg : kg.WellShaped)
    (hkh : kh.WellShaped) {crs : PolyMatrixNTT P.d P.q} {aHat : ℕ → Ntt P.d P.q}
    (hpub : PackPublicPreprocessed.build P crs = .ok ⟨(List.range P.d).map aHat⟩) :
    ∃ pre c2, PackPreprocessed.build P crs kg kh = .ok pre ∧
      pack batch pre = .ok ⟨blockComponent kg kh aHat, c2⟩ ∧
      P.spiral.ring c2 = Poly.ring P.q (fun k => vecGet batch.bScalars k) +
        blockSum P (ringVec kg.body) (ringVec kh.body) (leftDigits kg aHat) (rightDigits kg aHat)
          (finalDigits kg aHat) := by
  obtain ⟨offset, hcollapse, hoffset⟩ := collapse_eq aHat hfit hkg hkh fun _ => 0
  refine ⟨⟨blockComponent kg kh aHat, offset⟩, P.spiral.addInto (P.spiral.toNttAlloc fun idx =>
    vecGet batch.bScalars idx % P.q) offset, ?_, ?_, ?_⟩
  · unfold PackPreprocessed.build
    rw [hpub, ok_bind, PackPublicPreprocessed.bindKeys, if_neg (by simp [hkg.1, hkg.2]),
      if_neg (by simp [hkh.1, hkh.2]), tauGPowerTables_eq hsep, ok_bind]
    simp only [precomputeCollapseAffine, hcollapse, ok_bind]
  · unfold pack
    rw [hvalid, ok_bind]
    rfl
  · have hzero : P.spiral.ring (P.spiral.toNttAlloc fun _ => 0) = 0 := by
      rw [P.spiral.ring_toNttAlloc fun _ => by decide, Poly.ring_zero]
    rw [P.spiral.ring_addInto, hoffset, hzero, zero_add, P.spiral.ring_toNttAlloc fun i =>
      P.spiral.lt_word_of_le (Nat.mod_lt _ P.q_pos).le, Poly.ring_mod]

/-- **The three packing paths return the same ciphertext**, for every batch, every pair of uploaded
key bodies and every scheduler of the online sum.  If the random probes of the table search never
separate the slots, both preprocessing paths end in the panic of that search. -/
theorem packings_agree (P : RlweParams) (hq : P.q < 2 ^ 62) (hfit : DigitsFit P) (batch : LweBatch)
    (hvalid : batch.validate P = .ok ()) (hwords : ∀ ct ∈ batch.inner, ∀ w ∈ ct.a, w < P.q)
    (keys : PackingKeys P) (hkg : BodyShape keys.kgBody P.gadget.ell)
    (hkh : BodyShape keys.khBody P.gadget.ell) (workers : Scheduler (CollapseTerm P)) :
    (ProbesSeparate P → ∃ kg kh pre queryPre top out,
      keys.toKeyPair = .ok (kg, kh) ∧ packAllOnline batch kg kh = .ok out ∧
        PackPreprocessed.build P batch.crs kg kh = .ok pre ∧ pack batch pre = .ok out ∧
        QueryPackPreprocessed.build P batch.crs = .ok queryPre ∧ TopKeyImages.build P = .ok top ∧
        queryPre.packB workers batch.bScalars keys top = .ok out) ∧
      (¬ProbesSeparate P → ∀ kg kh : KeySwitchingMatrix P,
        PackPreprocessed.build P batch.crs kg kh = .error tableSearchPanic ∧
          QueryPackPreprocessed.build P batch.crs = .error tableSearchPanic) := by
  have hmasks := LweBatch.masks_lt hwords
  constructor
  · intro hsep
    have hscalars : batch.bScalars.length = P.d :=
      (List.length_map _).trans (LweBatch.shape_of_validate hvalid).1
    obtain ⟨aHat, hpub, hring⟩ := publicBuild_eq hsep hmasks
    obtain ⟨hpair, hpair'⟩ := pair_wellShaped hkg hkh
    obtain ⟨top, htop, htopValid, hleft, hright⟩ := topImages_build hsep
    obtain ⟨c2, honline, hc2⟩ := packAllOnline_eq hq hfit hvalid hpair hpair' hring
    obtain ⟨pre, c2', hpre, hpack, hc2'⟩ :=
      packPreprocessed_eq hsep hfit hvalid hpair hpair' hpub
    obtain ⟨c2'', hpackB, hc2''⟩ := packB_eq hq (fixedReferenceKey P REFERENCE_W_SEED)
      (fixedReferenceKey P REFERENCE_V_SEED) aHat workers hscalars hkg hkh htopValid hleft hright
    have htopG : (fixedReferenceKey P REFERENCE_W_SEED).top = keys.pair.1.top := rfl
    have htopH : (fixedReferenceKey P REFERENCE_V_SEED).top = keys.pair.2.top := rfl
    obtain rfl : c2' = c2 := P.spiral.ring_injective (hc2'.trans hc2.symm)
    obtain rfl : c2'' = c2' := by
      refine P.spiral.ring_injective (hc2''.trans ?_)
      rw [hc2']
      refine congrArg _ ?_
      simp only [leftDigits, rightDigits, finalDigits, rightSurvivor, leftTop_congr htopG,
        rightTop_congr htopG]
      rfl
    have hquery : QueryPackPreprocessed.build P batch.crs =
        .ok ⟨blockComponent (fixedReferenceKey P REFERENCE_W_SEED)
            (fixedReferenceKey P REFERENCE_V_SEED) aHat,
          blockDigits (fixedReferenceKey P REFERENCE_W_SEED) aHat⟩ := by
      unfold QueryPackPreprocessed.build
      rw [LweBatch.crs, hpub, ok_bind]
      exact precomputeReferenceTrace_eq aHat hsep hfit
    refine ⟨keys.pair.1, keys.pair.2, pre, _, top, _, toKeyPair_eq hkg hkh, honline, hpre, hpack,
      hquery, htop, ?_⟩
    rw [hpackB, blockComponent_congr aHat htopG htopH]
  · intro hsep kg kh
    have hquery := queryBuild_panic hsep (batch.masks (P := P))
    refine ⟨?_, hquery⟩
    have hpublic : PackPublicPreprocessed.build P batch.crs = .error tableSearchPanic := by
      unfold PackPublicPreprocessed.build
      rw [if_neg (by simp [LweBatch.crs, crsOfRows, PolyMatrixNTT.ofCol])]
      simp only [buildAAgg, tauGPowerTables_panic hsep, error_bind]
    unfold PackPreprocessed.build
    rw [hpublic, error_bind]

/-- A batch of the small parameter set. -/
def smallBatch : LweBatch :=
  ⟨(List.range 4).map fun k => ⟨[k, 3 * k + 1, 16 - k, 5], 7 * k⟩⟩

/-- The small parameter set packs a batch on all three paths. -/
theorem packings_agree_small :
    ∃ kg kh pre queryPre top out,
      (PackingKeys.generateFull smallParams (smallParams.spiral.toNttAlloc fun i => i) smallError
          smallError).toKeyPair = .ok (kg, kh) ∧
        packAllOnline smallBatch kg kh = .ok out ∧
        PackPreprocessed.build smallParams smallBatch.crs kg kh = .ok pre ∧
        pack smallBatch pre = .ok out ∧
        QueryPackPreprocessed.build smallParams smallBatch.crs = .ok queryPre ∧
        TopKeyImages.build smallParams = .ok top ∧
        queryPre.packB (Scheduler.perItem _) smallBatch.bScalars
          (PackingKeys.generateFull smallParams
          (smallParams.spiral.toNttAlloc fun i => i) smallError smallError) top = .ok out :=
  (packings_agree smallParams (by decide) (by decide) smallBatch (by decide)
    (by decide) _ ⟨rfl, rfl⟩ ⟨rfl, rfl⟩ (Scheduler.perItem _)).1 probesSeparate_smallParams

end Inspiring
