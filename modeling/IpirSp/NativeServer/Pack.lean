import IpirSp.Reinspiring.NativePhase
import IpirSp.NativeServer.Respond

/-!
# Packing on a server

A server packs all blocks with keys that its first block prepared, after the second key was rounded
for the transport.  `packDirect_ok` is the phase of a body in either mode, `packBody_eq` that the
prepared keys make the same body, and `receivedKeys_isFor` that rounded keys are keys of the secret
with other errors.
-/

namespace Reinspiring

open Negacyclic SpiralRs Inspiring Loops MachineWord

variable {d q : ℕ} {P : NativeParams d q} {lib : NumberTheory} {S : NativeSetup P}

/-! ## Bodies -/

/-- The public masks of a block. -/
def NativePreprocessed.family (B : NativePreprocessed P) : List (Poly d) := B.a :: B.aOther.toList

/-- What packing adds to the body and the inner products of a block: the errors of the keys, what
the digits leave and what the floors add. -/
noncomputable def packError [NeZero d] (B : NativePreprocessed P) (trace : NativeTrace d q)
    (masks : Fin d → Poly d) (secret : Poly d) (eg eh : List (Poly d)) : NegRing d (ZMod q) :=
  B.h.action q eg + trace.lastError eh + trace.secretError P (Poly.ring q secret) +
    floorError q masks secret

/-- The body that packing in a mode makes. -/
def packDirect (twoMask : Bool) (B : NativePreprocessed P) (b : Poly d) (keys : NativeKeys d) :
    Result (Poly d) :=
  if twoMask then (fun ct : NativeTwoMaskCiphertext d => ct.b) <$> B.packTwoMask b keys
  else (fun ct : NativeCiphertext d => ct.b) <$> B.pack b keys

/-- **The body of a block in either mode**, with the masks of the block against the secret. -/
theorem packDirect_ok [NeZero d] {masks : Fin d → Poly d} {twoMask : Bool}
    {left right : List (TraceStep d)} {trace : NativeTrace d q} {B : NativePreprocessed P}
    (hB : B.BuiltFor lib S) (htrace : IsTrace S masks twoMask left right trace)
    (hfrom : IsBuiltFrom S trace B) {secret : NativeSecret P} (hsecret : ∀ i, secret.coeffs i < q)
    {eg eh : List (Poly d)} {keys : NativeKeys d}
    (hkeys : keys.IsFor S secret.coeffs eg eh twoMask) {b : Poly d} (hb : ∀ i, b i < q) :
    ∃ body : Poly d, packDirect twoMask B b keys = .ok body ∧ (∀ i, body i < q) ∧
      dot q B.family (secret.family twoMask) + Poly.ring q body =
        Poly.ring q b + innerProducts q masks secret.coeffs +
          packError B trace masks secret.coeffs eg eh := by
  obtain ⟨phase, hphase, -, hring⟩ := packedPhase_ring hB htrace hfrom hsecret hkeys hb
  cases twoMask with
  | true =>
      obtain ⟨hlast, -⟩ := htrace.two_mask rfl
      obtain ⟨ct, hct, hctA, hctOther, hlt, -⟩ :=
        packTwoMask_body hB hfrom hlast hkeys.fits hkeys.canonical hb
      have hother : B.aOther = some trace.right := hfrom.two_mask hlast
      obtain ⟨phase', hphase', -, hring'⟩ := NativeSecret.phaseTwoMask_spec hB.lift_eq hsecret ct
        (by rw [hctA]; exact htrace.a_lt) (by rw [hctOther]; exact htrace.right.out_lt)
      have hsome : B.aOther.isSome := by rw [hother]; rfl
      rw [NativeSecret.packedPhase, if_pos hsome, hct, ok_bind, hphase'] at hphase
      obtain rfl := Except.ok.inj hphase
      refine ⟨ct.b, by rw [packDirect, if_pos rfl, hct]; rfl, hlt, ?_⟩
      have hdot : dot q B.family (secret.family true) =
          Poly.ring q ct.a * Poly.ring q secret.coeffs +
            Poly.ring q ct.aOther * tau (2 * d - 1) (Poly.ring q secret.coeffs) := by
        rw [NativePreprocessed.family, hother, hfrom.a_eq, ← hctA, ← hctOther,
          ← ring_tauCoeffs P.q_pos (odd_two_mul_sub_one P.d_pos)]
        exact List.sum_pair ..
      rw [hdot, packError]
      linear_combination hring - hring'
  | false =>
      obtain ⟨hlast, -⟩ := htrace.one_mask rfl
      obtain ⟨ct, hct, hctA, hlt, -⟩ := pack_body hB hfrom hlast (P.length_limbs _) hkeys.fits
        hkeys.canonical hb
      have hother : B.aOther = none := (hfrom.one_mask _ hlast).1
      obtain ⟨phase', hphase', -, hring'⟩ := NativeSecret.phase_spec hB.lift_eq hsecret ct
        (by rw [hctA]; exact htrace.a_lt)
      rw [NativeSecret.packedPhase, if_neg (by rw [hother]; exact Bool.false_ne_true), hct, ok_bind,
        hphase'] at hphase
      obtain rfl := Except.ok.inj hphase
      refine ⟨ct.b, by rw [packDirect, if_neg Bool.false_ne_true, hct]; rfl, hlt, ?_⟩
      have hdot : dot q B.family (secret.family false) =
          Poly.ring q ct.a * Poly.ring q secret.coeffs := by
        rw [NativePreprocessed.family, hother, hfrom.a_eq, ← hctA]
        exact List.sum_singleton ..
      rw [hdot, packError]
      linear_combination hring - hring'

theorem Alike.eq_ok {α : Type} {r r' : Result α} {v : α} (h : Alike r r') (h' : r' = .ok v) :
    r = .ok v := by
  rcases h with ⟨w, hw, hw'⟩ | ⟨-, e, he⟩
  · rw [hw, ← hw', h']
  · rw [he] at h'
    cases h'

end Reinspiring

namespace NativeServer

open Reinspiring Negacyclic SpiralRs Inspiring Codec Loops MachineWord NativeClient

variable {d q : ℕ} {P : NativeParams d q} {lib : NumberTheory} {packing : NativeSetup P}

/-! ## Prepared keys -/

/-- A block prepares the keys that fit its mode. -/
theorem exists_prepareKeys {B : NativePreprocessed P} (hB : B.BuiltFor lib packing)
    {keys : NativeKeys d} (hcanonical : keys.Canonical q)
    (hfits : keys.FitsMode packing B.aOther.isSome) :
    ∃ prepared, B.prepareKeys keys = .ok prepared := by
  have hpending : ∃ pending, pendingPack B B keys = .ok pending := by
    cases hmode : B.aOther with
    | none =>
        rw [hmode] at hfits
        obtain ⟨leftover, out, product, -, -, -, hpending⟩ :=
          pendingPack_one_mask hB hB hmode hmode hcanonical hfits
        exact ⟨_, hpending⟩
    | some other =>
        obtain ⟨out, -, hpending⟩ :=
          pendingPack_two_mask hB hB (by simp [hmode]) hcanonical hfits
        exact ⟨_, hpending⟩
  obtain ⟨pending, hpending⟩ := hpending
  obtain ⟨prepared, hprepared, -⟩ := bind_eq_ok hpending
  exact ⟨prepared, hprepared⟩

/-- **A server packs as its blocks do**, with the keys that the first block prepared. -/
theorem packBody_eq {first B : NativePreprocessed P} (hfirst : first.BuiltFor lib packing)
    (hB : B.BuiltFor lib packing) (hmode : first.aOther.isSome = B.aOther.isSome)
    {keys : NativeKeys d} (hcanonical : keys.Canonical q) {prepared : PreparedNativeKeys d q}
    (hprepared : first.prepareKeys keys = .ok prepared) {twoMask : Bool} {b body : Poly d}
    (h : packDirect twoMask B b keys = .ok body) : packBody twoMask prepared B b = .ok body := by
  cases twoMask with
  | true =>
      obtain ⟨ct, hct, hbody⟩ := bind_eq_ok h
      have hpack := (alike_packTwoMask hfirst hB hmode hcanonical b).eq_ok hct
      rw [packPreparedTwoMask, pendingPack, hprepared, ok_bind] at hpack
      rw [packBody, if_pos rfl, hpack]
      exact hbody
  | false =>
      obtain ⟨ct, hct, hbody⟩ := bind_eq_ok h
      have hpack := (alike_pack hfirst hB hmode hcanonical b).eq_ok hct
      rw [packPrepared, pendingPack, hprepared, ok_bind] at hpack
      rw [packBody, if_neg Bool.false_ne_true, hpack]
      exact hbody

/-! ## The received keys -/

/-- The errors of the conjugation key as the server sees it. -/
def receivedErrors (ell q : ℕ) (eh kh received : List (Poly d)) : List (Poly d) :=
  (List.range ell).map fun j i => eh.getD j (fun _ => 0) i + received.getD j (fun _ => 0) i +
    (q - kh.getD j (fun _ => 0) i)

theorem digitVector_receivedErrors {eh kh received : List (Poly d)} (hkh : ∀ a ∈ kh, ∀ i, a i < q)
    (j : Fin P.ell) :
    digitVector P (receivedErrors P.ell q eh kh received) j =
      digitVector P eh j + (digitVector P received j - digitVector P kh j) := by
  have hlt (i : Fin d) : kh.getD j (fun _ => 0) i ≤ q := by
    rcases lt_or_ge (j : ℕ) kh.length with hj | hj
    · rw [List.getD_eq_getElem _ _ hj]
      exact (hkh _ (List.getElem_mem hj) i).le
    · rw [List.getD_eq_default _ _ hj]
      exact Nat.zero_le q
  rw [digitVector, digitVector, digitVector, digitVector, receivedErrors,
    List.getD_eq_getElem _ _ (by rw [List.length_map, List.length_range]; exact j.2),
    List.getElem_map, List.getElem_range, Poly.ring, Poly.ring, Poly.ring, Poly.ring, ← map_sub,
    ← map_add]
  congr 1
  funext i
  simp only [Pi.add_apply, Pi.sub_apply, Nat.cast_add, Nat.cast_sub (hlt i), ZMod.natCast_self]
  ring

theorem length_kh_receivedKeys (profile : NativeProfile P) (keys : NativeKeys d) :
    (receivedKeys profile keys).kh.length = keys.kh.length := List.length_map _

theorem receivedKeys_canonical {profile : NativeProfile P} (hprofile : profile.Valid)
    {keys : NativeKeys d} (hkeys : keys.Canonical q) : (receivedKeys profile keys).Canonical q := by
  refine ⟨hkeys.kg_lt, fun a ha => ?_⟩
  obtain ⟨b, -, rfl⟩ := List.mem_map.mp ha
  have hle : profile.khBits ≤ P.qBits := by
    rcases hprofile.khBits with hkh | hkh <;> omega
  exact roundPoly_lt P hle b

/-- **The received keys** are keys of the secret, with the rounding in the errors of the second. -/
theorem receivedKeys_isFor {profile : NativeProfile P} (hprofile : profile.Valid)
    {secret : Poly d} {eg eh : List (Poly d)} {keys : NativeKeys d} {twoMask : Bool}
    (hkeys : keys.IsFor packing secret eg eh twoMask) :
    (receivedKeys profile keys).IsFor packing secret eg
      (receivedErrors P.ell q eh keys.kh (receivedKeys profile keys).kh) twoMask := by
  obtain ⟨hid, hkg, hkh⟩ := hkeys.fits
  refine ⟨⟨hid, hkg, ?_⟩, receivedKeys_canonical hprofile hkeys.canonical, hkeys.length_eg,
    fun _ => ?_, hkeys.kg, fun hmode j => ?_⟩
  · cases twoMask with
    | true => exact List.map_eq_nil_iff.mpr hkh
    | false => exact (length_kh_receivedKeys profile keys).trans hkh
  · rw [receivedErrors, List.length_map, List.length_range]
  · rw [digitVector_receivedErrors hkeys.canonical.kh_lt]
    linear_combination hkeys.kh hmode j

/-- What the rounding of the second key adds to the last step. -/
theorem lastError_receivedErrors [NeZero d] {masks : Fin d → Poly d} {twoMask : Bool}
    {left right : List (TraceStep d)} {trace : NativeTrace d q}
    (htrace : IsTrace packing masks twoMask left right trace) {eh kh received : List (Poly d)}
    (hkh : ∀ a ∈ kh, ∀ i, a i < q)
    (hlen : twoMask = false → eh.length = P.ell ∧ kh.length = P.ell ∧ received.length = P.ell) :
    trace.lastError (receivedErrors P.ell q eh kh received) =
      trace.lastError eh + (trace.lastError received - trace.lastError kh) := by
  unfold NativeTrace.lastError
  cases twoMask with
  | true =>
      rw [(htrace.two_mask rfl).1, Option.getD_none]
      simp [dot]
  | false =>
      obtain ⟨heh, hkh', hreceived⟩ := hlen rfl
      have hlimbs := P.length_limbs trace.right
      rw [(htrace.one_mask rfl).1, Option.getD_some, dot_eq_sum hlimbs heh,
        dot_eq_sum hlimbs hreceived, dot_eq_sum hlimbs hkh',
        dot_eq_sum hlimbs (by rw [receivedErrors, List.length_map, List.length_range]),
        ← Finset.sum_sub_distrib, ← Finset.sum_add_distrib]
      refine Finset.sum_congr rfl fun j _ => ?_
      have hdigit : digitVector P (receivedErrors P.ell q eh kh received) j =
        digitVector P eh j + (digitVector P received j - digitVector P kh j) :=
          digitVector_receivedErrors hkh j
      unfold digitVector at hdigit
      rw [hdigit]
      ring

end NativeServer
