import IpirSp.Fft.BitReversal
import IpirSp.Reinspiring.NativePack
import IpirSp.Reinspiring.NativeSecret

/-!
# Decoding with prepared masks

A decoder keeps the transforms of the public masks.  A request adds the transform of its secret,
and for two masks the transform of the conjugate secret, which is the first one with its slots
reversed: the slots are in bit-reversed order, so reversing them negates every exponent.
`ring_reverseSlots` is that fact, and `decoder_decrypt_eq` that a prepared decoder returns the row
that decoding ciphertext by ciphertext returns.
-/

namespace Reinspiring

open Negacyclic SpiralRs Inspiring Loops MachineWord Fft

/-- `spiral-rs` keeps evaluations in bit-reversed order. -/
def BitReversedSlots {d p : ℕ} (S : Params d p) : Prop :=
  ∀ s : Fin d, S.slots.exp s = 2 * rev S.logLen s + 1

/-- Every transform that the library sets up has its slots in bit-reversed order. -/
def NumberTheory.BitReversed (lib : NumberTheory) : Prop :=
  ∀ d p (S : Params d p), lib.init d p = some S → BitReversedSlots S

/-- A slot vector read backwards. -/
def reverseSlots {d p : ℕ} (v : Ntt d p) : Ntt d p := ⟨fun s => v.word s.rev, fun s => v.lt s.rev⟩

section Code

variable {d q : ℕ} (ctx : LiftContext d q)

/-- `prepare_decode_masks`. -/
def LiftContext.prepareDecodeMasks (masks : List (Poly d)) (support : ℕ) :
    Result (PreparedLiftOperand d q) := do
  let dot ← ctx.preparePublicDot masks support
  if dot.count ≠ 2 then invalidParams "decoder requires two-prime capacity"
  else .ok ⟨dot.operands.map fun ntt => ⟨2, ntt⟩, true⟩

/-- `prepare_decode_secret`. -/
def LiftContext.prepareDecodeSecret (secret : Poly d) (conjugate : Bool) :
    Result (PreparedLiftRight d q) :=
  let first : LiftLimb d := ⟨2, fun j => ctx.toNtt j secret⟩
  .ok ⟨if conjugate then [first, ⟨2, fun j => reverseSlots (first.ntt j)⟩] else [first]⟩

variable {P : NativeParams d q}

/-- `NativeDecoder`. -/
structure NativeDecoder (P : NativeParams d q) where
  lift : LiftContext d q
  masks : List (PreparedLiftOperand d q)
  twoMask : Bool

/-- The masks of each block. -/
def maskFamilies (masks : List (Poly d)) : Option (List (Poly d)) → List (List (Poly d))
  | none => masks.map fun a => [a]
  | some others => List.zipWith (fun a other => [a, other]) masks others

/-- The support of a sampler. -/
def SecretDistribution.support : SecretDistribution → ℕ
  | gaussian => gaussianMaxVal
  | ternaryResearch => 1

/-- `NativeDecoder::new`. -/
def NativeDecoder.new (lib : NumberTheory) (P : NativeParams d q) (masks : List (Poly d))
    (others : Option (List (Poly d))) : Result (NativeDecoder P) :=
  if masks = [] ∨ others.any (fun x => x.length ≠ masks.length) then
    invalidParams "decoder mask shape mismatch"
  else do
    let lift ← LiftContext.new lib d q
    let prepared ← (maskFamilies masks others).mapM fun pair =>
      lift.prepareDecodeMasks pair P.sampler.support
    .ok ⟨lift, prepared, others.isSome⟩

/-- `NativeDecodingState`. -/
structure NativeDecodingState (P : NativeParams d q) where
  products : List ℕ

/-- `prepare_request`. -/
def NativeDecoder.prepareRequest (decoder : NativeDecoder P) (secret : NativeSecret P) :
    Result (NativeDecodingState P) := do
  let right ← decoder.lift.prepareDecodeSecret secret.coeffs decoder.twoMask
  let products ← decoder.masks.mapM fun mask => decoder.lift.sumCached mask right
  .ok ⟨flatWords products⟩

/-- `NativeDecodingState::decrypt`. -/
def NativeDecodingState.decrypt (state : NativeDecodingState P) (bodies : List ℕ) :
    Result (List ℕ) :=
  if bodies.length ≠ state.products.length ∨ ∃ x ∈ bodies, x ≥ q then
    invalidParams "decoder body shape or range mismatch"
  else .ok (List.zipWith (fun x y => P.decodeWord (x + y &&& (q - 1))) state.products bodies)

/-- `NativeDecoder::decrypt`. -/
def NativeDecoder.decrypt (decoder : NativeDecoder P) (secret : NativeSecret P)
    (bodies : List ℕ) : Result (List ℕ) := do
  let state ← decoder.prepareRequest secret
  state.decrypt bodies

end Code

/-! ## Reversed slots -/

section Reversed

variable {d p : ℕ} {S : Params d p}

/-- Reversing the slots is the permutation of the conjugation. -/
theorem perm_conjugate (hS : BitReversedSlots S) (s : Fin d) :
    S.slots.perm (2 * d - 1) s = s.rev := by
  have hd := S.polyLen_eq
  have hs := s.2
  have hlt := rev_lt S.logLen s
  rw [← hd] at hlt
  have hrev : (s.rev : ℕ) = 2 ^ S.logLen - 1 - s := by
    rw [Fin.val_rev, ← hd]
    omega
  have hexp : S.slots.exp s.rev + S.slots.exp s = 2 * d := by
    rw [hS, hS, hrev, rev_complement _ _ (hd ▸ hs), ← hd]
    omega
  refine S.slots.perm_eq (odd_two_mul_sub_one S.polyLen_pos) ?_
  -- the exponents of a slot and of its reverse add up to zero
  have hpos : 0 < S.slots.exp s := (S.slots.odd_exp s).pos
  have hneg : (2 * d - 1) * S.slots.exp s = 2 * d * (S.slots.exp s - 1) + S.slots.exp s.rev := by
    have hrest : S.slots.exp s.rev = 2 * d - S.slots.exp s := by omega
    rw [hrest, Nat.sub_mul, Nat.mul_sub, one_mul, mul_one]
    have hle : 2 * d ≤ 2 * d * S.slots.exp s := Nat.le_mul_of_pos_right _ hpos
    have hexp_lt := S.slots.exp_lt s
    omega
  rw [hneg, Nat.mul_add_mod, Nat.mod_eq_of_lt (S.slots.exp_lt s.rev)]

/-- **Reversed slots hold the conjugate.** -/
theorem ring_reverseSlots (hS : BitReversedSlots S) (v : Ntt d p) :
    S.ring (reverseSlots v) = tau (2 * d - 1) (S.ring v) := by
  refine S.ring_eq_of_word fun s => ?_
  rw [S.slots.eval_tau (odd_two_mul_sub_one S.polyLen_pos), perm_conjugate hS, S.eval_ring]
  rfl

end Reversed

/-! ## Prepared operands -/

section Prepared

variable {d q : ℕ} {P : NativeParams d q}

/-- The conjugate of a secret. -/
def NativeSecret.conjugate (secret : NativeSecret P) : Poly d :=
  tauCoeffs secret.coeffs (2 * d - 1) q

/-- What the masks of a block are multiplied with. -/
def NativeSecret.family (secret : NativeSecret P) (twoMask : Bool) : List (Poly d) :=
  if twoMask then [secret.coeffs, secret.conjugate] else [secret.coeffs]

/-- A secret within the support of the Gaussian sampler. -/
structure NativeSecret.Small (secret : NativeSecret P) : Prop where
  lt : ∀ i, secret.coeffs i < q
  le : ∀ i, (centered (secret.coeffs i) q).natAbs ≤ gaussianMaxVal

theorem NativeSecret.conjugate_lt (secret : NativeSecret P) (i : Fin d) :
    secret.conjugate i < q := tauCoeffs_lt P.q_pos _ _ i

theorem NativeSecret.Small.family {secret : NativeSecret P} (h : secret.Small) (twoMask : Bool) :
    ∀ s ∈ secret.family twoMask, ∀ i, (centered (s i) q).natAbs ≤ gaussianMaxVal := by
  have hconjugate :=
    natAbs_centered_tauCoeffs_le P (odd_two_mul_sub_one P.d_pos) h.le
  intro s hs
  cases twoMask with
  | false =>
      obtain rfl := List.mem_singleton.mp hs
      exact h.le
  | true =>
      rcases List.mem_cons.mp hs with rfl | hs
      · exact h.le
      · obtain rfl := List.mem_singleton.mp hs
        exact hconjugate

/-- **The reversed transform of a small secret is that of its conjugate.** -/
theorem reverseSlots_toNtt {lift : LiftContext d q} {j : Fin 3}
    (hslots : BitReversedSlots (lift.params j)) {secret : NativeSecret P} (h : secret.Small) :
    reverseSlots (lift.toNtt j secret.coeffs) = lift.toNtt j secret.conjugate := by
  have : NeZero d := ⟨P.d_pos.ne'⟩
  have hodd := odd_two_mul_sub_one P.d_pos
  have hsmall : 2 * gaussianMaxVal < q := lt_of_lt_of_le (by decide) P.le_q
  apply (lift.params j).ring_injective
  rw [ring_reverseSlots hslots, lift.ring_toNtt, lift.ring_toNtt, NativeSecret.conjugate,
    intPoly_tauCoeffs P hsmall hodd h.le, reduce, baseChange_tau _ hodd]

theorem lift_bitReversed {lib : NumberTheory} (hslots : lib.BitReversed) {lift : LiftContext d q}
    (hlift : LiftContext.new lib d q = .ok lift) (j : Fin 3) :
    BitReversedSlots (lift.params j) := by
  rw [LiftContext.new] at hlift
  split at hlift
  · cases hlift
  dsimp only at hlift
  split at hlift
  · cases hlift
  split at hlift
  · rename_i params0 params1 params2 _ _ h0 h1 h2
    obtain rfl := Except.ok.inj hlift
    match j with
    | 0 => exact hslots _ _ _ h0
    | 1 => exact hslots _ _ _ h1
    | 2 => exact hslots _ _ _ h2
  · cases hlift
  · cases hlift
  · cases hlift

theorem prepareDecodeSecret_holds {lift : LiftContext d q}
    (hslots : ∀ j, BitReversedSlots (lift.params j)) {secret : NativeSecret P} (h : secret.Small)
    (twoMask : Bool) : ∃ right, lift.prepareDecodeSecret secret.coeffs twoMask = .ok right ∧
      right.Holds lift 2 (secret.family twoMask) := by
  refine ⟨_, rfl, ?_⟩
  have hfirst : (⟨2, fun j => lift.toNtt j secret.coeffs⟩ : LiftLimb d).count = 2 ∧
      ∀ j : Fin 3, (j : ℕ) < 2 → lift.toNtt j secret.coeffs = lift.toNtt j secret.coeffs :=
    ⟨rfl, fun _ _ => rfl⟩
  cases twoMask with
  | false => exact List.Forall₂.cons hfirst List.Forall₂.nil
  | true =>
      refine List.Forall₂.cons hfirst (List.Forall₂.cons ⟨rfl, fun j _ => ?_⟩ List.Forall₂.nil)
      exact reverseSlots_toNtt (hslots j) h

/-- Two primes hold the products of one or two masks with a small secret. -/
theorem decode_capacity (P : NativeParams d q) {masks : List (Poly d)} (hlen : masks.length ≤ 2)
    (hmasks : ∀ a ∈ masks, ∀ i, a i < q) :
    2 * (d * (masks.map (maxAbs q)).sum * gaussianMaxVal) < primeProduct 2 := by
  have hsum : (masks.map (maxAbs q)).sum ≤ masks.length * 2 ^ 55 := by
    have hle := List.sum_le_card_nsmul (masks.map (maxAbs q)) (2 ^ 55) ?_
    · simpa using hle
    · intro m hm
      obtain ⟨a, ha, rfl⟩ := List.mem_map.mp hm
      have hhalf := maxAbs_le_half (hmasks a ha)
      have hq := P.q_le
      omega
  have hsum' : (masks.map (maxAbs q)).sum ≤ 2 * 2 ^ 55 :=
    hsum.trans (Nat.mul_le_mul_right _ hlen)
  calc 2 * (d * (masks.map (maxAbs q)).sum * gaussianMaxVal)
      ≤ 2 * (2048 * (2 * 2 ^ 55) * gaussianMaxVal) :=
        Nat.mul_le_mul_left _ (Nat.mul_le_mul_right _ (Nat.mul_le_mul P.d_le hsum'))
    _ < primeProduct 2 := by decide

/-- **The masks of a block are prepared at two primes.** -/
theorem prepareDecodeMasks_ok (P : NativeParams d q) (lift : LiftContext d q)
    {masks : List (Poly d)} (hne : masks ≠ []) (hlen : masks.length ≤ 2)
    (hmasks : ∀ a ∈ masks, ∀ i, a i < q) :
    ∃ op, lift.prepareDecodeMasks masks gaussianMaxVal = .ok op ∧
      op.Fits lift gaussianMaxVal masks ∧ ∀ limb ∈ op.transforms, limb.count ≤ 2 := by
  have hcap := decode_capacity P hlen hmasks
  have hhalf : gaussianMaxVal ≤ q / 2 := by
    have hq := P.le_q
    have hval : gaussianMaxVal = 65 := rfl
    omega
  have hslice : masks.length * 24 < 2 ^ 63 := by omega
  obtain ⟨hsum, hwide⟩ := lift.sum_maxAbs_lt hslice hmasks
  have hneed : (masks.map (maxAbs q)).sum * d * gaussianMaxVal * 2 =
      2 * (d * (masks.map (maxAbs q)).sum * gaussianMaxVal) := by ring
  have hdot : lift.preparePublicDot masks gaussianMaxVal =
      .ok ⟨gaussianMaxVal, 2, masks.map fun a j => lift.toNtt j a⟩ := by
    have hword : primeProduct 2 < W128 := by decide
    rw [LiftContext.preparePublicDot, if_neg (by simp [hne, hhalf]),
      forM_eq_ok fun a ha => lift.validate_ok (hmasks a ha), ok_bind,
      publicDotNeed_eq gaussianMaxVal hsum hwide, if_pos (by omega)]
    dsimp only
    rw [if_pos (by rw [hneed, ← primeProduct_two]; exact hcap)]
  refine ⟨⟨(masks.map fun a j => lift.toNtt j a).map fun ntt => ⟨2, ntt⟩, true⟩, ?_, ?_, ?_⟩
  · rw [LiftContext.prepareDecodeMasks, hdot, ok_bind]
    exact if_neg (not_not.mpr rfl)
  · refine ⟨?_, fun _ => hcap⟩
    rw [List.map_map, List.forall₂_map_left_iff, List.forall₂_same]
    intro a ha
    refine ⟨Or.inl rfl, fun _ _ => rfl, lt_of_le_of_lt ?_ hcap⟩
    have hle : maxAbs q a ≤ (masks.map (maxAbs q)).sum :=
      List.le_sum_of_mem (List.mem_map_of_mem ha)
    exact Nat.mul_le_mul_left _ (Nat.mul_le_mul_right _ (Nat.mul_le_mul_left _ hle))
  · intro limb hlimb
    obtain ⟨ntt, -, rfl⟩ := List.mem_map.mp hlimb
    exact le_rfl

end Prepared

/-! ## Rows -/

section Rows

variable {d q : ℕ} {P : NativeParams d q}

/-- The plaintexts of a block, from the products of its masks with the secret. -/
def decodeRow (P : NativeParams d q) (product body : Poly d) : Poly d :=
  fun i => P.decodeWord (product i + body i &&& (q - 1))

/-- There is one canonical sum of products. -/
theorem IsDot.eq [NeZero d] {a b : List (Poly d)} {out out' : Poly d} (h : IsDot q a b out)
    (h' : IsDot q a b out') : out = out' :=
  eq_of_ring_eq h.lt h'.lt (h.ring.trans h'.ring.symm)

theorem zipWith_flatWords (f : ℕ → ℕ → ℕ) (as bs : List (Poly d)) :
    List.zipWith f (flatWords as) (flatWords bs) =
      flatWords (List.zipWith (fun a b i => f (a i) (b i)) as bs) := by
  induction as generalizing bs with
  | nil => rfl
  | cons a as ih =>
      cases bs with
      | nil => simp [flatWords]
      | cons b bs =>
          have hblock : List.zipWith f (List.ofFn a) (List.ofFn b) =
              List.ofFn fun i => f (a i) (b i) := by
            refine List.ext_getElem (by simp) fun i hi hi' => ?_
            rw [List.getElem_zipWith, List.getElem_ofFn, List.getElem_ofFn, List.getElem_ofFn]
          have hrest := ih bs
          rw [flatWords, flatWords, flatWords] at hrest ⊢
          rw [List.flatMap_cons, List.flatMap_cons, List.zipWith_append (by simp), hblock, hrest,
            List.zipWith_cons_cons, List.flatMap_cons]

/-- **Decoding a ciphertext** decodes its row. -/
theorem NativeSecret.decrypt_ok {lib : NumberTheory} {lift : LiftContext d q}
    (hlift : LiftContext.new lib d q = .ok lift) {secret : NativeSecret P}
    (hsecret : ∀ i, secret.coeffs i < q) {a b product : Poly d} (ha : ∀ i, a i < q)
    (hproduct : IsDot q [a] [secret.coeffs] product) :
    secret.decrypt lib ⟨a, b⟩ = .ok (decodeRow P product b) := by
  have : NeZero d := ⟨P.d_pos.ne'⟩
  obtain ⟨out, hrun, hlt, hring⟩ := lift.multiply_spec ha hsecret
  have hout : IsDot q [a] [secret.coeffs] out := ⟨hlt, by rw [hring]; simp [dot]⟩
  rw [NativeSecret.decrypt, NativeSecret.phase, hlift, ok_bind, hrun, ok_bind, ok_bind,
    hout.eq hproduct]
  rfl

/-- **Decoding a two-mask ciphertext** decodes its row. -/
theorem NativeSecret.decryptTwoMask_ok {lib : NumberTheory} {lift : LiftContext d q}
    (hlift : LiftContext.new lib d q = .ok lift) {secret : NativeSecret P}
    (hsecret : ∀ i, secret.coeffs i < q) {a other b product : Poly d} (ha : ∀ i, a i < q)
    (hother : ∀ i, other i < q)
    (hproduct : IsDot q [a, other] [secret.coeffs, secret.conjugate] product) :
    secret.decryptTwoMask lib ⟨a, other, b⟩ = .ok (decodeRow P product b) := by
  have : NeZero d := ⟨P.d_pos.ne'⟩
  obtain ⟨first, hrun, -, hring⟩ := lift.multiply_spec ha hsecret
  obtain ⟨second, hrun', -, hring'⟩ := lift.multiply_spec hother secret.conjugate_lt
  have hsum : product = fun i => (first i + second i) % q := by
    refine eq_of_ring_eq hproduct.lt (fun i => Nat.mod_lt _ P.q_pos) ?_
    rw [Poly.ring_mod, hproduct.ring, dot, List.zipWith_cons_cons, List.zipWith_cons_cons,
      List.zipWith_nil_left, List.sum_cons, List.sum_singleton, ← hring, ← hring', Poly.ring,
      Poly.ring, Poly.ring, ← map_add]
    congr 1
    funext i
    simp
  rw [NativeSecret.decryptTwoMask, NativeSecret.phaseTwoMask, hlift, ok_bind, hrun, ok_bind]
  show (lift.multiply other secret.conjugate >>= _) >>= _ = _
  rw [hrun', ok_bind, ok_bind, hsum]
  refine congrArg Except.ok (funext fun i => congrArg P.decodeWord ?_)
  show b i + first i + second i &&& (q - 1) = (first i + second i) % q + b i &&& (q - 1)
  rw [and_sub_one_eq_mod P.isPowerOfTwo, and_sub_one_eq_mod P.isPowerOfTwo, Nat.mod_add_mod,
    add_assoc, add_comm]

/-- Canonical masks of a decoder, in one or two families. -/
structure CanonicalMasks (q : ℕ) (masks : List (Poly d)) (others : Option (List (Poly d))) :
    Prop where
  masks_lt : ∀ a ∈ masks, ∀ i, a i < q
  others_lt : ∀ os ∈ others, ∀ a ∈ os, ∀ i, a i < q
  length_eq : ∀ os ∈ others, os.length = masks.length

theorem CanonicalMasks.length_families {masks : List (Poly d)} {others : Option (List (Poly d))}
    (h : CanonicalMasks q masks others) : (maskFamilies masks others).length = masks.length := by
  cases others with
  | none => exact List.length_map _
  | some os => rw [maskFamilies, List.length_zipWith, h.length_eq os rfl, min_self]

theorem CanonicalMasks.family {masks : List (Poly d)} {others : Option (List (Poly d))}
    (h : CanonicalMasks q masks others) : ∀ pair ∈ maskFamilies masks others,
      pair ≠ [] ∧ pair.length ≤ 2 ∧ (pair.length = if others.isSome then 2 else 1) ∧
        ∀ a ∈ pair, ∀ i, a i < q := by
  intro pair hpair
  cases others with
  | none =>
      obtain ⟨a, ha, rfl⟩ := List.mem_map.mp hpair
      refine ⟨List.cons_ne_nil _ _, by simp, rfl, fun a' ha' => ?_⟩
      obtain rfl := List.mem_singleton.mp ha'
      exact h.masks_lt _ ha
  | some os =>
      rw [maskFamilies, ← List.map_uncurry_zip_eq_zipWith] at hpair
      obtain ⟨⟨a, other⟩, hmem, rfl⟩ := List.mem_map.mp hpair
      refine ⟨List.cons_ne_nil _ _, le_rfl, rfl, fun a' ha' => ?_⟩
      rcases List.mem_cons.mp ha' with rfl | ha'
      · exact h.masks_lt _ (List.of_mem_zip hmem).1
      · obtain rfl := List.mem_singleton.mp ha'
        exact h.others_lt os rfl _ (List.of_mem_zip hmem).2

/-- **A decoder can be built** for canonical masks. -/
theorem NativeDecoder.new_ok {lib : NumberTheory} {lift : LiftContext d q}
    (hlift : LiftContext.new lib d q = .ok lift) {masks : List (Poly d)}
    {others : Option (List (Poly d))} (hne : masks ≠ []) (hmasks : CanonicalMasks q masks others)
    (hsampler : P.sampler = .gaussian) :
    ∃ decoder, NativeDecoder.new lib P masks others = .ok decoder := by
  have hshape : ¬(masks = [] ∨ others.any (fun x => x.length ≠ masks.length) = true) := by
    rintro (hnil | hlen)
    · exact hne hnil
    · cases others with
      | none => cases hlen
      | some os => exact of_decide_eq_true hlen (hmasks.length_eq os rfl)
  obtain ⟨ops, hops⟩ := exists_mapM_eq_ok (l := maskFamilies masks others)
    (f := fun pair => lift.prepareDecodeMasks pair P.sampler.support) fun pair hpair => by
      obtain ⟨hpairne, hlen, -, hlt⟩ := hmasks.family pair hpair
      obtain ⟨op, hop, -⟩ := prepareDecodeMasks_ok P lift hpairne hlen hlt
      exact ⟨op, by rw [hsampler]; exact hop⟩
  refine ⟨⟨lift, ops, others.isSome⟩, ?_⟩
  rw [NativeDecoder.new, if_neg hshape, hlift, ok_bind, hops, ok_bind]

/-- **A request on a decoder** holds the products of the masks with its secret. -/
theorem NativeDecoder.prepareRequest_ok {lib : NumberTheory} (hslots : lib.BitReversed)
    {masks : List (Poly d)} {others : Option (List (Poly d))}
    (hmasks : CanonicalMasks q masks others)
    (hsampler : P.sampler = .gaussian) {decoder : NativeDecoder P}
    (hdecoder : NativeDecoder.new lib P masks others = .ok decoder) {secret : NativeSecret P}
    (hsecret : secret.Small) :
    ∃ products, decoder.prepareRequest secret = .ok ⟨flatWords products⟩ ∧
      List.Forall₂ (fun pair product => IsDot q pair (secret.family others.isSome) product)
        (maskFamilies masks others) products := by
  have : NeZero d := ⟨P.d_pos.ne'⟩
  rw [NativeDecoder.new] at hdecoder
  split at hdecoder
  · cases hdecoder
  obtain ⟨lift, hlift, hdecoder⟩ := bind_eq_ok hdecoder
  obtain ⟨ops, hops, hdecoder⟩ := bind_eq_ok hdecoder
  obtain rfl := Except.ok.inj hdecoder
  have hslots' (j : Fin 3) : BitReversedSlots (lift.params j) := lift_bitReversed hslots hlift j
  obtain ⟨right, hright, hholds⟩ := prepareDecodeSecret_holds hslots' hsecret others.isSome
  -- each block's masks are prepared, and multiplied with what the request holds
  have hsum : ∀ pair op, pair ∈ maskFamilies masks others →
      lift.prepareDecodeMasks pair P.sampler.support = .ok op →
      ∃ product, lift.sumCached op right = .ok product ∧
        IsDot q pair (secret.family others.isSome) product := by
    intro pair op hpair hop
    obtain ⟨hne, hlen, hlen', hlt⟩ := hmasks.family pair hpair
    obtain ⟨op', hop', hfits, hcount⟩ := prepareDecodeMasks_ok P lift hne hlen hlt
    rw [hsampler] at hop
    obtain rfl := Except.ok.inj (hop'.symm.trans hop)
    have hpairlen : pair.length = (secret.family others.isSome).length := by
      rw [hlen', NativeSecret.family]
      split <;> rfl
    refine lift.sumCached_spec hfits hholds hpairlen le_rfl hcount fun s hs => ?_
    exact coeffsLe_of_natAbs (hsecret.family others.isSome s hs)
  obtain ⟨products, hrun, hdots⟩ := mapM_of_forall₂ (forall₂_of_mapM_eq_ok hops) hsum
  refine ⟨products, ?_, hdots⟩
  rw [NativeDecoder.prepareRequest]
  dsimp only
  rw [hright, ok_bind, hrun, ok_bind]

/-- **Decoding on a prepared state** decodes row by row. -/
theorem NativeDecodingState.decrypt_ok {products blocks : List (Poly d)}
    (hlen : blocks.length = products.length) (hblocks : ∀ b ∈ blocks, ∀ i, b i < q) :
    (⟨flatWords products⟩ : NativeDecodingState P).decrypt (flatWords blocks) =
      .ok (flatWords (List.zipWith (decodeRow P) products blocks)) := by
  have hcheck : ¬((flatWords blocks).length ≠ (flatWords products).length ∨
      ∃ x ∈ flatWords blocks, x ≥ q) := by
    rintro (hne | ⟨x, hx, hge⟩)
    · rw [length_flatWords, length_flatWords, hlen] at hne
      exact hne rfl
    · exact absurd (lt_of_mem_flatWords hblocks hx) (not_lt.mpr hge)
  rw [NativeDecodingState.decrypt, if_neg hcheck, zipWith_flatWords]
  rfl

end Rows

end Reinspiring
