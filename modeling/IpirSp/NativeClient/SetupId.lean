import IpirSp.Codec.Sections
import IpirSp.NativeClient.Request

/-!
# The setup identifier

The identifier of a setup is a hash of the packing profile, the options of the transport, the shape,
the seed and the snapshot.  An option is appended only if it differs from its default, so the string
has no framing of its own.  `setupBytes_eq` cuts it into a head of fixed width, the optional
sections and a tail of fixed width; each of the three parts determines what it was written from.
-/

namespace NativeClient

open Inspiring Reinspiring Codec

variable {d q : ℕ} {P : NativeParams d q}

/-- A profile together with its packing profile. -/
abbrev AnyProfile := Σ d q : ℕ, Σ P : NativeParams d q, NativeProfile P

/-! ## The packing profile -/

/-- The words of `encoding`. -/
def encodingWords (P : NativeParams d q) : List ℕ :=
  [d, q, P.p, P.bits, P.ell, P.dropped, P.sampler.index]

theorem sampler_eq_of_index {s t : SecretDistribution} (h : s.index = t.index) : s = t := by
  cases s <;> cases t <;> first | rfl | cases h

theorem encodingWords_lt (P : NativeParams d q) : ∀ w ∈ encodingWords P, w < 256 ^ 8 := by
  have hq := P.q_le
  have hd := P.d_le
  have hbits := P.bits_le
  have hell := P.ell_le
  have hdropped := P.dropped_le
  have hp : P.p < 2 ^ 56 := Nat.pow_lt_pow_right one_lt_two (P.pBits_lt.trans_le P.qBits_le)
  have hsampler : P.sampler.index ≤ 1 := by cases P.sampler <;> decide
  have hmax : maxGadgetBits = 27 := rfl
  simp only [encodingWords, List.forall_mem_cons, List.not_mem_nil, false_imp_iff, implies_true,
    and_true]
  norm_num at hq hp ⊢
  omega

theorem length_encoding (P : NativeParams d q) : P.encoding.length = 90 := by
  rw [NativeParams.encoding, List.length_append]
  rfl

/-- **The encoding of a packing profile** determines it. -/
theorem encoding_injective {d' q' : ℕ} {P : NativeParams d q} {P' : NativeParams d' q'}
    (h : P.encoding = P'.encoding) :
    (⟨d, q, P⟩ : Σ d q : ℕ, NativeParams d q) = ⟨d', q', P'⟩ := by
  have hwords : encodingWords P = encodingWords P' :=
    flatMap_leBytes_injOn rfl (encodingWords_lt P) (encodingWords_lt P') (List.append_cancel_left h)
  simp only [encodingWords, List.cons.injEq, and_true] at hwords
  obtain ⟨rfl, rfl, hp, hbits, hell, hdropped, hindex⟩ := hwords
  have hqBits : P.qBits = P'.qBits :=
    Nat.pow_right_injective le_rfl (P.q_eq.symm.trans P'.q_eq)
  have hpBits : P.pBits = P'.pBits := Nat.pow_right_injective le_rfl hp
  have hsampler := sampler_eq_of_index hindex
  cases P
  cases P'
  simp only at hqBits hpBits hbits hell hdropped hsampler
  subst hqBits hpBits hbits hell hdropped hsampler
  rfl

/-! ## The options -/

/-- The optional sections of `NativePublicSetup::new`. -/
def optionSections : List (Section UInt8) :=
  [⟨asciiBytes "/kh-transport-v2/", 8⟩, ⟨asciiBytes "/two-mask-one-key-v1/", 0⟩,
    ⟨asciiBytes "/rounded-public-masks-v1/", 8⟩, ⟨asciiBytes "/dithered-query-v1/", 0⟩]

/-- The options of a profile that differ from their defaults. -/
def optionBodies (profile : NativeProfile P) : List (Option (List UInt8)) :=
  [if profile.requestMagic = asciiBytes "RNQ2" then some (leBytes 8 profile.khBits) else none,
    if profile.twoMask then some [] else none,
    if profile.publishedMaskBits ≠ 64 then some (leBytes 8 profile.publishedMaskBits) else none,
    if profile.ditheredQuery then some [] else none]

theorem optionSections_ne_nil : ∀ s ∈ optionSections, s.tag ≠ [] := by decide

theorem optionSections_separated :
    optionSections.Pairwise fun s t => Separated s.tag t.tag := by
  simp only [optionSections, Separated]
  decide

theorem optionBodies_fit (profile : NativeProfile P) :
    List.Forall₂ Section.Fits optionSections (optionBodies profile) := by
  have hfit (c : Prop) [Decidable c] (s : Section UInt8) {body : List UInt8}
      (hbody : body.length = s.width) : s.Fits (if c then some body else none) := by
    intro b hb
    split at hb
    · cases hb
      exact hbody
    · cases hb
  exact .cons (hfit _ _ (length_leBytes 8 _)) (.cons (hfit _ _ rfl)
    (.cons (hfit _ _ (length_leBytes 8 _)) (.cons (hfit _ _ rfl) .nil)))

/-- A width is transmitted for the final key exactly if it is not the full one. -/
theorem requestMagic_eq_iff {profile : NativeProfile P} (hprofile : profile.Valid) :
    profile.requestMagic = asciiBytes "RNQ2" ↔ profile.khBits ≠ P.qBits := by
  rw [NativeProfile.requestMagic, trailingZeros_eq P]
  have h32 : asciiBytes "RNQ3" ≠ asciiBytes "RNQ2" := by decide
  have h12 : asciiBytes "RNQ1" ≠ asciiBytes "RNQ2" := by decide
  by_cases htwo : profile.twoMask = true
  · rw [if_pos htwo]
    exact iff_of_false h32 (not_not.mpr (hprofile.two_mask htwo))
  · rw [if_neg htwo]
    by_cases hfull : profile.khBits = P.qBits
    · rw [if_pos hfull]
      exact iff_of_false h12 (not_not.mpr hfull)
    · rw [if_neg hfull]
      exact iff_of_true rfl hfull

/-- The words that an optional field of a profile can hold. -/
theorem leBytes_width_injOn {w w' : ℕ} (hw : w ≤ 64) (hw' : w' ≤ 64)
    (h : leBytes 8 w = leBytes 8 w') : w = w' :=
  leBytes_injOn (hw.trans_lt (by norm_num)) (hw'.trans_lt (by norm_num)) h

/-- **The options are read back** from the sections. -/
theorem options_injective {profile profile' : NativeProfile P} (hprofile : profile.Valid)
    (hprofile' : profile'.Valid) (h : optionBodies profile = optionBodies profile') :
    profile.khBits = profile'.khBits ∧ profile.twoMask = profile'.twoMask ∧
      profile.publishedMaskBits = profile'.publishedMaskBits ∧
      profile.ditheredQuery = profile'.ditheredQuery := by
  have hbits := P.qBits_le
  have hkh : profile.khBits ≤ 64 := by rcases hprofile.khBits with hfull | hlow <;> omega
  have hkh' : profile'.khBits ≤ 64 := by rcases hprofile'.khBits with hfull | hlow <;> omega
  have hmask : profile.publishedMaskBits ≤ 64 := by rcases hprofile.mask_bits with h | h <;> omega
  have hmask' : profile'.publishedMaskBits ≤ 64 := by
    rcases hprofile'.mask_bits with h | h <;> omega
  have hflag {b b' : Bool} (h : (if b then some ([] : List UInt8) else none) =
      if b' then some [] else none) : b = b' := by
    cases b <;> cases b' <;> first | rfl | cases h
  -- an optional width is the default one or is written out
  have hwidth {w w' default : ℕ} (hw : w ≤ 64) (hw' : w' ≤ 64)
      (h : (if w ≠ default then some (leBytes 8 w) else none) =
        if w' ≠ default then some (leBytes 8 w') else none) : w = w' := by
    by_cases hd : w ≠ default <;> by_cases hd' : w' ≠ default
    · rw [if_pos hd, if_pos hd'] at h
      exact leBytes_width_injOn hw hw' (Option.some.inj h)
    · rw [if_pos hd, if_neg hd'] at h
      cases h
    · rw [if_neg hd, if_pos hd'] at h
      cases h
    · rw [not_not.mp hd, not_not.mp hd']
  simp only [optionBodies, requestMagic_eq_iff hprofile, requestMagic_eq_iff hprofile',
    List.cons.injEq, and_true] at h
  obtain ⟨hkhs, htwo, hmasks, hdither⟩ := h
  exact ⟨hwidth hkh hkh' hkhs, hflag htwo, hwidth hmask hmask' hmasks, hflag hdither⟩

/-! ## The identifier -/

/-- The words that stand after the options. -/
def shapeWords (profile : NativeProfile P) : List ℕ :=
  [profile.rows, profile.cols, profile.queryBits, profile.responseBits]

/-- The three parts of what is hashed. -/
theorem setupBytes_eq (profile : NativeProfile P) (seed snapshot : Digest) :
    setupBytes profile seed snapshot =
      (asciiBytes "ipir-sp/native/v1/setup" ++ P.encoding) ++
        (sections optionSections (optionBodies profile) ++
          ((shapeWords profile).flatMap (leBytes 8) ++ List.ofFn seed ++ List.ofFn snapshot)) := by
  have hwrite (c : Prop) [Decidable c] (s : Section UInt8) (body : List UInt8) :
      s.write (if c then some body else none) = if c then s.tag ++ body else [] := by
    split <;> rfl
  simp only [setupBytes, optionSections, optionBodies, shapeWords, sections_cons, sections_nil,
    hwrite, List.append_nil, List.append_assoc]

theorem shapeWords_lt {profile : NativeProfile P} (hprofile : profile.Valid) :
    ∀ w ∈ shapeWords profile, w < 256 ^ 8 := by
  have hsize := hprofile.size_le
  have hrows := hprofile.rows_pos
  have hcols := hprofile.cols_pos
  have hle : profile.rows ≤ profile.rows * profile.cols := Nat.le_mul_of_pos_right _ hcols
  have hle' : profile.cols ≤ profile.rows * profile.cols := Nat.le_mul_of_pos_left _ hrows
  have hquery := hprofile.queryBits_le
  have hresponse := hprofile.responseBits_le.trans (min_le_right _ _)
  have hbits := P.qBits_le
  simp only [shapeWords, List.forall_mem_cons, List.not_mem_nil, false_imp_iff, implies_true,
    and_true]
  norm_num at hsize ⊢
  omega

/-- The parts of equal identifiers are equal. -/
theorem setupBytes_parts {d' q' : ℕ} {P' : NativeParams d' q'} {profile : NativeProfile P}
    {profile' : NativeProfile P'} {seed snapshot seed' snapshot' : Digest}
    (h : setupBytes profile seed snapshot = setupBytes profile' seed' snapshot') :
    P.encoding = P'.encoding ∧
      sections optionSections (optionBodies profile) =
        sections optionSections (optionBodies profile') ∧
      (shapeWords profile).flatMap (leBytes 8) = (shapeWords profile').flatMap (leBytes 8) ∧
      seed = seed' ∧ snapshot = snapshot' := by
  rw [setupBytes_eq, setupBytes_eq] at h
  obtain ⟨hhead, h⟩ := List.append_inj h (by
    rw [List.length_append, List.length_append, length_encoding, length_encoding])
  obtain ⟨hoptions, htail⟩ := List.append_inj' h rfl
  obtain ⟨h, hsnapshot⟩ := List.append_inj' htail rfl
  obtain ⟨hshape, hseed⟩ := List.append_inj' h rfl
  exact ⟨List.append_cancel_left hhead, hoptions, hshape, List.ofFn_injective hseed,
    List.ofFn_injective hsnapshot⟩

/-- Profiles of one packing profile with equal options and shapes are equal. -/
theorem profile_ext {profile profile' : NativeProfile P} (hprofile : profile.Valid)
    (hprofile' : profile'.Valid) (hoptions : optionBodies profile = optionBodies profile')
    (hshape : shapeWords profile = shapeWords profile') : profile = profile' := by
  obtain ⟨hkh, htwo, hmask, hdither⟩ := options_injective hprofile hprofile' hoptions
  simp only [shapeWords, List.cons.injEq, and_true] at hshape
  obtain ⟨hrows, hcols, hquery, hresponse⟩ := hshape
  cases profile
  cases profile'
  simp only at hkh htwo hmask hdither hrows hcols hquery hresponse
  subst hkh htwo hmask hdither hrows hcols hquery hresponse
  rfl

/-- **The identifier is the hash of an injective encoding**: two profiles, seeds and snapshots are
written to the same bytes only if all three are equal, whatever the packing profiles are. -/
theorem setupBytes_injective {d' q' : ℕ} {P' : NativeParams d' q'} {profile : NativeProfile P}
    {profile' : NativeProfile P'} (hprofile : profile.Reachable) (hprofile' : profile'.Reachable)
    (seed snapshot seed' snapshot' : Digest) :
    setupBytes profile seed snapshot = setupBytes profile' seed' snapshot' ↔
      (⟨d, q, P, profile⟩ : AnyProfile) = ⟨d', q', P', profile'⟩ ∧ seed = seed' ∧
        snapshot = snapshot' := by
  constructor
  · intro h
    obtain ⟨hencoding, hsections, hwords, rfl, rfl⟩ := setupBytes_parts h
    cases encoding_injective hencoding
    have hoptions := sections_injective optionSections_ne_nil optionSections_separated
      (optionBodies_fit profile) (optionBodies_fit profile') hsections
    have hlen : (shapeWords profile).length = (shapeWords profile').length := rfl
    have hshape := flatMap_leBytes_injOn hlen (shapeWords_lt hprofile.valid)
      (shapeWords_lt hprofile'.valid) hwords
    rw [profile_ext hprofile.valid hprofile'.valid hoptions hshape]
    exact ⟨rfl, rfl, rfl⟩
  · rintro ⟨h, rfl, rfl⟩
    cases h
    rfl

theorem setupBytes_injective_dither :
    setupBytes ditherProfile (fun _ => 1) (fun _ => 2) ≠
      setupBytes (ditherProfileAt 49 64 false) (fun _ => 1) (fun _ => 2) := by
  intro h
  have hplain : NativeProfile.new ditherParams 4 8 = .ok (ditherProfileAt 49 64 false) := by decide
  have hequal := (setupBytes_injective ditherProfile_reachable (.new hplain) _ _ _ _).mp h
  have hmode := congrArg (fun profile : AnyProfile => profile.2.2.2.twoMask) hequal.1
  cases hmode

end NativeClient
