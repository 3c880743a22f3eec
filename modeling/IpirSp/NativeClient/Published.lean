import IpirSp.NativeClient.Request

/-!
# Published masks

The public masks of a snapshot, in one or two families, at the width of the profile.  They come
from the evaluator (`from_masks`) or from bytes (`from_bytes`), and `Of` is what both establish:
canonical masks of the shape of the setup.
-/

namespace NativeClient

open Reinspiring SpiralRs Codec Loops MachineWord Rounding

variable {d q : ℕ} {P : NativeParams d q}

/-- `NativePublished`. -/
structure NativePublished (P : NativeParams d q) where
  setupId : Digest
  masks : List (Poly d)
  otherMasks : Option (List (Poly d))
  maskBits : ℕ

/-- The closure `valid` of `from_masks`. -/
def validMasks (profile : NativeProfile P) (blocks : List (Poly d)) : Prop :=
  blocks.length = profile.cols / d ∧ ∀ block ∈ blocks, ∀ i, block i < q

instance (profile : NativeProfile P) (blocks : List (Poly d)) :
    Decidable (validMasks profile blocks) :=
  inferInstanceAs (Decidable (_ ∧ _))

/-- The polynomial of a list of words. -/
def polyOf (words : List ℕ) : Poly d := fun i => words.getD i 0

/-- The closure `round` of `from_masks`. -/
def roundMasks (profile : NativeProfile P) (blocks : List (Poly d)) : List (Poly d) :=
  if profile.publishedMaskBits = 64 then blocks
  else blocks.map fun mask => polyOf
    (up (down (List.ofFn mask) q profile.publishedMaskBits) q profile.publishedMaskBits)

/-- `from_masks`. -/
def NativePublished.fromMasks (setup : NativePublicSetup P) (masks : List (Poly d))
    (otherMasks : Option (List (Poly d))) : Result (NativePublished P) :=
  let profile := setup.profile
  if ¬validMasks profile masks ∨ otherMasks.isSome ≠ profile.twoMask ∨
      otherMasks.any (fun blocks => ¬validMasks profile blocks) then
    invalidParams "published mask shape or coefficient mismatch"
  else .ok {
    setupId := setup.id
    masks := roundMasks profile masks
    otherMasks := otherMasks.map (roundMasks profile)
    maskBits := profile.publishedMaskBits }

/-- `to_bytes`. -/
def NativePublished.toBytes (published : NativePublished P) : List UInt8 :=
  let words := flatWords published.masks ++ flatWords (published.otherMasks.getD [])
  if published.maskBits ≠ 64 then
    asciiBytes "RNP3" ++ List.ofFn published.setupId ++
      encode (down words q published.maskBits) published.maskBits
  else
    (if published.otherMasks.isSome then asciiBytes "RNP2" else asciiBytes "RNP1") ++
      List.ofFn published.setupId ++ words.flatMap (leBytes 8)

/-- `from_bytes`, from the length of the body on. -/
def NativePublished.parse (o : Overflow) (setup : NativePublicSetup P) (length : ℕ)
    (bytes : List UInt8) : Result (NativePublished P) :=
  let p := setup.profile
  let count := p.cols * (1 + if p.twoMask then 1 else 0)
  let magic := if p.publishedMaskBits ≠ 64 then asciiBytes "RNP3"
    else if p.twoMask then asciiBytes "RNP2" else asciiBytes "RNP1"
  if bytes.length ≠ 36 + length ∨ bytes.take 4 ≠ magic ∨
      (bytes.drop 4).take 32 ≠ List.ofFn setup.id then
    invalidParams "published mask mismatch"
  else do
    let words ← (if p.publishedMaskBits = 64 then
        .ok ((List.range ((bytes.length - 36) / 8)).map fun i =>
          fromLe ((bytes.drop (36 + i * 8)).take 8))
      else do
        let words ← decode o (bytes.drop 36) count p.publishedMaskBits
        .ok (up words q p.publishedMaskBits))
    if ∃ x ∈ words, x ≥ q then invalidParams "noncanonical published mask"
    else .ok {
      setupId := setup.id
      masks := chunksExact d (words.take p.cols)
      otherMasks := if p.twoMask then some (chunksExact d (words.drop p.cols)) else none
      maskBits := p.publishedMaskBits }

/-- `from_bytes`. -/
def NativePublished.fromBytes (o : Overflow) (setup : NativePublicSetup P)
    (bytes : List UInt8) : Result (NativePublished P) := do
  let p := setup.profile
  let count := p.cols * (1 + if p.twoMask then 1 else 0)
  let length ← (if p.publishedMaskBits = 64 then .ok (count * 8)
    else packedLen o count p.publishedMaskBits)
  parse o setup length bytes

/-- Published masks of a setup. -/
structure NativePublished.Of (published : NativePublished P) (setup : NativePublicSetup P) :
    Prop where
  setupId : published.setupId = setup.id
  maskBits : published.maskBits = setup.profile.publishedMaskBits
  isSome_others : published.otherMasks.isSome = setup.profile.twoMask
  length_masks : published.masks.length = setup.profile.cols / d
  canonical : CanonicalMasks q published.masks published.otherMasks

/-! ## Masks from the evaluator -/

theorem getD_lt (hq : 0 < q) {words : List ℕ} (h : ∀ x ∈ words, x < q) (i : ℕ) :
    words.getD i 0 < q := by
  by_cases hi : i < words.length
  · rw [List.getD_eq_getElem _ _ hi]
    exact h _ (List.getElem_mem hi)
  · rw [List.getD_eq_default _ _ (not_lt.mp hi)]
    exact hq

theorem polyOf_lt (hq : 0 < q) {words : List ℕ} (h : ∀ x ∈ words, x < q) (i : Fin d) :
    (polyOf words : Poly d) i < q := getD_lt hq h i

theorem roundMasks_spec {profile : NativeProfile P} (hprofile : profile.Valid)
    {blocks : List (Poly d)} (h : validMasks profile blocks) :
    (roundMasks profile blocks).length = profile.cols / d ∧
      ∀ a ∈ roundMasks profile blocks, ∀ i, a i < q := by
  obtain ⟨hlen, hlt⟩ := h
  rw [roundMasks]
  split
  · exact ⟨hlen, hlt⟩
  rename_i hwidth
  obtain ⟨hbits, -, hle⟩ := hprofile.mask_bits.resolve_left hwidth
  refine ⟨by rw [List.length_map, hlen], fun a ha => ?_⟩
  obtain ⟨mask, hmask, rfl⟩ := List.mem_map.mp ha
  refine polyOf_lt P.q_pos (up_lt P (by omega) (down_words_lt P fun x hx => ?_))
  obtain ⟨i, rfl⟩ := (List.mem_ofFn' _ _).mp hx
  exact hlt mask hmask i

/-- **Masks from the evaluator** are masks of the setup. -/
theorem NativePublished.of_fromMasks {setup : NativePublicSetup P}
    (hprofile : setup.profile.Valid) {masks : List (Poly d)} {otherMasks : Option (List (Poly d))}
    {published : NativePublished P} (h : fromMasks setup masks otherMasks = .ok published) :
    published.Of setup := by
  obtain ⟨hcheck, hok⟩ := NativeProfile.guard_eq_ok h
  obtain ⟨hmasks, hcheck⟩ := not_or.mp hcheck
  obtain ⟨hmode, hothers⟩ := not_or.mp hcheck
  obtain rfl := Except.ok.inj hok
  obtain ⟨hlen, hlt⟩ := roundMasks_spec hprofile (not_not.mp hmasks)
  have hspec : ∀ os ∈ otherMasks.map (roundMasks setup.profile),
      os.length = setup.profile.cols / d ∧ ∀ a ∈ os, ∀ i, a i < q := by
    intro os hos
    obtain ⟨blocks, hblocks, rfl⟩ := Option.mem_map.mp hos
    refine roundMasks_spec hprofile ?_
    rw [Option.mem_def.mp hblocks] at hothers
    simpa using hothers
  exact
    { setupId := rfl
      maskBits := rfl
      isSome_others := by
        rw [Option.isSome_map]
        exact not_not.mp hmode
      length_masks := hlen
      canonical :=
        { masks_lt := hlt
          others_lt := fun os hos => (hspec os hos).2
          length_eq := fun os hos => (hspec os hos).1.trans hlen.symm } }

/-! ## Masks from bytes -/

theorem chunksExact_lt (hq : 0 < q) {words : List ℕ} (h : ∀ x ∈ words, x < q) :
    ∀ a ∈ chunksExact d words, ∀ i, a i < q := by
  intro a ha i
  obtain ⟨j, -, rfl⟩ := List.mem_map.mp ha
  exact getD_lt hq h _

/-- The words of a snapshot can be counted. -/
theorem count_fit {profile : NativeProfile P} (h : profile.Valid) :
    profile.cols * (1 + if profile.twoMask then 1 else 0) * profile.publishedMaskBits <
      2 ^ 64 := by
  have hcols : profile.cols ≤ 2 ^ 31 :=
    (Nat.le_mul_of_pos_left _ h.rows_pos).trans h.size_le
  have hbits : profile.publishedMaskBits ≤ 64 := by
    rcases h.mask_bits with hmask | hmask <;> omega
  refine fields_fit ?_ hbits
  split <;> omega

/-- **The length of a snapshot fits** at every valid profile, in either build. -/
theorem NativePublished.fromBytes_eq (o : Overflow) {setup : NativePublicSetup P}
    (h : setup.profile.Valid) (bytes : List UInt8) :
    fromBytes o setup bytes = parse o setup
      (if setup.profile.publishedMaskBits = 64 then
        setup.profile.cols * (1 + if setup.profile.twoMask then 1 else 0) * 8
      else fieldBytes (setup.profile.cols * (1 + if setup.profile.twoMask then 1 else 0))
        setup.profile.publishedMaskBits) bytes := by
  rw [fromBytes]
  split
  · rfl
  · rw [packedLen_ok o (count_fit h), ok_bind]

/-- **Masks from bytes** are masks of the setup. -/
theorem NativePublished.of_fromBytes {o : Overflow} {setup : NativePublicSetup P}
    (hprofile : setup.profile.Valid) {bytes : List UInt8} {published : NativePublished P}
    (h : fromBytes o setup bytes = .ok published) : published.Of setup := by
  rw [fromBytes_eq o hprofile] at h
  obtain ⟨hcheck, h⟩ := NativeProfile.guard_eq_ok h
  obtain ⟨hlen, -⟩ := not_or.mp hcheck
  obtain ⟨words, hwords, h⟩ := bind_eq_ok h
  obtain ⟨hcanonical, hok⟩ := NativeProfile.guard_eq_ok h
  obtain rfl := Except.ok.inj hok
  push Not at hcanonical
  have hcount : words.length =
      setup.profile.cols * (1 + if setup.profile.twoMask then 1 else 0) := by
    by_cases hwidth : setup.profile.publishedMaskBits = 64
    · rw [if_pos hwidth] at hwords hlen
      obtain rfl := Except.ok.inj hwords
      rw [List.length_map, List.length_range, not_not.mp hlen, Nat.add_sub_cancel_left,
        Nat.mul_div_cancel _ (by decide)]
    · rw [if_neg hwidth] at hwords
      obtain ⟨fields, hfields, hup⟩ := bind_eq_ok hwords
      obtain rfl := Except.ok.inj hup
      rw [length_up]
      exact (decode_ok (count_fit hprofile) hfields).1
  have htake : (words.take setup.profile.cols).length = setup.profile.cols := by
    rw [List.length_take, hcount]
    exact min_eq_left (Nat.le_mul_of_pos_right _ (by omega))
  have hmasks : (chunksExact d (words.take setup.profile.cols)).length =
      setup.profile.cols / d := by rw [length_chunksExact, htake]
  refine
    { setupId := rfl
      maskBits := rfl
      isSome_others := by
        dsimp only
        cases setup.profile.twoMask <;> rfl
      length_masks := hmasks
      canonical := ⟨chunksExact_lt P.q_pos fun x hx => hcanonical x (List.mem_of_mem_take hx),
        fun os hos => ?_, fun os hos => ?_⟩ }
  · cases hmode : setup.profile.twoMask with
    | false => simp [hmode] at hos
    | true =>
        obtain rfl : chunksExact d (words.drop setup.profile.cols) = os := by
          simpa [hmode] using hos
        exact chunksExact_lt P.q_pos fun x hx => hcanonical x (List.mem_of_mem_drop hx)
  · cases hmode : setup.profile.twoMask with
    | false => simp [hmode] at hos
    | true =>
        obtain rfl : chunksExact d (words.drop setup.profile.cols) = os := by
          simpa [hmode] using hos
        rw [hmode] at hcount
        rw [hmasks, length_chunksExact, List.length_drop, hcount]
        congr 1
        simp only [if_true]
        omega

end NativeClient
