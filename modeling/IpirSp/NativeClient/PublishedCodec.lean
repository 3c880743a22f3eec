import IpirSp.NativeClient.Published

/-!
# The published-mask codec

Published masks have three formats: two for exact words, with one or two families of masks, and one
for rounded words.  All three are a magic, the identifier of the setup and a body of words, and
`fromBytes_encoded` and `fromBytes_ok` say which strings the parser accepts.  The masks that come
from the evaluator are rounded before they are stored, so what is written is what is read.
-/

namespace NativeClient

open Inspiring Reinspiring SpiralRs Codec Loops MachineWord Rounding

variable {d q : ℕ} {P : NativeParams d q}

/-! ## The format -/

/-- The magic of a profile. -/
def publishedMagic (profile : NativeProfile P) : List UInt8 :=
  if profile.publishedMaskBits ≠ 64 then asciiBytes "RNP3"
  else if profile.twoMask then asciiBytes "RNP2" else asciiBytes "RNP1"

/-- The words of a profile. -/
def publishedCount (profile : NativeProfile P) : ℕ :=
  profile.cols * (1 + if profile.twoMask then 1 else 0)

/-- The body of a list of words. -/
def publishedBody (profile : NativeProfile P) (words : List ℕ) : List UInt8 :=
  if profile.publishedMaskBits = 64 then words.flatMap (leBytes 8)
  else encode (down words q profile.publishedMaskBits) profile.publishedMaskBits

/-- Rounding does not change the words. -/
def IsRounded (profile : NativeProfile P) (words : List ℕ) : Prop :=
  profile.publishedMaskBits = 64 ∨
    up (down words q profile.publishedMaskBits) q profile.publishedMaskBits = words

namespace NativePublished

/-- The words of both families, in the order in which they are written. -/
def words (published : NativePublished P) : List ℕ :=
  flatWords published.masks ++ flatWords (published.otherMasks.getD [])

/-- The masks of a setup with the given words. -/
def ofWords (setup : NativePublicSetup P) (words : List ℕ) : NativePublished P where
  setupId := setup.id
  masks := chunksExact d (words.take setup.profile.cols)
  otherMasks :=
    if setup.profile.twoMask then some (chunksExact d (words.drop setup.profile.cols)) else none
  maskBits := setup.profile.publishedMaskBits

/-- What is written for the masks of a setup. -/
theorem toBytes_eq {published : NativePublished P} {setup : NativePublicSetup P}
    (h : published.Of setup) :
    published.toBytes =
      publishedMagic setup.profile ++ List.ofFn setup.id ++
        publishedBody setup.profile published.words := by
  rw [toBytes, publishedMagic, publishedBody, h.maskBits, h.setupId, h.isSome_others]
  by_cases hwidth : setup.profile.publishedMaskBits = 64
  · rw [if_neg (not_not.mpr hwidth), if_neg (not_not.mpr hwidth), if_pos hwidth]
    rfl
  · rw [if_pos hwidth, if_pos hwidth, if_neg hwidth]
    rfl

/-- The masks of a setup have as many words as its profile. -/
theorem length_words {published : NativePublished P} {setup : NativePublicSetup P}
    (hprofile : setup.profile.Valid) (h : published.Of setup) :
    published.words.length = publishedCount setup.profile ∧
      (flatWords published.masks).length = setup.profile.cols := by
  have hmasks : (flatWords published.masks).length = setup.profile.cols := by
    rw [length_flatWords, h.length_masks, Nat.div_mul_cancel hprofile.dvd_cols]
  refine ⟨?_, hmasks⟩
  rw [words, List.length_append, hmasks, publishedCount, ← h.isSome_others]
  cases hothers : published.otherMasks with
  | none => simp [flatWords]
  | some os =>
      have hlen := h.canonical.length_eq os hothers
      rw [Option.getD_some, length_flatWords, hlen, ← length_flatWords, hmasks]
      simp only [Option.isSome_some, if_true]
      ring

theorem words_lt {published : NativePublished P} {setup : NativePublicSetup P}
    (h : published.Of setup) : ∀ x ∈ published.words, x < q := by
  intro x hx
  rcases List.mem_append.mp hx with hx | hx
  · exact lt_of_mem_flatWords h.canonical.masks_lt hx
  · refine lt_of_mem_flatWords (fun a ha => ?_) hx
    cases hothers : published.otherMasks with
    | none =>
        rw [hothers] at ha
        exact absurd ha List.not_mem_nil
    | some os =>
        rw [hothers] at ha
        exact h.canonical.others_lt os hothers a ha

/-- **The masks of a setup are the chunks of their words.** -/
theorem ofWords_words {published : NativePublished P} {setup : NativePublicSetup P}
    (hprofile : setup.profile.Valid) (h : published.Of setup) :
    ofWords setup published.words = published := by
  have hd := P.d_pos
  obtain ⟨-, hmasks⟩ := length_words hprofile h
  have hothers : (if setup.profile.twoMask then
      some (chunksExact d (published.words.drop setup.profile.cols)) else none) =
      published.otherMasks := by
    rw [words, List.drop_left' hmasks, chunksExact_flatWords hd, ← h.isSome_others]
    cases published.otherMasks <;> rfl
  have htake : chunksExact d (published.words.take setup.profile.cols) = published.masks := by
    rw [words, List.take_left' hmasks, chunksExact_flatWords hd]
  rw [ofWords, hothers, htake, ← h.setupId, ← h.maskBits]

/-- The words that were chunked. -/
theorem words_ofWords {setup : NativePublicSetup P} (hprofile : setup.profile.Valid)
    {words : List ℕ} (hlen : words.length = publishedCount setup.profile) :
    (ofWords setup words).words = words := by
  have hd := P.d_pos
  have hcols := hprofile.dvd_cols
  rw [publishedCount] at hlen
  have htake : (words.take setup.profile.cols).length = setup.profile.cols := by
    rw [List.length_take, hlen]
    exact min_eq_left (Nat.le_mul_of_pos_right _ (by omega))
  have hfirst : flatWords (chunksExact d (words.take setup.profile.cols)) =
      words.take setup.profile.cols := flatWords_chunksExact (by rwa [htake]) hd
  have hdrop : (words.drop setup.profile.cols).length =
      setup.profile.cols * if setup.profile.twoMask then 1 else 0 := by
    rw [List.length_drop, hlen, Nat.mul_add, mul_one, Nat.add_sub_cancel_left]
  rw [NativePublished.words, ofWords]
  dsimp only
  rw [hfirst]
  cases hmode : setup.profile.twoMask with
  | false =>
      rw [hmode] at hdrop
      have hnil := List.length_eq_zero_iff.mp hdrop
      rw [← List.take_append_drop setup.profile.cols words, hnil]
      simp [flatWords]
  | true =>
      rw [hmode] at hdrop
      simp only [if_true, mul_one] at hdrop
      have hsecond : flatWords (chunksExact d (words.drop setup.profile.cols)) =
          words.drop setup.profile.cols := flatWords_chunksExact (by rwa [hdrop]) hd
      rw [if_pos rfl, Option.getD_some, hsecond, List.take_append_drop]

/-! ## The parser -/

/-- The length of a body. -/
theorem length_publishedBody (profile : NativeProfile P) (words : List ℕ) :
    (publishedBody profile words).length =
      if profile.publishedMaskBits = 64 then words.length * 8
      else fieldBytes words.length profile.publishedMaskBits := by
  rw [publishedBody]
  split
  · simp [List.length_flatMap]
  · rw [length_encode, length_down]

/-- **A body is read back.** -/
theorem read_publishedBody (o : Overflow) {profile : NativeProfile P} (hprofile : profile.Valid)
    {words : List ℕ} (hlen : words.length ≤ 2 ^ 32) (hlt : ∀ x ∈ words, x < q)
    (hrounded : IsRounded profile words) :
    (if profile.publishedMaskBits = 64 then
        .ok (leWords 8 words.length (publishedBody profile words))
      else do
        let fields ← decode o (publishedBody profile words) words.length
          profile.publishedMaskBits
        .ok (up fields q profile.publishedMaskBits) : Result (List ℕ)) = .ok words := by
  have hq := P.q_le
  by_cases hwidth : profile.publishedMaskBits = 64
  · have hread : leWords 8 words.length (words.flatMap (leBytes 8)) = words :=
      leWords_flatMap fun x hx => (hlt x hx).trans_le (hq.trans (by norm_num))
    rw [if_pos hwidth, publishedBody, if_pos hwidth, hread]
  · obtain ⟨hbits, hpos, hle⟩ := hprofile.mask_bits.resolve_left hwidth
    obtain ⟨hdecode, -⟩ := up_decode_down P o hpos (by omega) hlen hlt
    rw [if_neg hwidth, publishedBody, if_neg hwidth, hdecode, ok_bind,
      hrounded.resolve_left hwidth]

theorem length_publishedMagic (profile : NativeProfile P) :
    (publishedMagic profile).length = 4 := by
  rw [publishedMagic]
  split
  · rfl
  · split <;> rfl

theorem length_header (setup : NativePublicSetup P) :
    (publishedMagic setup.profile ++ List.ofFn setup.id).length = 36 := by
  rw [List.length_append, length_publishedMagic, List.length_ofFn]

/-- The exact words of a string, after its header. -/
theorem exactWords_eq (bytes : List UInt8) (n : ℕ) :
    (List.range n).map (fun i => fromLe ((bytes.drop (36 + i * 8)).take 8)) =
      leWords 8 n (bytes.drop 36) := by
  refine List.map_congr_left fun i _ => ?_
  rw [List.drop_drop]

/-- **What the parser returns** was encoded canonically. -/
theorem fromBytes_ok {o : Overflow} {setup : NativePublicSetup P}
    (hprofile : setup.profile.Valid) {bytes : List UInt8} {published : NativePublished P}
    (h : fromBytes o setup bytes = .ok published) :
    ∃ words, bytes = publishedMagic setup.profile ++ List.ofFn setup.id ++
        publishedBody setup.profile words ∧
      words.length = publishedCount setup.profile ∧ IsRounded setup.profile words ∧
      published = ofWords setup words := by
  rw [fromBytes_eq o hprofile] at h
  obtain ⟨hcheck, h⟩ := NativeProfile.guard_eq_ok h
  obtain ⟨hlen, hcheck⟩ := not_or.mp hcheck
  obtain ⟨hmagic, hid⟩ := not_or.mp hcheck
  obtain ⟨words, hwords, h⟩ := bind_eq_ok h
  obtain ⟨-, hok⟩ := NativeProfile.guard_eq_ok h
  have hbody : words.length = publishedCount setup.profile ∧
      publishedBody setup.profile words = bytes.drop 36 ∧ IsRounded setup.profile words := by
    rw [publishedBody, IsRounded]
    by_cases hwidth : setup.profile.publishedMaskBits = 64
    · rw [if_pos hwidth] at hwords hlen
      have hcount : (bytes.length - 36) / 8 = publishedCount setup.profile := by
        rw [not_not.mp hlen, Nat.add_sub_cancel_left, Nat.mul_div_cancel _ (by decide)]
        rfl
      rw [exactWords_eq, hcount] at hwords
      obtain rfl := Except.ok.inj hwords
      refine ⟨length_leWords _ _ _, ?_, Or.inl hwidth⟩
      rw [if_pos hwidth, flatMap_leWords]
      rw [List.length_drop, not_not.mp hlen, Nat.add_sub_cancel_left]
      rfl
    · obtain ⟨hbits, -, hle⟩ := hprofile.mask_bits.resolve_left hwidth
      rw [if_neg hwidth] at hwords
      obtain ⟨fields, hfields, hup⟩ := bind_eq_ok hwords
      obtain rfl := Except.ok.inj hup
      obtain ⟨hcount, hlt, hencode⟩ := decode_ok (count_fit hprofile) hfields
      have hdown := down_up_words P (show setup.profile.publishedMaskBits ≤ P.qBits by omega) hlt
      rw [if_neg hwidth, hdown, length_up]
      exact ⟨hcount, hencode, Or.inr rfl⟩
  obtain ⟨hcount, hbody, hrounded⟩ := hbody
  refine ⟨words, ?_, hcount, hrounded, (Except.ok.inj hok).symm⟩
  have hmagic' : bytes.take 4 = publishedMagic setup.profile := not_not.mp hmagic
  rw [hbody, ← hmagic', ← not_not.mp hid, ← List.drop_drop (i := 32) (j := 4), List.append_assoc,
    List.take_append_drop, List.take_append_drop]

/-- **Canonical encodings are accepted.** -/
theorem fromBytes_encoded (o : Overflow) {setup : NativePublicSetup P}
    (hprofile : setup.profile.Valid) {words : List ℕ}
    (hlen : words.length = publishedCount setup.profile) (hlt : ∀ x ∈ words, x < q)
    (hrounded : IsRounded setup.profile words) :
    fromBytes o setup (publishedMagic setup.profile ++ List.ofFn setup.id ++
      publishedBody setup.profile words) = .ok (ofWords setup words) := by
  set header := publishedMagic setup.profile ++ List.ofFn setup.id with hheader
  have hheaderLen : header.length = 36 := length_header setup
  have hdrop : (header ++ publishedBody setup.profile words).drop 36 =
      publishedBody setup.profile words := List.drop_left' hheaderLen
  have hbytes : (header ++ publishedBody setup.profile words).length =
      36 + if setup.profile.publishedMaskBits = 64 then publishedCount setup.profile * 8
        else fieldBytes (publishedCount setup.profile) setup.profile.publishedMaskBits := by
    rw [List.length_append, hheaderLen, length_publishedBody, hlen]
  have htake : (header ++ publishedBody setup.profile words).take 4 =
      publishedMagic setup.profile := by
    rw [hheader, List.append_assoc, List.take_left' (length_publishedMagic _)]
  have hid : ((header ++ publishedBody setup.profile words).drop 4).take 32 =
      List.ofFn setup.id := by
    rw [hheader, List.append_assoc, List.drop_left' (length_publishedMagic _),
      List.take_left' List.length_ofFn]
  have hcount : words.length ≤ 2 ^ 32 := by
    have hcols : setup.profile.cols ≤ 2 ^ 31 :=
      (Nat.le_mul_of_pos_left _ hprofile.rows_pos).trans hprofile.size_le
    rw [hlen, publishedCount]
    split <;> omega
  have hread := read_publishedBody o hprofile hcount hlt hrounded
  have hcanonical : ¬∃ x ∈ words, x ≥ q := by
    push Not
    exact hlt
  rw [fromBytes_eq o hprofile, parse, if_neg (by
    rintro (hne | hne | hne)
    · exact hne hbytes
    · exact hne htake
    · exact hne hid), exactWords_eq, hdrop]
  have hparsed : (if setup.profile.publishedMaskBits = 64 then
        .ok (leWords 8 (((header ++ publishedBody setup.profile words).length - 36) / 8)
          (publishedBody setup.profile words))
      else do
        let fields ← decode o (publishedBody setup.profile words) (publishedCount setup.profile)
          setup.profile.publishedMaskBits
        .ok (up fields q setup.profile.publishedMaskBits) : Result (List ℕ)) = .ok words := by
    rw [← hread, hlen]
    by_cases hwidth : setup.profile.publishedMaskBits = 64
    · rw [if_pos hwidth, if_pos hwidth, hbytes, if_pos hwidth, Nat.add_sub_cancel_left,
        Nat.mul_div_cancel _ (by decide)]
    · rw [if_neg hwidth, if_neg hwidth]
  rw [publishedCount] at hparsed
  rw [hparsed, ok_bind, if_neg hcanonical]
  rfl

/-! ## Rounded masks -/

/-- Rounding acts on every word by itself. -/
theorem exists_up_down_eq_map (q bits : ℕ) :
    ∃ round : ℕ → ℕ, ∀ words, up (down words q bits) q bits = words.map round :=
  ⟨_, fun _ => List.map_map⟩

theorem polyOf_map (round : ℕ → ℕ) (mask : Poly d) :
    polyOf ((List.ofFn mask).map round) = fun i => round (mask i) := by
  funext i
  rw [polyOf, List.getD_eq_getElem _ _ (by simp), List.getElem_map, List.getElem_ofFn]

/-- The words of rounded masks are the rounded words. -/
theorem flatWords_roundMasks {profile : NativeProfile P} (hwidth : profile.publishedMaskBits ≠ 64)
    (blocks : List (Poly d)) :
    flatWords (roundMasks profile blocks) =
      up (down (flatWords blocks) q profile.publishedMaskBits) q profile.publishedMaskBits := by
  obtain ⟨round, hround⟩ := exists_up_down_eq_map q profile.publishedMaskBits
  rw [roundMasks, if_neg hwidth, hround, map_flatWords]
  congr 1
  refine List.map_congr_left fun mask _ => ?_
  rw [hround, polyOf_map]

/-- The masks that the evaluator publishes were rounded. -/
theorem isRounded_fromMasks {setup : NativePublicSetup P} (hprofile : setup.profile.Valid)
    {masks : List (Poly d)} {otherMasks : Option (List (Poly d))} {published : NativePublished P}
    (h : fromMasks setup masks otherMasks = .ok published) :
    IsRounded setup.profile published.words := by
  by_cases hwidth : setup.profile.publishedMaskBits = 64
  · exact Or.inl hwidth
  obtain ⟨hbits, -, hle⟩ := hprofile.mask_bits.resolve_left hwidth
  obtain ⟨hcheck, hok⟩ := NativeProfile.guard_eq_ok h
  obtain ⟨hmasks, hcheck⟩ := not_or.mp hcheck
  obtain ⟨-, hothers⟩ := not_or.mp hcheck
  obtain rfl := Except.ok.inj hok
  have hlt : ∀ x ∈ flatWords (masks ++ otherMasks.getD []), x < q := by
    refine fun x => lt_of_mem_flatWords fun a ha => ?_
    rcases List.mem_append.mp ha with ha | ha
    · exact (not_not.mp hmasks).2 a ha
    · cases otherMasks with
      | none => exact absurd ha List.not_mem_nil
      | some blocks =>
          have hvalid : validMasks setup.profile blocks := by simpa using hothers
          exact hvalid.2 a ha
  have hothersWords : flatWords ((otherMasks.map (roundMasks setup.profile)).getD []) =
      flatWords (roundMasks setup.profile (otherMasks.getD [])) := by
    cases otherMasks with
    | none => rw [flatWords_roundMasks hwidth]; rfl
    | some blocks => rfl
  have hwords : flatWords (roundMasks setup.profile masks) ++
      flatWords ((otherMasks.map (roundMasks setup.profile)).getD []) =
      up (down (flatWords (masks ++ otherMasks.getD [])) q setup.profile.publishedMaskBits) q
        setup.profile.publishedMaskBits := by
    obtain ⟨round, hround⟩ := exists_up_down_eq_map q setup.profile.publishedMaskBits
    rw [hothersWords, flatWords_roundMasks hwidth, flatWords_roundMasks hwidth, hround, hround,
      hround, flatWords_append, List.map_append]
  refine Or.inr ?_
  rw [words]
  dsimp only
  rw [hwords, down_up_words P (by omega) (down_words_lt P hlt)]

/-- Words that rounding does not change make up masks that it does not change. -/
theorem roundMasks_eq {profile : NativeProfile P} {blocks : List (Poly d)}
    (h : IsRounded profile (flatWords blocks)) : roundMasks profile blocks = blocks := by
  have hd := P.d_pos
  by_cases hwidth : profile.publishedMaskBits = 64
  · rw [roundMasks, if_pos hwidth]
  · have hflat := (flatWords_roundMasks hwidth blocks).trans (h.resolve_left hwidth)
    have hchunks := congrArg (chunksExact d) hflat
    rwa [chunksExact_flatWords hd, chunksExact_flatWords hd] at hchunks

theorem IsRounded.of_append {profile : NativeProfile P} {words words' : List ℕ}
    (h : IsRounded profile (words ++ words')) :
    IsRounded profile words ∧ IsRounded profile words' := by
  rcases h with hwidth | hfixed
  · exact ⟨Or.inl hwidth, Or.inl hwidth⟩
  · obtain ⟨round, hround⟩ := exists_up_down_eq_map q profile.publishedMaskBits
    rw [hround, List.map_append] at hfixed
    obtain ⟨hfirst, hsecond⟩ := List.append_inj hfixed (List.length_map _)
    exact ⟨Or.inr ((hround words).trans hfirst), Or.inr ((hround words').trans hsecond)⟩

/-- The stored masks are fixed by the rounding of the profile. -/
structure Rounded (published : NativePublished P) (profile : NativeProfile P) : Prop where
  masks : roundMasks profile published.masks = published.masks
  others : published.otherMasks.map (roundMasks profile) = published.otherMasks

theorem rounded_of_isRounded {published : NativePublished P} {profile : NativeProfile P}
    (h : IsRounded profile published.words) : published.Rounded profile := by
  obtain ⟨hmasks, hothers⟩ := IsRounded.of_append h
  refine ⟨roundMasks_eq hmasks, ?_⟩
  cases hmode : published.otherMasks with
  | none => rfl
  | some blocks =>
      rw [hmode, Option.getD_some] at hothers
      rw [Option.map_some, roundMasks_eq hothers]

/-! ## The codec -/

/-- **The masks of the evaluator** are read back as they are stored. -/
theorem fromBytes_toBytes (o : Overflow) {setup : NativePublicSetup P}
    (hprofile : setup.profile.Valid) {masks : List (Poly d)} {otherMasks : Option (List (Poly d))}
    {published : NativePublished P} (h : fromMasks setup masks otherMasks = .ok published) :
    fromBytes o setup published.toBytes = .ok published := by
  have hof := of_fromMasks hprofile h
  rw [toBytes_eq hof, fromBytes_encoded o hprofile (length_words hprofile hof).1
    (words_lt hof) (isRounded_fromMasks hprofile h), ofWords_words hprofile hof]

/-- **The codec of the published masks is exact.**  The masks of the evaluator are read back as they
are stored, an accepted string is written again byte for byte, and in both cases the stored masks
are fixed by the rounding, so that nothing is rounded twice. -/
theorem published_roundTrip (o : Overflow) {setup : NativePublicSetup P}
    (hprofile : setup.profile.Reachable) :
    (∀ (masks : List (Poly d)) (otherMasks : Option (List (Poly d)))
        (published : NativePublished P), fromMasks setup masks otherMasks = .ok published →
      fromBytes o setup published.toBytes = .ok published ∧ published.Rounded setup.profile) ∧
    ∀ (bytes : List UInt8) (published : NativePublished P),
      fromBytes o setup bytes = .ok published →
      published.toBytes = bytes ∧ published.Rounded setup.profile := by
  have hvalid := hprofile.valid
  constructor
  · intro masks otherMasks published h
    exact ⟨fromBytes_toBytes o hvalid h, rounded_of_isRounded (isRounded_fromMasks hvalid h)⟩
  · intro bytes published h
    have hof := of_fromBytes hvalid h
    obtain ⟨words, hbytes, hcount, hrounded, rfl⟩ := fromBytes_ok hvalid h
    have hwords := words_ofWords hvalid hcount
    refine ⟨?_, rounded_of_isRounded (by rwa [hwords])⟩
    rw [toBytes_eq hof, hwords, hbytes]

theorem published_roundTrip_small : ∃ published,
    fromMasks ditherSetup [fun _ => 2 ^ 54 - 1, fun _ => 0] (some [fun _ => 5, fun _ => 2 ^ 31]) =
      .ok published ∧
    ∀ o, fromBytes o ditherSetup published.toBytes = .ok published := by
  have hreachable : ditherSetup.profile.Reachable := ditherProfile_reachable
  obtain ⟨published, hpublished⟩ : ∃ published, fromMasks ditherSetup
      [fun _ => 2 ^ 54 - 1, fun _ => 0] (some [fun _ => 5, fun _ => 2 ^ 31]) = .ok published :=
    ⟨_, rfl⟩
  exact ⟨published, hpublished, fun o =>
    ((published_roundTrip o hreachable).1 _ _ published hpublished).1⟩

end NativePublished

end NativeClient
