import IpirSp.MachineWord.Overflow
import IpirSp.NativeClient.Bits
import IpirSp.Reinspiring.NativePack
import IpirSp.Reinspiring.NativeSecret
import IpirSp.Rounding.Cyclic

/-!
# The wire format of coefficients

Coefficients travel in fields of a fixed width, rounded to a multiple of a power of two.  `decode`
accepts exactly the encodings of words that fit the width while the bits of all fields can be
counted in a machine word: the count is an argument, so `packed_len` may overflow.  `down` and
`down_dithered` with `up` are the rounding on the cycle of length `q`.
-/

namespace NativeClient

open Reinspiring Codec Loops MachineWord Rounding

/-- The bytes that `n` fields take. -/
def fieldBytes (n bits : ℕ) : ℕ := (n * bits + 7) / 8

/-- `packed_len`. -/
def packedLen (o : Overflow) (n bits : ℕ) : Result ℕ :=
  match o.mul 64 n bits with
  | none => .error (.panic "attempt to multiply with overflow")
  | some product => .ok ((product + 7) / 8)

/-- `encode`.  Its own product is of the length of a slice, which memory bounds. -/
def encode (words : List ℕ) (bits : ℕ) : List UInt8 := u64sToContiguousBytes words bits

/-- `decode`. -/
def decode (o : Overflow) (bytes : List UInt8) (n bits : ℕ) : Result (List ℕ) := do
  let len ← packedLen o n bits
  if bytes.length ≠ len then invalidParams "invalid payload length"
  else do
    let words ← contiguousBytesToU64s bytes bits
    let words := words.take n
    if encode words bits ≠ bytes then invalidParams "noncanonical padding" else .ok words

/-- `u64::trailing_zeros`. -/
def trailingZeros (x : ℕ) : ℕ := ((List.range 64).find? x.testBit).getD 64

/-- `down`, at a width of at most the trailing zeros of `q`: above, the source's subtraction has no
value. -/
def down (words : List ℕ) (q bits : ℕ) : List ℕ :=
  let shift := trailingZeros q - bits
  words.map fun x =>
    if shift = 0 then x else (x + 2 ^ (shift - 1)) >>> shift &&& (2 ^ bits - 1)

/-- `down_dithered`: one word of the generator for each coefficient. -/
def downDithered {R : Type} (gen : Generator R) (q bits : ℕ) : List ℕ → R → List ℕ × R
  | [], rng => ([], rng)
  | x :: words, rng =>
    let shift := trailingZeros q - bits
    let low := 2 ^ shift - 1
    let drawn := gen.nextU64 rng
    let up := if drawn.1 &&& low < x &&& low then 1 else 0
    let rest := downDithered gen q bits words drawn.2
    (((x >>> shift) + up &&& (2 ^ bits - 1)) :: rest.1, rest.2)

/-- `up`, at the widths of `down`. -/
def up (words : List ℕ) (q bits : ℕ) : List ℕ :=
  let shift := trailingZeros q - bits
  words.map fun x => x <<< shift % W64

/-! ## Fields -/

theorem length_encode (words : List ℕ) (bits : ℕ) :
    (encode words bits).length = fieldBytes words.length bits :=
  length_u64sToContiguousBytes words bits

/-- Fields that can be counted take their bytes. -/
theorem packedLen_ok (o : Overflow) {n bits : ℕ} (hfit : n * bits < 2 ^ 64) :
    packedLen o n bits = .ok (fieldBytes n bits) := by
  rw [packedLen, o.mul_ok hfit]
  rfl

/-- Fields that cannot are never given their bytes. -/
theorem packedLen_ne (o : Overflow) {n bits : ℕ} (hlarge : 2 ^ 64 ≤ n * bits) :
    packedLen o n bits ≠ .ok (fieldBytes n bits) := by
  intro hlen
  cases o with
  | wraps =>
      have hwrapped : (n * bits % 2 ^ 64 + 7) / 8 = (n * bits + 7) / 8 := Except.ok.inj hlen
      have hlt := Nat.mod_lt (n * bits) (Nat.two_pow_pos 64)
      omega
  | traps =>
      rw [packedLen, Overflow.mul, Overflow.fit, if_neg (not_lt.mpr hlarge)] at hlen
      cases hlen

/-- The fields of a string are read one by one. -/
theorem contiguousBytesToU64s_ok (data : List UInt8) {bits : ℕ} (hpos : 0 < bits)
    (hle : bits ≤ 64) :
    ∃ words, contiguousBytesToU64s data bits = .ok words ∧
      words.length = data.length * 8 / bits ∧ (∀ w ∈ words, w < 2 ^ bits) ∧
      ∀ i < words.length, ∀ j, (words.getD i 0).testBit j =
        (decide (j < bits) && streamBit data (i * bits + j)) := by
  have hread (i : ℕ) := readBits_testBit data (i * bits) hpos hle
  choose field hfield hlt hbit using hread
  refine ⟨(List.range (data.length * 8 / bits)).map field, ?_, by simp, ?_, ?_⟩
  · rw [contiguousBytesToU64s, if_neg hpos.ne']
    exact mapM_eq_ok fun i _ => hfield i
  · intro w hw
    obtain ⟨i, -, rfl⟩ := List.mem_map.mp hw
    exact hlt i
  · intro i hi j
    rw [List.getD_eq_getElem _ _ hi, List.getElem_map, List.getElem_range]
    exact hbit i j

/-- A payload of the right length holds at least the expected fields. -/
theorem le_fields (n : ℕ) {bits : ℕ} (hpos : 0 < bits) : n ≤ fieldBytes n bits * 8 / bits := by
  rw [Nat.le_div_iff_mul_le hpos, fieldBytes]
  omega

/-- **The fields that were written are read back**, before those that the padding makes up. -/
theorem take_fields {words : List ℕ} {bits : ℕ} (hpos : 0 < bits) (hle : bits ≤ 64)
    (hlt : ∀ w ∈ words, w < 2 ^ bits) :
    ∃ fields, contiguousBytesToU64s (u64sToContiguousBytes words bits) bits = .ok fields ∧
      words.length ≤ fields.length ∧ fields.take words.length = words := by
  obtain ⟨fields, hfields, hlen, -, hbit⟩ :=
    contiguousBytesToU64s_ok (u64sToContiguousBytes words bits) hpos hle
  rw [length_u64sToContiguousBytes] at hlen
  have hn : words.length ≤ fields.length := hlen ▸ le_fields words.length hpos
  refine ⟨fields, hfields, hn, ?_⟩
  refine List.ext_getElem (by rw [List.length_take, min_eq_left hn]) fun i hi hi' => ?_
  rw [List.getElem_take]
  refine Nat.eq_of_testBit_eq fun j => ?_
  have hfield := hbit i (hi'.trans_le hn) j
  rw [List.getD_eq_getElem _ _ (hi'.trans_le hn)] at hfield
  rw [hfield]
  by_cases hj : j < bits
  · have hin : i * bits + j < words.length * bits := by
      have hmul : (i + 1) * bits ≤ words.length * bits := Nat.mul_le_mul_right bits hi'
      rw [Nat.add_mul, one_mul] at hmul
      omega
    have hstream := u64sToContiguousBytes_holds words bits (i * bits + j)
    rw [flat_div hj, flat_mod hj, decide_eq_true hin, Bool.true_and,
      List.getD_eq_getElem _ _ hi'] at hstream
    rw [decide_eq_true hj, Bool.true_and, hstream]
  · have hword := hlt words[i] (List.getElem_mem hi')
    have hhigh : 2 ^ bits ≤ 2 ^ j := Nat.pow_le_pow_right two_pos (not_lt.mp hj)
    rw [decide_eq_false hj, Bool.false_and, Nat.testBit_lt_two_pow (hword.trans_le hhigh)]

/-- **Fields that were read are written back** over the bits that they were read from. -/
theorem streamBit_written {data : List UInt8} {bits : ℕ} (hpos : 0 < bits) (hle : bits ≤ 64)
    {fields : List ℕ} (h : contiguousBytesToU64s data bits = .ok fields) {n : ℕ}
    (hn : n ≤ fields.length) {k : ℕ} (hk : k < n * bits) :
    streamBit (u64sToContiguousBytes (fields.take n) bits) k = streamBit data k := by
  obtain ⟨fields', hfields', -, -, hbit⟩ := contiguousBytesToU64s_ok data hpos hle
  obtain rfl := Except.ok.inj (h.symm.trans hfields')
  have hlen : (fields.take n).length = n := by rw [List.length_take, min_eq_left hn]
  have hmod := Nat.mod_lt k hpos
  have hdiv : k / bits < n := (Nat.div_lt_iff_lt_mul hpos).mpr hk
  have hsplit : k / bits * bits + k % bits = k := Nat.div_add_mod' k bits
  have htake : (fields.take n).getD (k / bits) 0 = fields.getD (k / bits) 0 := by
    rw [List.getD_eq_getElem _ _ (by rwa [hlen]), List.getD_eq_getElem _ _ (hdiv.trans_le hn),
      List.getElem_take]
  rw [u64sToContiguousBytes_holds, hlen, decide_eq_true hk, Bool.true_and, htake,
    hbit _ (hdiv.trans_le hn), decide_eq_true hmod, Bool.true_and, hsplit]

/-- **What is encoded is decoded.** -/
theorem decode_encode (o : Overflow) {words : List ℕ} {bits : ℕ} (hpos : 0 < bits)
    (hle : bits ≤ 64) (hfit : words.length * bits < 2 ^ 64) (hlt : ∀ w ∈ words, w < 2 ^ bits) :
    decode o (encode words bits) words.length bits = .ok words := by
  obtain ⟨fields, hfields, -, htake⟩ := take_fields hpos hle hlt
  rw [decode, packedLen_ok o hfit, ok_bind, if_neg (not_not.mpr (length_encode words bits)), encode,
    hfields, ok_bind, htake]
  exact if_neg (not_not.mpr rfl)

/-- **What is decoded is canonical**: it fits the width and encodes to the same bytes. -/
theorem decode_ok {o : Overflow} {bytes : List UInt8} {n bits : ℕ} (hfit : n * bits < 2 ^ 64)
    {words : List ℕ} (h : decode o bytes n bits = .ok words) :
    words.length = n ∧ (∀ w ∈ words, w < 2 ^ bits) ∧ encode words bits = bytes := by
  rw [decode, packedLen_ok o hfit, ok_bind] at h
  split at h
  · cases h
  rename_i hlen
  obtain ⟨fields, hfields, h⟩ := bind_eq_ok h
  have hcanonical : encode (fields.take n) bits = bytes ∧ fields.take n = words := by
    dsimp only at h
    split at h
    · cases h
    · rename_i heq
      exact ⟨not_not.mp heq, Except.ok.inj h⟩
  obtain ⟨hencode, rfl⟩ := hcanonical
  -- the width is positive and, if there is a field, at most 64
  have hpos : 0 < bits := by
    by_contra hzero
    rw [contiguousBytesToU64s, if_pos (by omega)] at hfields
    cases hfields
  have hfield : fields.length = bytes.length * 8 / bits ∧ ∀ w ∈ fields, w < 2 ^ bits := by
    by_cases hle : bits ≤ 64
    · obtain ⟨fields', hfields', hlen', hlt', -⟩ := contiguousBytesToU64s_ok bytes hpos hle
      cases Except.ok.inj (hfields.symm.trans hfields')
      exact ⟨hlen', hlt'⟩
    · rw [contiguousBytesToU64s, if_neg hpos.ne'] at hfields
      have hall := forall₂_of_mapM_eq_ok hfields
      have hnone : List.range (bytes.length * 8 / bits) = [] := by
        by_contra hne
        obtain ⟨i, l, hl⟩ := List.exists_cons_of_ne_nil hne
        rw [hl] at hall
        obtain ⟨w, rest, hw, -, -⟩ := List.forall₂_cons_left_iff.mp hall
        rw [readBits, if_pos (fun hrange => hle hrange.2)] at hw
        cases hw
      rw [hnone] at hall
      obtain rfl := List.forall₂_nil_left_iff.mp hall
      exact ⟨(List.range_eq_nil.mp hnone).symm, fun w hw => absurd hw List.not_mem_nil⟩
  have hn : n ≤ fields.length := by
    rw [hfield.1, not_not.mp hlen]
    exact le_fields n hpos
  refine ⟨by rw [List.length_take, min_eq_left hn], fun w hw => ?_, hencode⟩
  exact hfield.2 w (List.mem_of_mem_take hw)

/-- At a usable width a payload is decoded or refused. -/
theorem decode_ok_or_isErr (o : Overflow) (bytes : List UInt8) {n bits : ℕ} (hpos : 0 < bits)
    (hle : bits ≤ 64) (hfit : n * bits < 2 ^ 64) :
    (∃ words, decode o bytes n bits = .ok words) ∨ IsErr (decode o bytes n bits) := by
  obtain ⟨fields, hfields, -⟩ := contiguousBytesToU64s_ok bytes hpos hle
  rw [decode, packedLen_ok o hfit, ok_bind]
  split
  · exact Or.inr (isErr_invalidParams _)
  · rw [hfields, ok_bind]
    dsimp only
    split
    · exact Or.inr (isErr_invalidParams _)
    · exact Or.inl ⟨_, rfl⟩

/-- Both builds decode alike while they can count the bits. -/
theorem decode_congr (o o' : Overflow) (bytes : List UInt8) {n bits : ℕ}
    (hfit : n * bits < 2 ^ 64) : decode o bytes n bits = decode o' bytes n bits := by
  rw [decode, decode, packedLen_ok o hfit, packedLen_ok o' hfit]

/-- A string that encodes no words is refused. -/
theorem isErr_decode (o : Overflow) {bytes : List UInt8} {n bits : ℕ} (hpos : 0 < bits)
    (hle : bits ≤ 64) (hfit : n * bits < 2 ^ 64)
    (h : ∀ words, words.length = n → bytes ≠ encode words bits) :
    IsErr (decode o bytes n bits) := by
  rcases decode_ok_or_isErr o bytes hpos hle hfit with ⟨words, hwords⟩ | herr
  · obtain ⟨hlen, -, hencode⟩ := decode_ok hfit hwords
    exact absurd hencode.symm (h words hlen)
  · exact herr

/-- The padding of an encoding is zero. -/
theorem streamBit_padding (words : List ℕ) {bits k : ℕ} (hk : words.length * bits ≤ k) :
    streamBit (encode words bits) k = false := by
  have hstream := u64sToContiguousBytes_holds words bits k
  rwa [decide_eq_false (not_lt.mpr hk), Bool.false_and] at hstream

/-- **The codec accepts exactly the canonical encodings, exactly while it can count their bits.**
At every width and every count, in either build: a string is decoded to the words that it encodes
canonically and to nothing else, a string of another length is refused, and so is one with a bit set
in its padding, if and only if the bits of all fields are fewer than `2^64`. -/
theorem decode_canonical_iff {bits : ℕ} (hpos : 1 ≤ bits) (hle : bits ≤ 64) (n : ℕ)
    (o : Overflow) :
    (∀ bytes : List UInt8,
      (∀ words, decode o bytes n bits = .ok words ↔
        words.length = n ∧ (∀ w ∈ words, w < 2 ^ bits) ∧ bytes = encode words bits) ∧
      (bytes.length ≠ fieldBytes n bits → IsErr (decode o bytes n bits)) ∧
      ∀ k, n * bits ≤ k → streamBit bytes k = true → IsErr (decode o bytes n bits)) ↔
    n * bits < 2 ^ 64 := by
  constructor
  · intro hall
    by_contra hlarge
    -- the encoding of zeros has a length that the reader does not expect
    have hzeros : decode o (encode (List.replicate n 0) bits) n bits =
        .ok (List.replicate n 0) := by
      refine ((hall _).1 _).mpr ⟨List.length_replicate, fun w hw => ?_, rfl⟩
      rw [List.eq_of_mem_replicate hw]
      exact Nat.two_pow_pos bits
    obtain ⟨len, hlen, hrest⟩ := bind_eq_ok hzeros
    split at hrest
    · cases hrest
    · rename_i hcheck
      rw [not_not, length_encode, List.length_replicate] at hcheck
      exact packedLen_ne o (not_lt.mp hlarge) (hcheck ▸ hlen)
  · intro hfit bytes
    refine ⟨fun words => ⟨fun h => ?_, ?_⟩, fun hlen => ?_, fun k hk hbit => ?_⟩
    · obtain ⟨hlen, hlt, hencode⟩ := decode_ok hfit h
      exact ⟨hlen, hlt, hencode.symm⟩
    · rintro ⟨rfl, hlt, rfl⟩
      exact decode_encode o hpos hle hfit hlt
    · refine isErr_decode o hpos hle hfit fun words hwords hbytes => hlen ?_
      rw [hbytes, length_encode, hwords]
    · refine isErr_decode o hpos hle hfit fun words hwords hbytes => ?_
      rw [hbytes, streamBit_padding words (hwords ▸ hk)] at hbit
      cases hbit

/-- A padding bit of three fields of five bits, and a count at which the bits wrap to none. -/
theorem decode_canonical_iff_five :
    (∀ o, IsErr (decode o [0b11110111, 0b10000000] 3 5)) ∧
      ∀ o, ¬∀ bytes : List UInt8,
        (∀ words, decode o bytes (2 ^ 58) 64 = .ok words ↔
          words.length = 2 ^ 58 ∧ (∀ w ∈ words, w < 2 ^ 64) ∧ bytes = encode words 64) ∧
        (bytes.length ≠ fieldBytes (2 ^ 58) 64 → IsErr (decode o bytes (2 ^ 58) 64)) ∧
        ∀ k, 2 ^ 58 * 64 ≤ k → streamBit bytes k = true → IsErr (decode o bytes (2 ^ 58) 64) := by
  refine ⟨fun o => ?_, fun o hall => ?_⟩
  · have hfive := (decode_canonical_iff (by decide : 1 ≤ 5) (by decide) 3 o).mpr (by decide)
    exact (hfive [0b11110111, 0b10000000]).2.2 15 (by decide) (by decide)
  · exact absurd ((decode_canonical_iff (by decide) le_rfl (2 ^ 58) o).mp hall) (by decide)

/-- **No bytes for `2^58` words**: a release build decodes them to no words, a checked one
panics. -/
theorem decode_no_bytes :
    ([] : List UInt8).length ≠ fieldBytes (2 ^ 58) 64 ∧ decode .wraps [] (2 ^ 58) 64 = .ok [] ∧
      decode .traps [] (2 ^ 58) 64 = .error (.panic "attempt to multiply with overflow") :=
  ⟨by decide, rfl, rfl⟩

/-! ## Rounding -/

theorem trailingZeros_two_pow {k : ℕ} (hk : k < 64) : trailingZeros (2 ^ k) = k := by
  have hfind : (List.range 64).find? (2 ^ k).testBit = some k := by
    rw [List.find?_range_eq_some]
    refine ⟨Nat.testBit_two_pow_self, List.mem_range.mpr hk, fun j hj => ?_⟩
    rw [Nat.testBit_two_pow_of_ne (by omega)]
    rfl
  rw [trailingZeros, hfind, Option.getD_some]

section Rounding

variable {k bits : ℕ}

/-- The multiple of the step that a rounded word stands for. -/
theorem up_word (hk : k < 64) (hbits : bits ≤ k) {y : ℕ} (hy : y < 2 ^ bits) :
    y <<< (trailingZeros (2 ^ k) - bits) % W64 = y * 2 ^ (k - bits) := by
  rw [trailingZeros_two_pow hk, Nat.shiftLeft_eq]
  refine Nat.mod_eq_of_lt ?_
  calc y * 2 ^ (k - bits) < 2 ^ bits * 2 ^ (k - bits) :=
        Nat.mul_lt_mul_of_pos_right hy (Nat.two_pow_pos _)
    _ = 2 ^ k := by rw [← pow_add, Nat.add_sub_cancel' hbits]
    _ ≤ 2 ^ 64 := Nat.pow_le_pow_right two_pos hk.le

/-- **Rounding down and up** is the plain rounding. -/
theorem up_down (hk : k < 64) (hbits : bits ≤ k) {words : List ℕ} (hlt : ∀ x ∈ words, x < 2 ^ k) :
    up (down words (2 ^ k) bits) (2 ^ k) bits =
      words.map (nearest (2 ^ (k - bits)) (2 ^ bits)) := by
  rw [up, down, List.map_map, List.map_inj_left]
  intro x hx
  dsimp only [Function.comp]
  rw [trailingZeros_two_pow hk]
  by_cases hshift : k - bits = 0
  · have heq : bits = k := by omega
    subst heq
    have hx' := hlt x hx
    have hword := up_word hk le_rfl hx'
    rw [trailingZeros_two_pow hk] at hword
    rw [if_pos hshift, hword, nearest, hshift, pow_zero, Nat.div_one, Nat.mod_eq_of_lt (by simpa)]
    simp
  · have hhalf : 2 ^ (k - bits) / 2 = 2 ^ (k - bits - 1) := by
      obtain ⟨m, hm⟩ := Nat.exists_eq_succ_of_ne_zero hshift
      rw [hm, pow_succ, Nat.mul_div_cancel _ two_pos, Nat.succ_sub_one]
    have hword := up_word hk hbits (Nat.mod_lt ((x + 2 ^ (k - bits - 1)) >>> (k - bits))
      (Nat.two_pow_pos bits))
    rw [trailingZeros_two_pow hk] at hword
    rw [if_neg hshift, Nat.and_two_pow_sub_one_eq_mod, hword, nearest, hhalf,
      Nat.shiftRight_eq_div_pow]

/-- **Rounding up and down** changes nothing: what a field stands for rounds to the field. -/
theorem down_up (hk : k < 64) (hbits : bits ≤ k) {words : List ℕ}
    (hlt : ∀ y ∈ words, y < 2 ^ bits) : down (up words (2 ^ k) bits) (2 ^ k) bits = words := by
  rw [up, down, List.map_map]
  refine (List.map_congr_left fun y hy => ?_).trans (List.map_id _)
  dsimp only [Function.comp, id]
  rw [up_word hk hbits (hlt y hy), trailingZeros_two_pow hk]
  by_cases hshift : k - bits = 0
  · rw [if_pos hshift, hshift, pow_zero, mul_one]
  · have hstep : 0 < 2 ^ (k - bits) := Nat.two_pow_pos _
    have hhalf : 2 ^ (k - bits - 1) < 2 ^ (k - bits) :=
      Nat.pow_lt_pow_right one_lt_two (by omega)
    rw [if_neg hshift, Nat.shiftRight_eq_div_pow, Nat.and_two_pow_sub_one_eq_mod,
      add_comm, Nat.add_mul_div_right _ _ hstep, Nat.div_eq_of_lt hhalf, zero_add,
      Nat.mod_eq_of_lt (hlt y hy)]

theorem down_lt (hk : k < 64) {words : List ℕ} (hlt : ∀ x ∈ words, x < 2 ^ k) :
    ∀ y ∈ down words (2 ^ k) bits, y < 2 ^ bits := by
  intro y hy
  obtain ⟨x, hx, rfl⟩ := List.mem_map.mp hy
  rw [trailingZeros_two_pow hk]
  split
  · rename_i hshift
    exact (hlt x hx).trans_le (Nat.pow_le_pow_right two_pos (by omega))
  · rw [Nat.and_two_pow_sub_one_eq_mod]
    exact Nat.mod_lt _ (Nat.two_pow_pos bits)

@[simp] theorem length_down (words : List ℕ) (q bits : ℕ) :
    (down words q bits).length = words.length := List.length_map _

@[simp] theorem length_up (words : List ℕ) (q bits : ℕ) : (up words q bits).length = words.length :=
  List.length_map _

/-- The words of a generator, in order. -/
def drawWords {R : Type} (gen : Generator R) : ℕ → R → List ℕ
  | 0, _ => []
  | n + 1, rng => (gen.nextU64 rng).1 :: drawWords gen n (gen.nextU64 rng).2

@[simp] theorem length_drawWords {R : Type} (gen : Generator R) (n : ℕ) (rng : R) :
    (drawWords gen n rng).length = n := by
  induction n generalizing rng with
  | zero => rfl
  | succ n ih => rw [drawWords, List.length_cons, ih]

@[simp] theorem length_downDithered {R : Type} (gen : Generator R) (q bits : ℕ) (words : List ℕ)
    (rng : R) : (downDithered gen q bits words rng).1.length = words.length := by
  induction words generalizing rng with
  | nil => rfl
  | cons x words ih => rw [downDithered, List.length_cons, ih, List.length_cons]

theorem downDithered_lt {R : Type} (gen : Generator R) (q bits : ℕ) (words : List ℕ) (rng : R) :
    ∀ y ∈ (downDithered gen q bits words rng).1, y < 2 ^ bits := by
  induction words generalizing rng with
  | nil => exact fun y hy => absurd hy List.not_mem_nil
  | cons x words ih =>
      rw [downDithered, List.forall_mem_cons]
      refine ⟨?_, ih _⟩
      rw [Nat.and_two_pow_sub_one_eq_mod]
      exact Nat.mod_lt _ (Nat.two_pow_pos bits)

/-- **Dithering down and up** is the dithered rounding, with the low bits of the next word of the
generator as the coin. -/
theorem up_downDithered {R : Type} (gen : Generator R) (hk : k < 64) (hbits : bits ≤ k)
    (words : List ℕ) (rng : R) :
    up (downDithered gen (2 ^ k) bits words rng).1 (2 ^ k) bits =
      List.zipWith (fun word x => dithered (2 ^ (k - bits)) (2 ^ bits) (word % 2 ^ (k - bits)) x)
        (drawWords gen words.length rng) words := by
  induction words generalizing rng with
  | nil => rfl
  | cons x words ih =>
      have hrest := ih (gen.nextU64 rng).2
      rw [up] at hrest ⊢
      rw [downDithered, List.length_cons, drawWords, List.zipWith_cons_cons, List.map_cons, hrest]
      congr 1
      rw [Nat.and_two_pow_sub_one_eq_mod _ bits,
        up_word hk hbits (Nat.mod_lt _ (Nat.two_pow_pos _)),
        trailingZeros_two_pow hk, Nat.and_two_pow_sub_one_eq_mod, Nat.and_two_pow_sub_one_eq_mod,
        Nat.shiftRight_eq_div_pow, dithered]

end Rounding

/-! ## Canonical words -/

section Canonical

variable {d q : ℕ}

theorem trailingZeros_eq (P : NativeParams d q) : trailingZeros q = P.qBits := by
  have hbits := P.qBits_le
  conv_lhs => rw [P.q_eq]
  exact trailingZeros_two_pow (by omega)

/-- Up to `2^32` fields can be counted at every width. -/
theorem fields_fit {n bits : ℕ} (hn : n ≤ 2 ^ 32) (hbits : bits ≤ 64) : n * bits < 2 ^ 64 :=
  (Nat.mul_le_mul hn hbits).trans_lt (by norm_num)

/-- A field of canonical words is decoded. -/
theorem decode_words (P : NativeParams d q) (o : Overflow) {words : List ℕ}
    (hlen : words.length ≤ 2 ^ 32) (hwords : ∀ x ∈ words, x < q) :
    decode o (encode words (trailingZeros q)) words.length (trailingZeros q) = .ok words := by
  have hbits := P.qBits_le
  have hbits' := P.qBits_ge
  rw [trailingZeros_eq P]
  exact decode_encode o (by omega) (by omega) (fields_fit hlen (by omega)) (by rwa [← P.q_eq])

theorem down_words_lt (P : NativeParams d q) {bits : ℕ} {words : List ℕ}
    (hwords : ∀ x ∈ words, x < q) : ∀ y ∈ down words q bits, y < 2 ^ bits := by
  have hbits := P.qBits_le
  rw [P.q_eq] at hwords ⊢
  exact down_lt (by omega) hwords

/-- A rounded field is decoded and scaled up. -/
theorem up_decode_down (P : NativeParams d q) (o : Overflow) {bits : ℕ} (hpos : 0 < bits)
    (hle : bits ≤ P.qBits) {words : List ℕ} (hlen : words.length ≤ 2 ^ 32)
    (hwords : ∀ x ∈ words, x < q) :
    decode o (encode (down words q bits) bits) words.length bits = .ok (down words q bits) ∧
      up (down words q bits) q bits =
        words.map (nearest (2 ^ (P.qBits - bits)) (2 ^ bits)) := by
  have hbits := P.qBits_le
  constructor
  · have hfit : (down words q bits).length * bits < 2 ^ 64 := by
      rw [length_down]
      exact fields_fit hlen (by omega)
    have hdecode := decode_encode o hpos (by omega) hfit (down_words_lt P hwords)
    rwa [length_down] at hdecode
  · rw [P.q_eq] at hwords
    conv_lhs => rw [P.q_eq]
    exact up_down (by omega) hle hwords

theorem down_up_words (P : NativeParams d q) {bits : ℕ} (hle : bits ≤ P.qBits) {words : List ℕ}
    (hlt : ∀ y ∈ words, y < 2 ^ bits) : down (up words q bits) q bits = words := by
  have hbits := P.qBits_le
  have hfixed := down_up (k := P.qBits) (by omega) hle hlt
  rwa [← P.q_eq] at hfixed

theorem levels_mul_step (P : NativeParams d q) {bits : ℕ} (hle : bits ≤ P.qBits) :
    2 ^ bits * 2 ^ (P.qBits - bits) = q := by
  rw [← pow_add, Nat.add_sub_cancel' hle, ← P.q_eq]

/-- What a field scales up to is canonical. -/
theorem up_lt (P : NativeParams d q) {bits : ℕ} (hle : bits ≤ P.qBits) {words : List ℕ}
    (hlt : ∀ y ∈ words, y < 2 ^ bits) : ∀ x ∈ up words q bits, x < q := by
  have hbits := P.qBits_le
  intro x hx
  obtain ⟨y, hy, rfl⟩ := List.mem_map.mp hx
  have hword := up_word (k := P.qBits) (by omega) hle (hlt y hy)
  rw [← P.q_eq] at hword
  rw [hword]
  calc y * 2 ^ (P.qBits - bits) < 2 ^ bits * 2 ^ (P.qBits - bits) :=
        Nat.mul_lt_mul_of_pos_right (hlt y hy) (Nat.two_pow_pos _)
    _ = q := levels_mul_step P hle

end Canonical

end NativeClient
