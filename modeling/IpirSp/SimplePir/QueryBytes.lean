import IpirSp.Rounding.Moduli
import IpirSp.SimplePir.Serialize

/-!
# The bytes of a query

A query travels in one of two ways.  The packed query keeps the width of the modulus.  The switched
query is rounded to a power of two, which may carry the largest residues around to zero, and the
server lifts it back.  `fromSwitchedBytes_toSwitchedBytes` bounds what a round trip moves.

Both decoders unpack as many fields as the bytes hold.  The switched one drops what is past the
expected count, the packed one refuses it: `fromPackedBytes_toPackedBytes_iff` says when the padding
of the last byte is taken for one more coefficient.
-/

namespace SimplePir

open Inspiring Loops NativeClient Rounding

/-- `query_coeff_up`. -/
def queryCoeffUp (coeff q bits : ℕ) : ℕ :=
  if bits ≥ modulusBits q then coeff
  else
    let numerator := coeff * q + 2 ^ (bits - 1)
    let lifted := (numerator >>> bits) % 2 ^ 64
    if lifted ≥ q then lifted - q else lifted

/-- `to_packed_bytes`. -/
def IPIRSimpleQuery.toPackedBytes (query : IPIRSimpleQuery) (modulus : ℕ) : List UInt8 :=
  u64sToContiguousBytes query.firstDim (modulusBits modulus)

/-- `from_packed_bytes`. -/
def IPIRSimpleQuery.fromPackedBytes (data : List UInt8) (coeffCount modulus : ℕ) :
    Outcome IPIRSimpleQuery :=
  let bits := modulusBits modulus
  let expectedLen := (coeffCount * bits + 7) / 8
  if data.length ≠ expectedLen then
    mismatch (s!"packed query must be {expectedLen} bytes for {coeffCount} coefficients and " ++
      s!"{bits}-bit modulus, got {data.length}")
  else do
    let coeffs ← unpackFields data bits
    if coeffs.length ≠ coeffCount then
      mismatch s!"packed query decoded to {coeffs.length} coefficients, expected {coeffCount}"
    else .ok ⟨coeffs⟩

/-- `from_switched_bytes`. -/
def IPIRSimpleQuery.fromSwitchedBytes (data : List UInt8) (coeffCount modulus bits : ℕ) :
    Outcome IPIRSimpleQuery :=
  let expectedLen := (coeffCount * bits + 7) / 8
  if data.length ≠ expectedLen then
    mismatch (s!"switched query must be {expectedLen} bytes for {coeffCount} coefficients at " ++
      s!"{bits} bits, got {data.length}")
  else do
    let fields ← unpackFields data bits
    let coeffs := fields.take coeffCount
    if coeffs.length ≠ coeffCount then
      mismatch s!"switched query decoded to {coeffs.length} coefficients, expected {coeffCount}"
    else .ok ⟨coeffs.map fun coeff => queryCoeffUp coeff modulus bits⟩

/-! ## One coefficient -/

section Coefficient

variable {q bits : ℕ}

/-- A width below the full one is a modulus below `q`. -/
theorem two_pow_lt_of_lt_modulusBits (h : bits < modulusBits q) : 2 ^ bits < q := by
  have hle : 2 ^ bits ≤ q - 1 := Nat.lt_size.mp h
  have hpos := Nat.two_pow_pos bits
  omega

/-- Rounding down carries to the nearest residue modulo `2 ^ bits`. -/
theorem queryCoeffDown_eq_carry (h : bits < modulusBits q) (v : ℕ) :
    queryCoeffDown v q bits = carry q (2 ^ bits) v := by
  rw [queryCoeffDown, if_neg (not_le.mpr h), carry]
  exact Nat.and_two_pow_sub_one_eq_mod _ _

theorem queryCoeffDown_lt {v : ℕ} (hv : v < q) (hfull : bits ≤ modulusBits q) :
    queryCoeffDown v q bits < 2 ^ bits := by
  rcases hfull.eq_or_lt with rfl | h
  · rw [queryCoeffDown, if_pos le_rfl]
    exact lt_two_pow_modulusBits hv
  · rw [queryCoeffDown_eq_carry h]
    exact carry_lt (Nat.two_pow_pos bits) q v

/-- Lifting carries to the nearest residue modulo `q`. -/
theorem queryCoeffUp_eq_carry (h : bits < modulusBits q) (hq : q < 2 ^ 64) (hpos : 0 < bits) {w : ℕ}
    (hw : w < 2 ^ bits) : queryCoeffUp w q bits = carry (2 ^ bits) q w := by
  have hpow := two_pow_lt_of_lt_modulusBits h
  have hhalf : 2 ^ bits / 2 = 2 ^ (bits - 1) := by
    obtain ⟨k, rfl⟩ := Nat.exists_eq_add_of_lt hpos
    rw [pow_succ, Nat.mul_div_cancel _ two_pos]
    rfl
  -- at most `q` itself comes out of the shift
  have hle : (w * q + 2 ^ (bits - 1)) / 2 ^ bits ≤ q := by
    rw [Nat.div_le_iff_le_mul_add_pred (Nat.two_pow_pos bits)]
    have hmul : w * q ≤ 2 ^ bits * q - q := by
      rw [← Nat.sub_one_mul]
      exact Nat.mul_le_mul_right q (by omega)
    have hfit : q ≤ 2 ^ bits * q := Nat.le_mul_of_pos_left q (Nat.two_pow_pos bits)
    omega
  rw [queryCoeffUp, if_neg (not_le.mpr h), carry, hhalf]
  dsimp only
  rw [Nat.shiftRight_eq_div_pow, Nat.mod_eq_of_lt (hle.trans_lt hq)]
  split
  · rename_i htop
    rw [le_antisymm hle htop, Nat.sub_self, Nat.mod_self]
  · rename_i htop
    rw [Nat.mod_eq_of_lt (not_le.mp htop)]

/-- **One coefficient there and back.** -/
theorem queryCoeffUp_queryCoeffDown (hq : q < 2 ^ 64) (hpos : 0 < bits) {v : ℕ} (hv : v < q) :
    queryCoeffUp (queryCoeffDown v q bits) q bits < q ∧
      2 ^ (bits + 1) * |cyclicError q v (queryCoeffUp (queryCoeffDown v q bits) q bits)| ≤
        q + 2 ^ bits ∧
      (modulusBits q ≤ bits → queryCoeffUp (queryCoeffDown v q bits) q bits = v) := by
  rcases le_or_gt (modulusBits q) bits with hfull | h
  · have hid : queryCoeffUp (queryCoeffDown v q bits) q bits = v := by
      rw [queryCoeffDown, if_pos hfull, queryCoeffUp, if_pos hfull]
    refine ⟨by rwa [hid], ?_, fun _ => hid⟩
    rw [hid, cyclicError, sub_self, Int.zero_bmod, abs_zero, mul_zero]
    positivity
  · have hqpos : 0 < q := by omega
    have hdown := queryCoeffDown_eq_carry h v
    have hup := queryCoeffUp_eq_carry h hq hpos (queryCoeffDown_lt hv h.le)
    rw [hup, hdown]
    refine ⟨carry_lt hqpos _ _, ?_, fun hfull => absurd hfull (not_le.mpr h)⟩
    have hround := two_mul_abs_cyclicError_le (Nat.two_pow_pos bits)
      (two_mul_abs_scaledError_carry hqpos (2 ^ bits) v)
      (two_mul_abs_scaledError_carry (Nat.two_pow_pos bits) q (carry q (2 ^ bits) v))
    rw [pow_succ']
    exact_mod_cast hround

end Coefficient

/-! ## Queries -/

/-- The fields of a payload of the right length. -/
theorem unpackFields_written {words : List ℕ} {bits : ℕ} (hpos : 0 < bits) (hle : bits ≤ 64)
    (hlt : ∀ w ∈ words, w < 2 ^ bits) :
    ∃ fields, unpackFields (u64sToContiguousBytes words bits) bits = .ok fields ∧
      fields.length = (words.length * bits + 7) / 8 * 8 / bits ∧
      fields.take words.length = words := by
  obtain ⟨fields, hfields, -, htake⟩ := take_fields hpos hle hlt
  obtain ⟨fields', hfields', hlen, -⟩ :=
    contiguousBytesToU64s_ok (u64sToContiguousBytes words bits) hpos hle
  obtain rfl := Except.ok.inj (hfields.symm.trans hfields')
  rw [length_u64sToContiguousBytes] at hlen
  refine ⟨fields, ?_, hlen, htake⟩
  rw [unpackFields, hfields]

/-- The padding holds no further field exactly if it is shorter than one. -/
theorem fields_eq_iff (n : ℕ) {bits : ℕ} (hpos : 0 < bits) :
    (n * bits + 7) / 8 * 8 / bits = n ↔ (n * bits + 7) / 8 * 8 - n * bits < bits := by
  have hle : n * bits ≤ (n * bits + 7) / 8 * 8 := by omega
  rw [Nat.div_eq_iff hpos]
  constructor
  · rintro ⟨-, hlt⟩
    omega
  · intro hlt
    exact ⟨hle, by omega⟩

/-- **The packed query is read back exactly if the padding of its last byte is shorter than a
coefficient.** -/
theorem fromPackedBytes_toPackedBytes_iff (modulus : ℕ) (hone : 1 < modulus)
    (hlt : modulus < 2 ^ 64) (query : IPIRSimpleQuery)
    (hres : ∀ x ∈ query.firstDim, x < modulus) :
    IPIRSimpleQuery.fromPackedBytes (query.toPackedBytes modulus) query.firstDim.length modulus =
        .ok query ↔
      (query.firstDim.length * modulusBits modulus + 7) / 8 * 8 -
        query.firstDim.length * modulusBits modulus < modulusBits modulus := by
  have hpos := modulusBits_pos_of_lt hone
  obtain ⟨fields, hfields, hcount, htake⟩ := unpackFields_written hpos (modulusBits_le_of_lt hlt)
    fun w hw => lt_two_pow_modulusBits (hres w hw)
  rw [← fields_eq_iff _ hpos, ← hcount, IPIRSimpleQuery.fromPackedBytes,
    IPIRSimpleQuery.toPackedBytes, if_neg (not_not.mpr (length_u64sToContiguousBytes _ _)), hfields,
    ok_bind]
  constructor
  · intro h
    by_contra hne
    rw [if_pos hne] at h
    cases h
  · intro heq
    rw [← heq, List.take_length] at htake
    rw [if_neg (not_not.mpr heq), htake]

/-- A residue modulo 257 takes two bytes and its padding seven bits. -/
theorem packed_257 : IPIRSimpleQuery.fromPackedBytes
    (IPIRSimpleQuery.toPackedBytes ⟨[256]⟩ 257) 1 257 = .ok ⟨[256]⟩ :=
  (fromPackedBytes_toPackedBytes_iff 257 (by decide) (by decide) ⟨[256]⟩ (by decide)).mpr
    (by decide)

/-- A residue modulo two takes one byte, which is unpacked to eight coefficients. -/
theorem packed_bit_is_refused : (∀ x ∈ [1], x < 2) ∧
    IPIRSimpleQuery.fromPackedBytes (IPIRSimpleQuery.toPackedBytes ⟨[1]⟩ 2) 1 2 =
      mismatch "packed query decoded to 8 coefficients, expected 1" :=
  ⟨by decide, by rfl⟩

/-- A coefficient of the query as the server reads it. -/
def switched (q bits coeff : ℕ) : ℕ := queryCoeffUp (queryCoeffDown coeff q bits) q bits

/-- **The server reads every coefficient as it was switched.** -/
theorem fromSwitchedBytes_written {q bits : ℕ} (hq : q < 2 ^ 64) (hpos : 1 ≤ bits)
    (hfull : bits ≤ modulusBits q) {query : IPIRSimpleQuery} (hres : ∀ x ∈ query.firstDim, x < q) :
    IPIRSimpleQuery.fromSwitchedBytes (query.toSwitchedBytes q bits) query.firstDim.length q bits =
      .ok ⟨query.firstDim.map (switched q bits)⟩ := by
  have hdown : ∀ w ∈ query.firstDim.map fun coeff => queryCoeffDown coeff q bits,
      w < 2 ^ bits := by
    intro w hw
    obtain ⟨v, hv, rfl⟩ := List.mem_map.mp hw
    exact queryCoeffDown_lt (hres v hv) hfull
  obtain ⟨fields, hfields, -, htake⟩ :=
    unpackFields_written hpos (hfull.trans (modulusBits_le_of_lt hq)) hdown
  rw [List.length_map] at htake
  have hlen : (query.toSwitchedBytes q bits).length =
      (query.firstDim.length * bits + 7) / 8 := by
    rw [IPIRSimpleQuery.toSwitchedBytes, length_u64sToContiguousBytes, List.length_map]
  rw [IPIRSimpleQuery.fromSwitchedBytes, if_neg (not_not.mpr hlen),
    IPIRSimpleQuery.toSwitchedBytes, hfields, ok_bind, htake]
  dsimp only
  rw [List.length_map, if_neg (not_not.mpr rfl), List.map_map]
  rfl

/-- **The switched query** is read back with every coefficient close to the one that was written,
and at the full width it is the query that was written. -/
theorem fromSwitchedBytes_toSwitchedBytes (q bits : ℕ) (hq : q < 2 ^ 64) (hpos : 1 ≤ bits)
    (hfull : bits ≤ modulusBits q) (query : IPIRSimpleQuery) (hres : ∀ x ∈ query.firstDim, x < q) :
    ∃ query', IPIRSimpleQuery.fromSwitchedBytes (query.toSwitchedBytes q bits)
        query.firstDim.length q bits = .ok query' ∧
      query'.firstDim.length = query.firstDim.length ∧
      (∀ x ∈ query'.firstDim, x < q) ∧
      List.Forall₂ (fun v v' => 2 ^ (bits + 1) * |cyclicError q v v'| ≤ q + 2 ^ bits)
        query.firstDim query'.firstDim ∧
      (bits = modulusBits q → query' = query) := by
  refine ⟨_, fromSwitchedBytes_written hq hpos hfull hres, List.length_map _, ?_, ?_,
    fun hbits => ?_⟩
  · intro x hx
    obtain ⟨v, hv, rfl⟩ := List.mem_map.mp hx
    exact (queryCoeffUp_queryCoeffDown hq hpos (hres v hv)).1
  · rw [List.forall₂_map_right_iff, List.forall₂_same]
    exact fun v hv => (queryCoeffUp_queryCoeffDown hq hpos (hres v hv)).2.1
  · have hid : query.firstDim.map (switched q bits) = query.firstDim.map id :=
      List.map_congr_left fun v hv =>
        (queryCoeffUp_queryCoeffDown hq hpos (hres v hv)).2.2 hbits.ge
    rw [hid, List.map_id]

/-- Modulo 97 at five bits, the largest residue is carried around to zero. -/
theorem fromSwitchedBytes_97 : queryCoeffDown 96 97 5 = 0 ∧
    ∃ query', IPIRSimpleQuery.fromSwitchedBytes
      (IPIRSimpleQuery.toSwitchedBytes ⟨[96, 1, 50]⟩ 97 5) 3 97 5 = .ok query' ∧
      List.Forall₂ (fun v v' => 2 ^ 6 * |cyclicError 97 v v'| ≤ 97 + 2 ^ 5)
        [96, 1, 50] query'.firstDim := by
  obtain ⟨query', hread, -, -, hclose, -⟩ := fromSwitchedBytes_toSwitchedBytes 97 5 (by decide)
    (by decide) (by decide) ⟨[96, 1, 50]⟩ (by decide)
  exact ⟨by decide, query', hread, by exact_mod_cast hclose⟩

end SimplePir
