import IpirSp.Inspiring.Collapse
import IpirSp.Loops.Windows
import IpirSp.Rounding.Moduli
import IpirSp.SimplePir.Serialize

/-!
# Modulus switching

A response is rounded to a smaller modulus before it is sent and back by the client.  `rescale`
centres a residue, rounds the magnitude and puts the sign back, so that on a tie it moves away from
zero; `rescale_isNearestResidue` holds for any two moduli whose words fit a signed machine word.

The serialisers write fields one after the other from the lowest bit up.  `writeRow_bits` says which
bits a row of fields sets and `readRow_ok` which fields a row of reads returns.  Rows of two widths
share the byte in which they meet.
-/

namespace SimplePir

open Inspiring Reinspiring SpiralRs Codec Loops NativeClient Rounding

/-- `as i64`. -/
def asI64 (x : ℤ) : ℤ := x.bmod (2 ^ 64)

/-- `rescale`, for moduli that are not zero. -/
def rescale (value qIn qOut : ℕ) : ℕ :=
  let qInI64 := asI64 qIn
  let centered := asI64 (value % qIn : ℕ)
  let centered := if centered ≥ qInI64.tdiv 2 then asI64 (centered - qInI64) else centered
  let sign : ℤ := if centered ≥ 0 then 1 else -1
  let numerator := centered * qOut + sign * qInI64.tdiv 2
  let result := numerator.tdiv qIn
  let result := (result + (qIn / qOut * qOut : ℕ) + 2 * qOut).tmod qOut
  ((result + qOut).tmod qOut).toNat

/-- The loop that writes a row of fields, with the offset that it leaves. -/
def writeRow (bits : ℕ) (fields : List ℕ) (out : List UInt8 × ℕ) : List UInt8 × ℕ :=
  fields.foldl (fun (out, bitOffs) field => (writeBits out field bitOffs bits, bitOffs + bits)) out

/-- The loop that reads a row of fields, with the offset that it leaves. -/
def readRow (data : List UInt8) (bits : ℕ) : ℕ → ℕ → Result (List ℕ × ℕ)
  | 0, bitOffs => .ok ([], bitOffs)
  | count + 1, bitOffs => do
      let field ← readBits data bitOffs bits
      let (fields, bitOffs) ← readRow data bits count (bitOffs + bits)
      .ok (field :: fields, bitOffs)

/-- `switch_coeffs_single_crt`. -/
def switchCoeffsSingleCrt (coeffs : List ℕ) (qIn qOut : ℕ) : List UInt8 :=
  let bits := modulusBits qOut
  let out := List.replicate ((coeffs.length * bits + 7) / 8) 0
  (writeRow bits (coeffs.map fun coeff => rescale coeff qIn qOut) (out, 0)).1

/-- `recover_coeffs_single_crt`. -/
def recoverCoeffsSingleCrt (ciphertext : List UInt8) (coeffCount qIn qOut : ℕ) :
    Result (List ℕ) :=
  let bits := modulusBits qIn
  let expectedLen := (coeffCount * bits + 7) / 8
  if ciphertext.length ≠ expectedLen then
    .error (.panic "single-CRT ciphertext length mismatch")
  else do
    let (switched, _) ← readRow ciphertext bits coeffCount 0
    .ok (switched.map fun coeff => rescale coeff qIn qOut)

/-- `switched_rlwe_response_len`. -/
def switchedRlweResponseLen (degree qPrime1 qPrime2 : ℕ) : ℕ :=
  let totalBits := degree * (modulusBits qPrime2 + modulusBits qPrime1)
  (totalBits + 7) / 8

/-- `switch_rlwe_rows`. -/
def switchRlweRows (row0 row1 : List ℕ) (qIn qPrime1 qPrime2 : ℕ) : Result (List UInt8) :=
  if row0.length ≠ row1.length then .error (.panic "RLWE rows must have same degree")
  else
    let out := List.replicate (switchedRlweResponseLen row0.length qPrime1 qPrime2) 0
    let written := writeRow (modulusBits qPrime2)
      (row0.map fun coeff => rescale coeff qIn qPrime2) (out, 0)
    .ok (writeRow (modulusBits qPrime1)
      (row1.map fun coeff => rescale coeff qIn qPrime1) written).1

/-- `recover_rlwe_rows`. -/
def recoverRlweRows (ciphertext : List UInt8) (degree qPrime1 qPrime2 qOut : ℕ) :
    Result (List ℕ × List ℕ) :=
  if ciphertext.length ≠ switchedRlweResponseLen degree qPrime1 qPrime2 then
    .error (.panic "serialized RLWE response length mismatch")
  else do
    let (row0, bitOffs) ← readRow ciphertext (modulusBits qPrime2) degree 0
    let (row1, _) ← readRow ciphertext (modulusBits qPrime1) degree bitOffs
    .ok (row0.map fun coeff => rescale coeff qPrime2 qOut,
      row1.map fun coeff => rescale coeff qPrime1 qOut)

/-- `response_body_len`. -/
def responseBodyLen (degree qPrime1 : ℕ) : ℕ := (degree * modulusBits qPrime1 + 7) / 8

/-- `recover_response_body`. -/
def recoverResponseBody (data : List UInt8) (degree qPrime1 qOut : ℕ) : Result (List ℕ) := do
  let row ← contiguousBytesToU64s data (modulusBits qPrime1)
  .ok ((row.take degree).map fun coeff => rescale coeff qPrime1 qOut)

section Ciphertexts

variable {P : RlweParams}

/-- `from_ntt_alloc`, as the coefficients of a row. -/
def rawRow (row : Ntt P.d P.q) : List ℕ := List.ofFn (P.spiral.fromNttAlloc row)

/-- `switch_rlwe_ciphertext`. -/
def switchRlweCiphertext (ct : RlweCiphertext P) (qPrime1 qPrime2 : ℕ) : Result (List UInt8) :=
  switchRlweRows (rawRow ct.c1) (rawRow ct.c2) P.q qPrime1 qPrime2

/-- `serialize_rlwe_response`. -/
def serializeRlweResponse (cts : List (RlweCiphertext P)) (qPrime1 qPrime2 : ℕ) :
    Result (List UInt8) := do
  let blocks ← cts.mapM fun ct => switchRlweCiphertext ct qPrime1 qPrime2
  .ok blocks.flatten

/-- `serialize_rlwe_response_bodies`. -/
def serializeRlweResponseBodies (cts : List (RlweCiphertext P)) (qPrime1 : ℕ) : List UInt8 :=
  cts.flatMap fun ct =>
    let switched := (rawRow ct.c2).map fun coeff => rescale coeff P.q qPrime1
    u64sToContiguousBytes switched (modulusBits qPrime1)

end Ciphertexts

/-! ## One coefficient -/

section Rescale

variable {a b v : ℕ}

theorem asI64_eq {x : ℤ} (hlow : -2 ^ 63 ≤ x) (hhigh : x < 2 ^ 63) : asI64 x = x :=
  Int.bmod_eq_of_le_mul_two (by norm_num; linarith) (by norm_num; linarith)

/-- The residue around zero. -/
def centered (a v : ℕ) : ℤ := if v < a / 2 then v else (v : ℤ) - a

theorem centered_modEq (a v : ℕ) : (v : ℤ) ≡ centered a v [ZMOD a] := by
  rw [centered]
  split
  · exact Int.ModEq.refl _
  · exact (Int.modEq_iff_dvd.mpr ⟨-1, by ring⟩)

/-- What `rescale` divides out: the magnitude is rounded and keeps its sign. -/
def quotient (a b v : ℕ) : ℤ :=
  (centered a v * b + (if 0 ≤ centered a v then 1 else -1) * (a / 2 : ℕ)).tdiv a

/-- The last two reductions leave the residue. -/
theorem tmod_add_tmod (hb : 0 < b) (x : ℤ) : (x.tmod b + b).tmod b = x % b := by
  have hpos : (0 : ℤ) < b := by exact_mod_cast hb
  have hlow := Int.lt_tmod_of_pos x hpos
  have hnonneg : 0 ≤ x.tmod b + b := by linarith
  rw [Int.tmod_eq_emod_of_nonneg hnonneg, Int.add_emod_right, Int.tmod_def,
    Int.sub_mul_emod_self_left]

/-- **What `rescale` computes.** -/
theorem rescale_eq (ha : a < 2 ^ 63) (hb : 0 < b) (hv : v < a) :
    (rescale v a b : ℤ) = quotient a b v % b := by
  have hnonneg (n : ℕ) : -2 ^ 63 ≤ (n : ℤ) := by linarith [Int.natCast_nonneg n]
  have hcast : asI64 (a : ℤ) = a := asI64_eq (hnonneg a) (by exact_mod_cast ha)
  have hvalue : asI64 ((v % a : ℕ) : ℤ) = v := by
    rw [Nat.mod_eq_of_lt hv]
    exact asI64_eq (hnonneg v) (by exact_mod_cast hv.trans ha)
  have hhalf : (a : ℤ).tdiv 2 = (a / 2 : ℕ) := by
    rw [Int.tdiv_eq_ediv_of_nonneg (Int.natCast_nonneg a), Int.natCast_div]
    rfl
  have hcentered : (if (v : ℤ) ≥ (a / 2 : ℕ) then asI64 ((v : ℤ) - a) else v) = centered a v := by
    rw [centered]
    by_cases hlow : v < a / 2
    · rw [if_neg (by exact_mod_cast not_le.mpr hlow), if_pos hlow]
    · rw [if_pos (by exact_mod_cast not_lt.mp hlow), if_neg hlow]
      have hv' : (v : ℤ) < a := by exact_mod_cast hv
      have ha' : (a : ℤ) < 2 ^ 63 := by exact_mod_cast ha
      exact asI64_eq (by linarith [Int.natCast_nonneg v]) (by linarith)
  have hmod (r : ℤ) : (r + (a / b * b : ℕ) + 2 * b) % b = r % b := by
    rw [Int.add_mul_emod_self_right, Nat.cast_mul, Int.add_mul_emod_self_right]
  rw [rescale, hcast, hvalue, hhalf, hcentered, tmod_add_tmod hb, hmod, Int.toNat_of_nonneg]
  · rfl
  · exact Int.emod_nonneg _ (by exact_mod_cast hb.ne')

theorem rescale_lt (ha : a < 2 ^ 63) (hb : 0 < b) (hv : v < a) : rescale v a b < b := by
  have hlt := Int.emod_lt_of_pos (quotient a b v) (by exact_mod_cast hb : (0 : ℤ) < b)
  rw [← rescale_eq ha hb hv] at hlt
  exact_mod_cast hlt

/-- A division that rounds the magnitude misses by at most half the divisor. -/
theorem two_mul_abs_mul_quotient_sub_le (ha : 0 < a) (b v : ℕ) :
    2 * |a * quotient a b v - b * centered a v| ≤ a := by
  rcases le_or_gt 0 (centered a v) with hsign | hsign
  · obtain ⟨n, hn⟩ := Int.eq_ofNat_of_zero_le hsign
    have hquotient : quotient a b v = ((n * b + a / 2) / a : ℕ) := by
      rw [quotient, if_pos hsign, hn, one_mul, Int.tdiv_eq_ediv_of_nonneg (by positivity)]
      push_cast
      rfl
    have hround := mul_roundDiv_sub a (n * b)
    rw [hquotient, hn, mul_comm (b : ℤ), ← Nat.cast_mul n b, hround]
    exact two_mul_abs_half_sub_le ha _
  · obtain ⟨n, hn⟩ := Int.eq_ofNat_of_zero_le (neg_nonneg.mpr hsign.le)
    have hneg : centered a v = -(n : ℤ) := by rw [← hn, neg_neg]
    have hquotient : quotient a b v = -((n * b + a / 2) / a : ℕ) := by
      have hnum : -(n : ℤ) * b + -1 * (a / 2 : ℕ) = -((n * b + a / 2 : ℕ) : ℤ) := by
        push_cast
        ring
      rw [quotient, if_neg (not_le.mpr hsign), hneg, hnum, Int.neg_tdiv,
        Int.tdiv_eq_ediv_of_nonneg (by positivity)]
      push_cast
      rfl
    have hround := mul_roundDiv_sub a (n * b)
    have hflip : (a : ℤ) * -((n * b + a / 2) / a : ℕ) - b * -n =
        -((a : ℤ) * ((n * b + a / 2) / a : ℕ) - (n * b : ℕ)) := by
      push_cast
      ring
    rw [hquotient, hneg, hflip, hround, abs_neg]
    exact two_mul_abs_half_sub_le ha _

/-- **`rescale` misses by at most half a step.** -/
theorem two_mul_abs_scaledError_rescale (ha0 : 0 < a) (ha : a < 2 ^ 63) (hb : 0 < b) (hv : v < a) :
    2 * |scaledError a b v (rescale v a b)| ≤ a := by
  refine le_trans (mul_le_mul_of_nonneg_left (abs_scaledError_le ?_) two_pos.le)
    (two_mul_abs_mul_quotient_sub_le ha0 b v)
  -- neither the centring nor the last reduction moves the error on the cycle
  have htop : (a : ℤ) * (rescale v a b : ℕ) ≡ a * quotient a b v [ZMOD (a * b : ℕ)] := by
    rw [rescale_eq ha hb hv]
    exact mul_emod_modEq a b _
  have hbottom : (b : ℤ) * v ≡ b * centered a v [ZMOD (a * b : ℕ)] := by
    rw [Nat.cast_mul, mul_comm (a : ℤ)]
    exact (centered_modEq a v).mul_left'
  rw [Nat.cast_mul a, Nat.cast_mul b]
  exact htop.sub hbottom

theorem rescale_isNearestResidue (ha0 : 0 < a) (ha : a < 2 ^ 63) (hb : 0 < b) (hv : v < a) :
    IsNearestResidue a b v (rescale v a b) :=
  isNearestResidue (rescale_lt ha hb hv) (two_mul_abs_scaledError_rescale ha0 ha hb hv)

/-- A coefficient after a round trip through the modulus `b`. -/
structure Close (a b v v' : ℕ) : Prop where
  lt : v' < a
  le : 2 * b * |cyclicError a v v'| ≤ a + b

/-- **There and back.** -/
theorem close_rescale (ha0 : 0 < a) (ha : a < 2 ^ 63) (hb0 : 0 < b) (hb : b < 2 ^ 63) (hv : v < a) :
    Close a b v (rescale (rescale v a b) b a) := by
  have hmid := rescale_lt ha hb0 hv
  exact ⟨rescale_lt hb ha0 hmid, two_mul_abs_cyclicError_le hb0
    (two_mul_abs_scaledError_rescale ha0 ha hb0 hv)
    (two_mul_abs_scaledError_rescale hb0 hb ha0 hmid)⟩

end Rescale

/-! ## Rows of fields -/

section Rows

variable {bits : ℕ}

@[simp] theorem length_writeRow (bits : ℕ) (fields : List ℕ) (out : List UInt8) (offs : ℕ) :
    (writeRow bits fields (out, offs)).1.length = out.length := by
  induction fields generalizing out offs with
  | nil => rfl
  | cons field fields ih =>
      rw [writeRow, List.foldl_cons, ← writeRow, ih, length_writeBits]

theorem writeRow_offs (bits : ℕ) (fields : List ℕ) (out : List UInt8) (offs : ℕ) :
    (writeRow bits fields (out, offs)).2 = offs + fields.length * bits := by
  induction fields generalizing out offs with
  | nil => simp [writeRow]
  | cons field fields ih =>
      rw [writeRow, List.foldl_cons, ← writeRow, ih, List.length_cons]
      ring

/-- **Which bits a row sets**: those of its fields, one field after the other. -/
theorem writeRow_bits (hpos : 0 < bits) (fields : List ℕ) (out : List UInt8) (offs : ℕ) {k : ℕ}
    (hk : k < 8 * out.length) :
    streamBit (writeRow bits fields (out, offs)).1 k = (streamBit out k ||
      (decide (offs ≤ k ∧ k < offs + fields.length * bits) &&
        (fields.getD ((k - offs) / bits) 0).testBit ((k - offs) % bits))) := by
  induction fields generalizing out offs with
  | nil =>
      have hempty : ¬(offs ≤ k ∧ k < offs + 0 * bits) := by omega
      rw [writeRow, List.foldl_nil, List.length_nil, decide_eq_false hempty, Bool.false_and,
        Bool.or_false]
  | cons field fields ih =>
      have hlen : (field :: fields).length * bits = bits + fields.length * bits := by
        rw [List.length_cons]
        ring
      rw [writeRow, List.foldl_cons, ← writeRow, ih _ _ (by rwa [length_writeBits]),
        writeBits_bits _ _ _ _ hk, hlen, Bool.or_assoc]
      congr 1
      -- the bit belongs to the first field, to a later one or to none
      by_cases hfirst : offs ≤ k ∧ k < offs + bits
      · have hlater : ¬(offs + bits ≤ k ∧ k < offs + bits + fields.length * bits) := by omega
        have hall : offs ≤ k ∧ k < offs + (bits + fields.length * bits) := by omega
        have hbit : k - offs < bits := by omega
        rw [decide_eq_true hfirst, decide_eq_false hlater, decide_eq_true hall,
          Nat.div_eq_of_lt hbit, Nat.mod_eq_of_lt hbit, List.getD_cons_zero, Bool.false_and,
          Bool.or_false]
      · rw [decide_eq_false hfirst, Bool.false_and, Bool.false_or]
        by_cases hlater : offs + bits ≤ k ∧ k < offs + bits + fields.length * bits
        · have hall : offs ≤ k ∧ k < offs + (bits + fields.length * bits) := by omega
          have hsub : k - offs = k - (offs + bits) + bits := by omega
          rw [decide_eq_true hlater, decide_eq_true hall, hsub, Nat.add_div_right _ hpos,
            Nat.add_mod_right, List.getD_cons_succ]
        · have hall : ¬(offs ≤ k ∧ k < offs + (bits + fields.length * bits)) := by omega
          rw [decide_eq_false hlater, decide_eq_false hall, Bool.false_and, Bool.false_and]

/-- The bits from an offset on are those of a row of fields. -/
def HoldsRow (bits offs : ℕ) (fields : List ℕ) (data : List UInt8) : Prop :=
  ∀ i < fields.length, ∀ j < bits, streamBit data (offs + i * bits + j) =
    (fields.getD i 0).testBit j

/-- A row written over zeros. -/
theorem holdsRow_writeRow (hpos : 0 < bits) (fields : List ℕ) {out : List UInt8} {offs : ℕ}
    (hfit : offs + fields.length * bits ≤ 8 * out.length)
    (hzero : ∀ k, offs ≤ k → k < offs + fields.length * bits → streamBit out k = false) :
    HoldsRow bits offs fields (writeRow bits fields (out, offs)).1 := by
  intro i hi j hj
  have hin : i * bits + j < fields.length * bits := by
    have hmul : (i + 1) * bits ≤ fields.length * bits := Nat.mul_le_mul_right bits hi
    rw [Nat.add_mul, one_mul] at hmul
    omega
  have hsub : offs + i * bits + j - offs = i * bits + j := by omega
  rw [writeRow_bits hpos _ _ _ (by omega), hzero _ (by omega) (by omega),
    decide_eq_true (by omega), hsub, flat_div hj, flat_mod hj, Bool.false_or, Bool.true_and]

/-- A row written after another one leaves it alone. -/
theorem HoldsRow.writeRow {bits' : ℕ} (hpos : 0 < bits') {fields fields' : List ℕ}
    {data : List UInt8} {offs : ℕ} (h : HoldsRow bits offs fields data)
    (hfit : offs + fields.length * bits ≤ 8 * data.length) :
    HoldsRow bits offs fields (writeRow bits' fields' (data, offs + fields.length * bits)).1 := by
  intro i hi j hj
  have hin : i * bits + j < fields.length * bits := by
    have hmul : (i + 1) * bits ≤ fields.length * bits := Nat.mul_le_mul_right bits hi
    rw [Nat.add_mul, one_mul] at hmul
    omega
  rw [writeRow_bits hpos _ _ _ (by omega), decide_eq_false (by omega), Bool.false_and,
    Bool.or_false]
  exact h i hi j hj

/-- **A row that is held is read back.** -/
theorem readRow_ok (hpos : 0 < bits) (hle : bits ≤ 64) {fields : List ℕ} {data : List UInt8}
    {offs : ℕ} (h : HoldsRow bits offs fields data) (hlt : ∀ w ∈ fields, w < 2 ^ bits) :
    readRow data bits fields.length offs = .ok (fields, offs + fields.length * bits) := by
  induction fields generalizing offs with
  | nil => simp [readRow]
  | cons field fields ih =>
      obtain ⟨w, hread, hw, hbit⟩ := readBits_testBit data offs hpos hle
      have hfield : w = field := by
        refine Nat.eq_of_testBit_eq fun j => ?_
        rw [hbit]
        by_cases hj : j < bits
        · have hheld := h 0 (Nat.succ_pos _) j hj
          rw [zero_mul, add_zero, List.getD_cons_zero] at hheld
          rw [decide_eq_true hj, Bool.true_and, hheld]
        · have hhigh : 2 ^ bits ≤ 2 ^ j := Nat.pow_le_pow_right two_pos (not_lt.mp hj)
          rw [decide_eq_false hj, Bool.false_and,
            Nat.testBit_lt_two_pow ((hlt field List.mem_cons_self).trans_le hhigh)]
      have hrest : HoldsRow bits (offs + bits) fields data := by
        intro i hi j hj
        have hheld := h (i + 1) (Nat.succ_lt_succ hi) j hj
        have hoffs : offs + (i + 1) * bits + j = offs + bits + i * bits + j := by ring
        rwa [hoffs, List.getD_cons_succ] at hheld
      have hend : offs + bits + fields.length * bits = offs + (fields.length + 1) * bits := by ring
      rw [List.length_cons, readRow, hread, ok_bind,
        ih hrest fun w hw => hlt w (List.mem_cons_of_mem _ hw), ok_bind, hfield, hend]

end Rows

/-! ## Transport -/

/-- The moduli whose words fit a signed machine word. -/
structure Switchable (q : ℕ) : Prop where
  two_le : 2 ≤ q
  lt : q < 2 ^ 63

section Transport

variable {q q' : ℕ}

theorem Switchable.pos (h : Switchable q) : 0 < q := lt_of_lt_of_le two_pos h.two_le

theorem Switchable.bits_pos (h : Switchable q) : 0 < modulusBits q := modulusBits_pos_of_lt h.two_le

theorem Switchable.bits_le (h : Switchable q) : modulusBits q ≤ 64 :=
  modulusBits_le_of_lt (h.lt.trans_le (Nat.pow_le_pow_right two_pos (by decide)))

/-- A row of coefficients, rescaled. -/
def rescaleRow (row : List ℕ) (qIn qOut : ℕ) : List ℕ := row.map fun coeff => rescale coeff qIn qOut

@[simp] theorem length_rescaleRow (row : List ℕ) (qIn qOut : ℕ) :
    (rescaleRow row qIn qOut).length = row.length := List.length_map _

theorem rescaleRow_lt (hq : Switchable q) (hq' : Switchable q') {row : List ℕ}
    (hrow : ∀ v ∈ row, v < q) : ∀ w ∈ rescaleRow row q q', w < 2 ^ modulusBits q' := by
  intro w hw
  obtain ⟨v, hv, rfl⟩ := List.mem_map.mp hw
  exact lt_two_pow_modulusBits (rescale_lt hq.lt hq'.pos (hrow v hv))

/-- The bound for every coefficient of a row. -/
theorem forall₂_close (hq : Switchable q) (hq' : Switchable q') {row : List ℕ}
    (hrow : ∀ v ∈ row, v < q) :
    List.Forall₂ (Close q q') row (rescaleRow (rescaleRow row q q') q' q) := by
  rw [rescaleRow, rescaleRow, List.map_map, List.forall₂_map_right_iff, List.forall₂_same]
  intro v hv
  rw [Function.comp_apply]
  exact close_rescale hq.pos hq.lt hq'.pos hq'.lt (hrow v hv)

/-- **A vector of coefficients** is recovered with every coefficient in its place. -/
theorem recover_switchCoeffs (hq : Switchable q) (hq' : Switchable q') {coeffs : List ℕ}
    (hcoeffs : ∀ v ∈ coeffs, v < q) :
    ∃ out, recoverCoeffsSingleCrt (switchCoeffsSingleCrt coeffs q q') coeffs.length q' q = .ok out ∧
      List.Forall₂ (Close q q') coeffs out := by
  refine ⟨_, ?_, forall₂_close hq hq' hcoeffs⟩
  have hlen : (switchCoeffsSingleCrt coeffs q q').length =
      (coeffs.length * modulusBits q' + 7) / 8 := by
    rw [switchCoeffsSingleCrt, length_writeRow, List.length_replicate]
  have hheld : HoldsRow (modulusBits q') 0 (rescaleRow coeffs q q')
      (switchCoeffsSingleCrt coeffs q q') := by
    refine holdsRow_writeRow hq'.bits_pos _ ?_ fun k _ _ => streamBit_replicate _ _
    rw [List.length_replicate, length_rescaleRow]
    omega
  have hread := readRow_ok hq'.bits_pos hq'.bits_le hheld (rescaleRow_lt hq hq' hcoeffs)
  rw [length_rescaleRow] at hread
  rw [recoverCoeffsSingleCrt, if_neg (not_not.mpr hlen), hread, ok_bind]
  rfl

variable {q₁ q₂ : ℕ}

/-- **Both rows of a ciphertext** are recovered, the first one at the width of the larger
modulus. -/
theorem recover_switchRows (hq : Switchable q) (hq₁ : Switchable q₁) (hq₂ : Switchable q₂)
    {row0 row1 : List ℕ} (hlen : row0.length = row1.length) (hrow0 : ∀ v ∈ row0, v < q)
    (hrow1 : ∀ v ∈ row1, v < q) :
    ∃ bytes, switchRlweRows row0 row1 q q₁ q₂ = .ok bytes ∧
      bytes.length = switchedRlweResponseLen row0.length q₁ q₂ ∧
      ∃ out, recoverRlweRows bytes row0.length q₁ q₂ q = .ok out ∧
        List.Forall₂ (Close q q₂) row0 out.1 ∧ List.Forall₂ (Close q q₁) row1 out.2 := by
  set total := switchedRlweResponseLen row0.length q₁ q₂ with htotal
  set zeros : List UInt8 := List.replicate total 0 with hzeros
  set first := writeRow (modulusBits q₂) (rescaleRow row0 q q₂) (zeros, 0) with hfirst
  have hfit : row0.length * modulusBits q₂ + row0.length * modulusBits q₁ ≤ 8 * total := by
    rw [htotal, switchedRlweResponseLen, ← Nat.mul_add]
    omega
  have hfirstLen : first.1.length = total := by
    rw [hfirst, length_writeRow, hzeros, List.length_replicate]
  have hoffs : first.2 = 0 + (rescaleRow row0 q q₂).length * modulusBits q₂ := writeRow_offs _ _ _ _
  have hheld0 : HoldsRow (modulusBits q₂) 0 (rescaleRow row0 q q₂) first.1 := by
    refine holdsRow_writeRow hq₂.bits_pos _ ?_ fun k _ _ => streamBit_replicate _ _
    rw [hzeros, List.length_replicate, length_rescaleRow]
    omega
  have hpair : first = (first.1, 0 + (rescaleRow row0 q q₂).length * modulusBits q₂) := by
    rw [← hoffs]
  set bytes := (writeRow (modulusBits q₁) (rescaleRow row1 q q₁) first).1 with hbytes
  have hbytesLen : bytes.length = total := by rw [hbytes, hpair, length_writeRow, hfirstLen]
  have hrowBits : (rescaleRow row0 q q₂).length * modulusBits q₂ ≤ 8 * first.1.length := by
    rw [hfirstLen, length_rescaleRow]
    omega
  -- the second row starts where the first one ends, and neither touches the other
  have hkept : HoldsRow (modulusBits q₂) 0 (rescaleRow row0 q q₂) bytes := by
    rw [hbytes, hpair]
    exact hheld0.writeRow hq₁.bits_pos (by rwa [zero_add])
  have hheld1 : HoldsRow (modulusBits q₁) (0 + (rescaleRow row0 q q₂).length * modulusBits q₂)
      (rescaleRow row1 q q₁) bytes := by
    rw [hbytes, hpair]
    refine holdsRow_writeRow hq₁.bits_pos _ ?_ fun k hlow hhigh => ?_
    · rw [hfirstLen, length_rescaleRow, length_rescaleRow, ← hlen, zero_add]
      exact hfit
    · rw [length_rescaleRow, length_rescaleRow, ← hlen] at hhigh
      rw [hfirst, writeRow_bits hq₂.bits_pos _ _ _ (by rw [hzeros, List.length_replicate]; omega),
        streamBit_replicate, decide_eq_false (by omega), Bool.false_and, Bool.or_false]
  have hread0 := readRow_ok hq₂.bits_pos hq₂.bits_le hkept (rescaleRow_lt hq hq₂ hrow0)
  have hread1 := readRow_ok hq₁.bits_pos hq₁.bits_le hheld1 (rescaleRow_lt hq hq₁ hrow1)
  rw [length_rescaleRow] at hread0
  rw [length_rescaleRow, length_rescaleRow, ← hlen] at hread1
  refine ⟨bytes, ?_, hbytesLen, (_, _), ?_, forall₂_close hq hq₂ hrow0, forall₂_close hq hq₁ hrow1⟩
  · rw [switchRlweRows, if_neg (not_not.mpr hlen)]
    rfl
  · rw [recoverRlweRows, if_neg (not_not.mpr hbytesLen), hread0, ok_bind]
    dsimp only
    rw [hread1, ok_bind]

end Transport

/-! ## Responses -/

section Responses

variable {P : RlweParams} {q₁ q₂ : ℕ}

theorem rawRow_lt (row : Ntt P.d P.q) : ∀ v ∈ rawRow row, v < P.q := by
  intro v hv
  obtain ⟨i, rfl⟩ := (List.mem_ofFn' _ _).mp hv
  exact P.spiral.fromNttAlloc_lt row i

@[simp] theorem length_rawRow (row : Ntt P.d P.q) : (rawRow row).length = P.d := List.length_ofFn

/-- A body takes at least one byte. -/
theorem responseBodyLen_pos (P : RlweParams) (hq₁ : Switchable q₁) :
    0 < responseBodyLen P.d q₁ := by
  have hbits := Nat.mul_pos P.d_pos hq₁.bits_pos
  rw [responseBodyLen]
  omega

theorem switchedRlweResponseLen_pos (P : RlweParams) (hq₁ : Switchable q₁) (q₂ : ℕ) :
    0 < switchedRlweResponseLen P.d q₁ q₂ := by
  have hbits := Nat.mul_pos P.d_pos (Nat.add_pos_right (modulusBits q₂) hq₁.bits_pos)
  rw [switchedRlweResponseLen]
  omega

/-- **One body** is recovered. -/
theorem recoverResponseBody_written (hq : Switchable P.q) (hq₁ : Switchable q₁)
    (row : Ntt P.d P.q) : recoverResponseBody
      (u64sToContiguousBytes (rescaleRow (rawRow row) P.q q₁) (modulusBits q₁)) P.d q₁ P.q =
      .ok (rescaleRow (rescaleRow (rawRow row) P.q q₁) q₁ P.q) := by
  obtain ⟨fields, hfields, -, htake⟩ :=
    take_fields hq₁.bits_pos hq₁.bits_le (rescaleRow_lt hq hq₁ (rawRow_lt row))
  rw [length_rescaleRow, length_rawRow] at htake
  rw [recoverResponseBody, hfields, ok_bind, htake]
  rfl

/-- **The bodies of a response** are cut apart where they were joined, for every number of
blocks. -/
theorem recover_responseBodies (hq : Switchable P.q) (hq₁ : Switchable q₁)
    (cts : List (RlweCiphertext P)) :
    (serializeRlweResponseBodies cts q₁).length = cts.length * responseBodyLen P.d q₁ ∧
      ∃ rows, (chunks (responseBodyLen P.d q₁) (serializeRlweResponseBodies cts q₁)).mapM
          (fun chunk => recoverResponseBody chunk P.d q₁ P.q) = .ok rows ∧
        List.Forall₂ (fun ct row => List.Forall₂ (Close P.q q₁) (rawRow ct.c2) row) cts rows := by
  have hlen (ct : RlweCiphertext P) :
      (u64sToContiguousBytes (rescaleRow (rawRow ct.c2) P.q q₁) (modulusBits q₁)).length =
        responseBodyLen P.d q₁ := by
    rw [length_u64sToContiguousBytes, length_rescaleRow, length_rawRow]
    rfl
  refine ⟨?_, cts.map fun ct => rescaleRow (rescaleRow (rawRow ct.c2) P.q q₁) q₁ P.q, ?_, ?_⟩
  · rw [serializeRlweResponseBodies, List.length_flatMap]
    show (cts.map fun ct => (u64sToContiguousBytes (rescaleRow (rawRow ct.c2) P.q q₁)
      (modulusBits q₁)).length).sum = _
    rw [List.map_congr_left fun ct _ => hlen ct, List.map_const', List.sum_replicate, smul_eq_mul]
  · exact mapM_chunks_flatMap (responseBodyLen_pos P hq₁) (fun ct _ => hlen ct)
      fun ct _ => recoverResponseBody_written hq hq₁ ct.c2
  · rw [List.forall₂_map_right_iff, List.forall₂_same]
    exact fun ct _ => forall₂_close hq hq₁ (rawRow_lt ct.c2)

/-- **The ciphertexts of a response** are cut apart where they were joined, for every number of
blocks. -/
theorem recover_response (hq : Switchable P.q) (hq₁ : Switchable q₁) (hq₂ : Switchable q₂)
    (cts : List (RlweCiphertext P)) :
    ∃ bytes, serializeRlweResponse cts q₁ q₂ = .ok bytes ∧
      ∃ rows, (chunks (switchedRlweResponseLen P.d q₁ q₂) bytes).mapM
          (fun chunk => recoverRlweRows chunk P.d q₁ q₂ P.q) = .ok rows ∧
        List.Forall₂ (fun ct out => List.Forall₂ (Close P.q q₂) (rawRow ct.c1) out.1 ∧
          List.Forall₂ (Close P.q q₁) (rawRow ct.c2) out.2) cts rows := by
  have hblock (ct : RlweCiphertext P) := recover_switchRows hq hq₁ hq₂
    ((length_rawRow ct.c1).trans (length_rawRow ct.c2).symm) (rawRow_lt ct.c1) (rawRow_lt ct.c2)
  simp only [length_rawRow] at hblock
  choose block hswitch hlen out hrecover hclose using hblock
  have hblocks : (cts.mapM fun ct => switchRlweCiphertext ct q₁ q₂) = .ok (cts.map block) :=
    mapM_eq_ok fun ct _ => hswitch ct
  refine ⟨cts.flatMap block, ?_, cts.map out, ?_, ?_⟩
  · rw [serializeRlweResponse, hblocks, ok_bind, List.flatMap_def]
  · exact mapM_chunks_flatMap (switchedRlweResponseLen_pos P hq₁ q₂) (fun ct _ => hlen ct)
      fun ct _ => hrecover ct
  · rw [List.forall₂_map_right_iff, List.forall₂_same]
    exact fun ct _ => hclose ct

/-- **Modulus switching rounds to nearest, and every transport keeps the bound.**  For any two
moduli a rescaled residue is a nearest one, and there and back it moves by at most half the sum of
the steps; a vector of coefficients, two rows, the bodies of a response and its ciphertexts are all
recovered with each coefficient in its place, moved by no more than that. -/
theorem modulusSwitch_close :
    (∀ q q' v : ℕ, Switchable q → Switchable q' → v < q →
      rescale v q q' < q' ∧ IsNearestResidue q q' v (rescale v q q') ∧
        2 * q' * |cyclicError q v (rescale (rescale v q q') q' q)| ≤ (q : ℤ) + q') ∧
    (∀ (q q' : ℕ) (coeffs : List ℕ), Switchable q → Switchable q' → (∀ v ∈ coeffs, v < q) →
      ∃ out, recoverCoeffsSingleCrt (switchCoeffsSingleCrt coeffs q q') coeffs.length q' q =
          .ok out ∧ List.Forall₂ (Close q q') coeffs out) ∧
    (∀ (q q₁ q₂ : ℕ) (row0 row1 : List ℕ), Switchable q → Switchable q₁ → Switchable q₂ →
      row0.length = row1.length → (∀ v ∈ row0, v < q) → (∀ v ∈ row1, v < q) →
      ∃ bytes, switchRlweRows row0 row1 q q₁ q₂ = .ok bytes ∧
        ∃ out, recoverRlweRows bytes row0.length q₁ q₂ q = .ok out ∧
          List.Forall₂ (Close q q₂) row0 out.1 ∧ List.Forall₂ (Close q q₁) row1 out.2) ∧
    (∀ (P : RlweParams) (q₁ : ℕ) (cts : List (RlweCiphertext P)), Switchable P.q → Switchable q₁ →
      ∃ rows, (chunks (responseBodyLen P.d q₁) (serializeRlweResponseBodies cts q₁)).mapM
          (fun chunk => recoverResponseBody chunk P.d q₁ P.q) = .ok rows ∧
        List.Forall₂ (fun ct row => List.Forall₂ (Close P.q q₁) (rawRow ct.c2) row) cts rows) ∧
    ∀ (P : RlweParams) (q₁ q₂ : ℕ) (cts : List (RlweCiphertext P)), Switchable P.q →
      Switchable q₁ → Switchable q₂ →
      ∃ bytes, serializeRlweResponse cts q₁ q₂ = .ok bytes ∧
        ∃ rows, (chunks (switchedRlweResponseLen P.d q₁ q₂) bytes).mapM
            (fun chunk => recoverRlweRows chunk P.d q₁ q₂ P.q) = .ok rows ∧
          List.Forall₂ (fun ct out => List.Forall₂ (Close P.q q₂) (rawRow ct.c1) out.1 ∧
            List.Forall₂ (Close P.q q₁) (rawRow ct.c2) out.2) cts rows := by
  refine ⟨fun q q' v hq hq' hv => ⟨rescale_lt hq.lt hq'.pos hv,
      rescale_isNearestResidue hq.pos hq.lt hq'.pos hv,
      (close_rescale hq.pos hq.lt hq'.pos hq'.lt hv).le⟩,
    fun q q' coeffs hq hq' hcoeffs => recover_switchCoeffs hq hq' hcoeffs,
    fun q q₁ q₂ row0 row1 hq hq₁ hq₂ hlen hrow0 hrow1 => ?_,
    fun P q₁ cts hq hq₁ => (recover_responseBodies hq hq₁ cts).2,
    fun P q₁ q₂ cts hq hq₁ hq₂ => recover_response hq hq₁ hq₂ cts⟩
  obtain ⟨bytes, hbytes, -, hout⟩ := recover_switchRows hq hq₁ hq₂ hlen hrow0 hrow1
  exact ⟨bytes, hbytes, hout⟩

/-- A ciphertext whose words run through the residues from `start` on. -/
def countingCiphertext (start : ℕ) : RlweCiphertext smallParams where
  c1 := { word := fun s => (start + s) % 17, lt := fun _ => Nat.mod_lt _ (by decide) }
  c2 := { word := fun s => (start + 5 * s) % 17, lt := fun _ => Nat.mod_lt _ (by decide) }

/-- From 97 to 13 and back: 93 rounds to 12 and 96 around to zero.  Two rows at two widths, and two
ciphertexts with and without their masks. -/
theorem modulusSwitch_close_97 : rescale 93 97 13 = 12 ∧ rescale 96 97 13 = 0 ∧
    2 * 13 * |cyclicError 97 96 (rescale (rescale 96 97 13) 13 97)| ≤ (97 : ℤ) + 13 ∧
    (∃ out, recoverCoeffsSingleCrt (switchCoeffsSingleCrt [93, 96, 5] 97 13) 3 13 97 = .ok out ∧
      List.Forall₂ (Close 97 13) [93, 96, 5] out) ∧
    (∃ bytes, switchRlweRows [93, 0, 7] [1, 2, 96] 97 13 19 = .ok bytes ∧
      ∃ out, recoverRlweRows bytes 3 13 19 97 = .ok out ∧
        List.Forall₂ (Close 97 19) [93, 0, 7] out.1 ∧
        List.Forall₂ (Close 97 13) [1, 2, 96] out.2) ∧
    (∃ rows, (chunks (responseBodyLen 4 5) (serializeRlweResponseBodies
        [countingCiphertext 2, countingCiphertext 11] 5)).mapM
          (fun chunk => recoverResponseBody chunk 4 5 17) = .ok rows ∧
      List.Forall₂ (fun ct row => List.Forall₂ (Close 17 5) (rawRow ct.c2) row)
        [countingCiphertext 2, countingCiphertext 11] rows) ∧
    ∃ bytes, serializeRlweResponse [countingCiphertext 2, countingCiphertext 11] 5 7 = .ok bytes ∧
      ∃ rows, (chunks (switchedRlweResponseLen 4 5 7) bytes).mapM
          (fun chunk => recoverRlweRows chunk 4 5 7 17) = .ok rows ∧
        List.Forall₂ (fun ct out => List.Forall₂ (Close 17 7) (rawRow ct.c1) out.1 ∧
          List.Forall₂ (Close 17 5) (rawRow ct.c2) out.2)
          [countingCiphertext 2, countingCiphertext 11] rows := by
  obtain ⟨hvalue, hcoeffs, hrows, hbodies, hresponse⟩ := modulusSwitch_close
  have h97 : Switchable 97 := ⟨by decide, by decide⟩
  have h13 : Switchable 13 := ⟨by decide, by decide⟩
  have hq : Switchable smallParams.q := ⟨by decide, by decide⟩
  have h5 : Switchable 5 := ⟨by decide, by decide⟩
  refine ⟨by decide, by decide, (hvalue 97 13 96 h97 h13 (by decide)).2.2,
    hcoeffs 97 13 [93, 96, 5] h97 h13 (by decide),
    hrows 97 13 19 [93, 0, 7] [1, 2, 96] h97 h13 ⟨by decide, by decide⟩ rfl
      (by decide) (by decide),
    hbodies smallParams 5 _ hq h5,
    hresponse smallParams 5 7 _ hq h5 ⟨by decide, by decide⟩⟩

end Responses

end SimplePir
