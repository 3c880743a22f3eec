import IpirSp.Inspiring.ModInverse
import IpirSp.SimplePir.Ingest
import IpirSp.SimplePir.Serialize
import Mathlib.Data.Nat.Log

/-!
# Production profiles

A production client and a production server are built from one of four pinned profiles and a
database shape.  `build_simplepir_params` derives all parameters from these; the server compares the
RLWE parameters and the shape that a call brings with what the profile says, by deriving every value
a second time.  Both records are public, so the comparison is made field by field (`RlweFields`).
`production_profiles` says which records pass, that what the constructor builds is among them, and
that parameters which pass are those that the constructor builds, as long as the database has a
size.
-/

namespace SimplePir

open Inspiring SpiralRs Loops

/-- `POLY_LEN`. -/
def POLY_LEN : ℕ := 2048

/-- `SINGLE_CRT_Q`. -/
def SINGLE_CRT_Q : ℕ := 72057594037641217

/-- `Q_PRIME_1`. -/
def Q_PRIME_1 : ℕ := 2 ^ 20

/-- `Q_PRIME_2`. -/
def Q_PRIME_2 : ℕ := 268369921

/-- `Q2_BITS`. -/
def Q2_BITS : ℕ := 28

/-- `T_EXP_LEFT`. -/
def T_EXP_LEFT : ℕ := 3

/-- `T_EXP_RIGHT`. -/
def T_EXP_RIGHT : ℕ := 2

/-- `GADGET_BITS_PER` and `GADGET_ELL`. -/
def GADGET : GadgetParams := ⟨19, 3⟩

/-- `SIGMA_CHI`, the double that `6.4` is read as. -/
def SIGMA_CHI : F64 := .finite false 64 (-1)

namespace SimplePirProfile

/-- `id`. -/
def id : SimplePirProfile → String
  | p14 => "simplepir-p14-v1"
  | p16Q46 => "simplepir-p16-q46-v1"
  | p16Q48 => "simplepir-p16-q48-v1"
  | p16Q49 => "simplepir-p16-q49-v1"

/-- `plaintext_bits`. -/
def plaintextBits : SimplePirProfile → ℕ
  | p14 => 14
  | p16Q46 | p16Q48 | p16Q49 => 16

/-- `plaintext_modulus`. -/
def plaintextModulus (profile : SimplePirProfile) : ℕ := 2 ^ profile.plaintextBits

/-- `minimum_query_bits`. -/
def minimumQueryBits : SimplePirProfile → ℕ
  | p14 => 1
  | p16Q46 => 46
  | p16Q48 => 48
  | p16Q49 => 49

end SimplePirProfile

/-- `YpirSchemeParams`, with all of its fields. -/
structure SchemeParams extends YpirSchemeParams where
  numItems : ℕ
  itemSizeBits : ℕ
  polyLen : ℕ
  dbDim1 : ℕ
  dbDim2 : ℕ
  instances : ℕ
  dbCols : ℕ
  p : ℕ
  qPrime1 : ℕ
  qPrime2 : ℕ
  q2Bits : ℕ
  tExpLeft : ℕ
  tExpRight : ℕ

/-- The shape of the database. -/
def SchemeParams.shape (ypir : SchemeParams) : DatabaseShape := ⟨ypir.dbRows, ypir.dbCols⟩

/-- `query_modulus_bits`; what it computes in floating point, before it clamps the result, is a
parameter. -/
def queryModulusBits (noiseBits : ℕ → ℕ → ℕ → ℕ) (q p dbRows : ℕ) : ℕ :=
  max 1 (min (noiseBits q p dbRows) (modulusBits q))

/-- The width that a profile sends its queries at. -/
def SimplePirProfile.queryBits (noiseBits : ℕ → ℕ → ℕ → ℕ) (profile : SimplePirProfile)
    (dbRows : ℕ) : ℕ :=
  max (queryModulusBits noiseBits SINGLE_CRT_Q profile.plaintextModulus dbRows)
    profile.minimumQueryBits

/-- `checked_next_power_of_two().map(trailing_zeros)`. -/
def checkedNextPowerOfTwoLog (n : ℕ) : Option ℕ :=
  if Nat.clog 2 n < 64 then some (Nat.clog 2 n) else none

/-- `ok_or_else(|| InvalidParams(..))`. -/
def okOrInvalid {α : Type} (value : Option α) (msg : String) : Outcome α :=
  value.elim (.error (.err (.invalidParams msg))) .ok

/-- The chunks that an item takes. -/
def SimplePirProfile.instances (profile : SimplePirProfile) (itemSizeBits : ℕ) : ℕ :=
  let chunkBits := POLY_LEN * profile.plaintextBits
  itemSizeBits / chunkBits + if itemSizeBits % chunkBits ≠ 0 then 1 else 0

/-- `build_simplepir_params`. -/
def buildSimplepirParams (init : SpiralInit) (noiseBits : ℕ → ℕ → ℕ → ℕ)
    (numItems itemSizeBits : ℕ) (profile : SimplePirProfile) :
    Outcome (RlweParams × SchemeParams) :=
  if itemSizeBits < POLY_LEN * profile.plaintextBits ∨ numItems < POLY_LEN then
    .error (.err (.invalidParams
      "SimplePIR requires at least one polynomial of rows and item bits"))
  else do
    let dbRows ← okOrInvalid (checkedMul (2 ^ 64)
      ((checkedAdd (2 ^ 64) (some numItems) (some (POLY_LEN - 1))).map (· / POLY_LEN))
      (some POLY_LEN)) "database row count overflows"
    let dbDim1 ← okOrInvalid ((checkedNextPowerOfTwoLog dbRows).map (· - 11))
      "database dimension overflows"
    let instances := profile.instances itemSizeBits
    let dbCols ← okOrInvalid (checkedMul (2 ^ 64) (some instances) (some POLY_LEN))
      "database column count overflows"
    let _ ← okOrInvalid (checkedMul (2 ^ 64) (some dbRows) (some dbCols))
      "database element count overflows"
    let rlwe ← RlweParams.new init POLY_LEN SINGLE_CRT_Q profile.plaintextModulus SIGMA_CHI GADGET
    .ok (rlwe, {
      numItems, itemSizeBits, dbDim1, instances, dbRows, dbCols
      polyLen := POLY_LEN
      dbDim2 := 1
      p := profile.plaintextModulus
      qPrime1 := Q_PRIME_1
      qPrime2 := Q_PRIME_2
      q2Bits := Q2_BITS
      tExpLeft := T_EXP_LEFT
      tExpRight := T_EXP_RIGHT
      queryBits := profile.queryBits noiseBits dbRows })

/-- The public fields of the polynomial layer that the check reads. -/
structure SpiralFields where
  polyLen : ℕ
  modulus : ℕ
  ptModulus : ℕ
  noiseWidth : F64

/-- The public fields of `RlweParams`, as a caller may have set them. -/
structure RlweFields where
  d : ℕ
  q : ℕ
  p : ℕ
  sigmaChi : F64
  gadget : GadgetParams
  delta : ℕ
  dInv : ℕ
  spiral : SpiralFields

/-- The fields of constructed parameters; `noiseWidth` is the product with `TAU.sqrt()`. -/
def RlweFields.ofParams (noiseWidth : F64 → F64) (P : RlweParams) : RlweFields where
  d := P.d
  q := P.q
  p := P.p
  sigmaChi := P.sigmaChi
  gadget := P.gadget
  delta := P.delta
  dInv := P.dInv
  spiral := ⟨P.d, P.q, P.p, noiseWidth P.sigmaChi⟩

/-- `validate_profile_parts`. -/
def validateProfileParts (noiseWidth : F64 → F64) (noiseBits : ℕ → ℕ → ℕ → ℕ) (rlwe : RlweFields)
    (ypir : SchemeParams) (profile : SimplePirProfile) : Outcome Unit :=
  let msg := "inconsistent SimplePIR profile parameters"
  do
    let expectedRows ← okOrInvalid ((checkedAdd (2 ^ 64) (some ypir.numItems)
      (some (POLY_LEN - 1))).map fun n => n / POLY_LEN * POLY_LEN) msg
    if expectedRows < POLY_LEN then .error (.err (.invalidParams msg))
    else
      let chunkBits := POLY_LEN * profile.plaintextBits
      let instances := profile.instances ypir.itemSizeBits
      let expectedCols ← okOrInvalid (checkedMul (2 ^ 64) (some instances) (some POLY_LEN)) msg
      let expectedDim ← okOrInvalid ((checkedNextPowerOfTwoLog expectedRows).map (· - 11)) msg
      let expectedBits := profile.queryBits noiseBits expectedRows
      if rlwe.d ≠ POLY_LEN ∨ rlwe.q ≠ SINGLE_CRT_Q ∨ rlwe.p ≠ profile.plaintextModulus ∨
          rlwe.sigmaChi ≠ SIGMA_CHI ∨ rlwe.gadget.bitsPer ≠ GADGET.bitsPer ∨
          rlwe.gadget.ell ≠ GADGET.ell ∨ rlwe.delta ≠ rlwe.q / rlwe.p ∨
          rlwe.d * rlwe.dInv % rlwe.q ≠ 1 ∨ rlwe.spiral.polyLen ≠ rlwe.d ∨
          rlwe.spiral.modulus ≠ rlwe.q ∨ rlwe.spiral.ptModulus ≠ rlwe.p ∨
          rlwe.spiral.noiseWidth ≠ noiseWidth rlwe.sigmaChi ∨ ypir.numItems < POLY_LEN ∨
          ypir.itemSizeBits < chunkBits ∨ ypir.polyLen ≠ rlwe.d ∨ ypir.p ≠ rlwe.p ∨
          ypir.dbDim1 ≠ expectedDim ∨ ypir.dbDim2 ≠ 1 ∨ ypir.instances ≠ instances ∨
          ypir.dbRows ≠ expectedRows ∨ ypir.dbCols ≠ expectedCols ∨ ypir.dbRows % rlwe.d ≠ 0 ∨
          ypir.dbCols % rlwe.d ≠ 0 ∨ ypir.qPrime1 ≠ Q_PRIME_1 ∨ ypir.qPrime2 ≠ Q_PRIME_2 ∨
          ypir.q2Bits ≠ Q2_BITS ∨ ypir.tExpLeft ≠ T_EXP_LEFT ∨ ypir.tExpRight ≠ T_EXP_RIGHT ∨
          ypir.queryBits ≠ expectedBits then .error (.err (.invalidParams msg))
      else .ok ()

/-! ## What a profile derives -/

section Derived

variable {init : SpiralInit} {noiseWidth : F64 → F64} {noiseBits : ℕ → ℕ → ℕ → ℕ}
  {numItems itemSizeBits : ℕ} {profile : SimplePirProfile} {rlwe : RlweParams}
  {fields : RlweFields} {ypir : SchemeParams}

/-- The rows of a database: the items, in whole polynomials. -/
def expectedRows (numItems : ℕ) : ℕ := (numItems + (POLY_LEN - 1)) / POLY_LEN * POLY_LEN

/-- The columns: the chunks of an item, in whole polynomials. -/
def SimplePirProfile.expectedCols (profile : SimplePirProfile) (itemSizeBits : ℕ) : ℕ :=
  profile.instances itemSizeBits * POLY_LEN

/-- The scheme parameters of a profile and a shape. -/
def SimplePirProfile.scheme (profile : SimplePirProfile) (noiseBits : ℕ → ℕ → ℕ → ℕ)
    (numItems itemSizeBits : ℕ) : SchemeParams where
  numItems
  itemSizeBits
  dbRows := expectedRows numItems
  dbCols := profile.expectedCols itemSizeBits
  polyLen := POLY_LEN
  dbDim1 := Nat.clog 2 (expectedRows numItems) - 11
  dbDim2 := 1
  instances := profile.instances itemSizeBits
  p := profile.plaintextModulus
  qPrime1 := Q_PRIME_1
  qPrime2 := Q_PRIME_2
  q2Bits := Q2_BITS
  tExpLeft := T_EXP_LEFT
  tExpRight := T_EXP_RIGHT
  queryBits := profile.queryBits noiseBits (expectedRows numItems)

/-- A shape that no computation of the derivation overflows on. -/
structure Sized (profile : SimplePirProfile) (numItems itemSizeBits : ℕ) : Prop where
  numItems_ge : POLY_LEN ≤ numItems
  itemSizeBits_ge : POLY_LEN * profile.plaintextBits ≤ itemSizeBits
  sum_lt : numItems + (POLY_LEN - 1) < 2 ^ 64
  log_lt : Nat.clog 2 (expectedRows numItems) < 64
  cols_lt : profile.expectedCols itemSizeBits < 2 ^ 64

theorem okOrInvalid_eq_ok {α : Type} {value : Option α} {msg : String} {a : α} :
    okOrInvalid value msg = .ok a ↔ value = some a := by
  cases value <;> simp [okOrInvalid]

theorem checkedMul_eq_some {a b n : ℕ} :
    checkedMul (2 ^ 64) (some a) (some b) = some n ↔ a * b < 2 ^ 64 ∧ a * b = n := by
  simp [checkedMul]

theorem checkedAdd_eq_some {a b n : ℕ} :
    checkedAdd (2 ^ 64) (some a) (some b) = some n ↔ a + b < 2 ^ 64 ∧ a + b = n := by
  simp [checkedAdd]

theorem checkedNextPowerOfTwoLog_eq_some {n k : ℕ} :
    checkedNextPowerOfTwoLog n = some k ↔ Nat.clog 2 n < 64 ∧ Nat.clog 2 n = k := by
  simp [checkedNextPowerOfTwoLog]

/-- The rounded row count fits as soon as the sum that it is rounded from does. -/
theorem checkedRows_eq_some {rows : ℕ} :
    checkedMul (2 ^ 64) ((checkedAdd (2 ^ 64) (some numItems) (some (POLY_LEN - 1))).map
        (· / POLY_LEN)) (some POLY_LEN) = some rows ↔
      numItems + (POLY_LEN - 1) < 2 ^ 64 ∧ expectedRows numItems = rows := by
  by_cases hsum : numItems + (POLY_LEN - 1) < 2 ^ 64
  · have hle : (numItems + (POLY_LEN - 1)) / POLY_LEN * POLY_LEN < 2 ^ 64 :=
      (Nat.div_mul_le_self _ _).trans_lt hsum
    rw [checkedAdd_some hsum, Option.map_some, checkedMul_eq_some]
    exact ⟨fun h => ⟨hsum, h.2⟩, fun h => ⟨hle, h.2⟩⟩
  · have hnone : checkedAdd (2 ^ 64) (some numItems) (some (POLY_LEN - 1)) = none := by
      rcases hadd : checkedAdd (2 ^ 64) (some numItems) (some (POLY_LEN - 1)) with _ | n
      · rfl
      · exact absurd (checkedAdd_eq_some.mp hadd).1 hsum
    rw [hnone]
    exact ⟨fun h => (by cases h), fun h => absurd h.1 hsum⟩

/-- **What the constructor builds.** -/
theorem buildSimplepirParams_ok_iff :
    buildSimplepirParams init noiseBits numItems itemSizeBits profile = .ok (rlwe, ypir) ↔
      Sized profile numItems itemSizeBits ∧
        expectedRows numItems * profile.expectedCols itemSizeBits < 2 ^ 64 ∧
        RlweParams.new init POLY_LEN SINGLE_CRT_Q profile.plaintextModulus SIGMA_CHI GADGET =
          .ok rlwe ∧
        ypir = profile.scheme noiseBits numItems itemSizeBits := by
  constructor
  · intro h
    unfold buildSimplepirParams at h
    split at h
    · cases h
    next hshape =>
    obtain ⟨hbits, hitems⟩ := not_or.mp hshape
    obtain ⟨dbRows, hrows, h⟩ := bind_eq_ok h
    obtain ⟨dbDim1, hdim, h⟩ := bind_eq_ok h
    obtain ⟨dbCols, hcols, h⟩ := bind_eq_ok h
    obtain ⟨elements, helements, h⟩ := bind_eq_ok h
    obtain ⟨P, hnew, h⟩ := bind_eq_ok h
    rw [okOrInvalid_eq_ok] at hrows hdim hcols helements
    obtain ⟨hsum, rfl⟩ := checkedRows_eq_some.mp hrows
    obtain ⟨k, hlog, rfl⟩ := Option.map_eq_some_iff.mp hdim
    obtain ⟨hlt, rfl⟩ := checkedNextPowerOfTwoLog_eq_some.mp hlog
    obtain ⟨hfit, rfl⟩ := checkedMul_eq_some.mp hcols
    obtain ⟨rfl, rfl⟩ := Prod.mk.inj (Except.ok.inj h)
    exact ⟨⟨not_lt.mp hitems, not_lt.mp hbits, hsum, hlt, hfit⟩,
      (checkedMul_eq_some.mp helements).1, hnew, rfl⟩
  · rintro ⟨hsized, helements, hnew, rfl⟩
    have hshape : ¬(itemSizeBits < POLY_LEN * profile.plaintextBits ∨ numItems < POLY_LEN) :=
      not_or.mpr ⟨not_lt.mpr hsized.itemSizeBits_ge, not_lt.mpr hsized.numItems_ge⟩
    have hrows := checkedRows_eq_some.mpr ⟨hsized.sum_lt, rfl⟩
    have hlog := checkedNextPowerOfTwoLog_eq_some.mpr ⟨hsized.log_lt, rfl⟩
    have hcols := checkedMul_some hsized.cols_lt
    have hall := checkedMul_some helements
    simp only [SimplePirProfile.expectedCols] at hcols hall
    rw [buildSimplepirParams, if_neg hshape, hrows]
    simp only [okOrInvalid, Option.elim_some, ok_bind, hlog, Option.map_some, hcols, hall, hnew]
    rfl

/-- The RLWE parameters of a profile.  The inverse of the degree is any residue, reduced or not. -/
structure Pinned (noiseWidth : F64 → F64) (rlwe : RlweFields) (profile : SimplePirProfile) :
    Prop where
  d : rlwe.d = POLY_LEN
  q : rlwe.q = SINGLE_CRT_Q
  p : rlwe.p = profile.plaintextModulus
  sigmaChi : rlwe.sigmaChi = SIGMA_CHI
  gadget : rlwe.gadget = GADGET
  delta : rlwe.delta = SINGLE_CRT_Q / profile.plaintextModulus
  dInv : POLY_LEN * rlwe.dInv % SINGLE_CRT_Q = 1
  spiral : rlwe.spiral =
    ⟨POLY_LEN, SINGLE_CRT_Q, profile.plaintextModulus, noiseWidth SIGMA_CHI⟩

theorem expectedRows_mod (numItems : ℕ) : expectedRows numItems % POLY_LEN = 0 :=
  Nat.mul_mod_left _ _

theorem expectedCols_mod (profile : SimplePirProfile) (itemSizeBits : ℕ) :
    profile.expectedCols itemSizeBits % POLY_LEN = 0 := Nat.mul_mod_left _ _

/-- Every item has a row. -/
theorem le_expectedRows (numItems : ℕ) : numItems ≤ expectedRows numItems := by
  unfold expectedRows POLY_LEN
  omega

/-- What has passed the comparison. -/
theorem pinned_of_validateProfileParts
    (h : validateProfileParts noiseWidth noiseBits fields ypir profile = .ok ()) :
    Pinned noiseWidth fields profile ∧ Sized profile ypir.numItems ypir.itemSizeBits ∧
      ypir = profile.scheme noiseBits ypir.numItems ypir.itemSizeBits := by
  obtain ⟨rows, hrows, h⟩ := bind_eq_ok h
  rw [okOrInvalid_eq_ok] at hrows
  obtain ⟨sum, hsum, rfl⟩ := Option.map_eq_some_iff.mp hrows
  obtain ⟨hsumLt, rfl⟩ := checkedAdd_eq_some.mp hsum
  split at h
  · cases h
  obtain ⟨cols, hcols, h⟩ := bind_eq_ok h
  obtain ⟨dim, hdim, h⟩ := bind_eq_ok h
  rw [okOrInvalid_eq_ok] at hcols hdim
  obtain ⟨hfit, rfl⟩ := checkedMul_eq_some.mp hcols
  obtain ⟨k, hlog, rfl⟩ := Option.map_eq_some_iff.mp hdim
  obtain ⟨hlt, rfl⟩ := checkedNextPowerOfTwoLog_eq_some.mp hlog
  dsimp only at h
  split at h
  · cases h
  next hparts =>
  simp only [not_or, not_not, not_lt] at hparts
  obtain ⟨hd, hq, hp, hsigma, hbitsPer, hell, hdelta, hdInv, hpolyLen, hmodulus, hptModulus,
    hwidth, hitems, hbits, hpoly, hypirP, hdim1, hdim2, hinst, hdbRows, hdbCols, -, -, hq1, hq2,
    hq2Bits, hleft, hright, hquery⟩ := hparts
  rw [hd, hq] at hdInv
  rw [hq, hp] at hdelta
  refine ⟨⟨hd, hq, hp, hsigma, ?_, hdelta, hdInv, ?_⟩, ⟨hitems, hbits, hsumLt, hlt, hfit⟩, ?_⟩
  · rcases hg : fields.gadget with ⟨bitsPer, ell⟩
    rw [hg] at hbitsPer hell
    dsimp only at hbitsPer hell
    rw [hbitsPer, hell]
  · rcases hs : fields.spiral with ⟨polyLen, modulus, ptModulus, width⟩
    rw [hs] at hpolyLen hmodulus hptModulus hwidth
    dsimp only at hpolyLen hmodulus hptModulus hwidth
    rw [hpolyLen, hmodulus, hptModulus, hwidth, hd, hq, hp, hsigma]
  · rw [hd] at hpoly
    rw [hp] at hypirP
    rcases ypir with ⟨⟨dbRows, queryBits⟩, numItems, itemSizeBits, polyLen, dbDim1, dbDim2,
      instances, dbCols, p, qPrime1, qPrime2, q2Bits, tExpLeft, tExpRight⟩
    dsimp only at *
    subst hpoly hypirP hdim1 hdim2 hinst hdbRows hdbCols hq1 hq2 hq2Bits hleft hright hquery
    rfl

/-- Pinned fields and the scheme of a sized shape pass the comparison. -/
theorem Pinned.validateProfileParts_ok (hpinned : Pinned noiseWidth fields profile)
    (hsized : Sized profile ypir.numItems ypir.itemSizeBits)
    (hscheme : ypir = profile.scheme noiseBits ypir.numItems ypir.itemSizeBits) :
    validateProfileParts noiseWidth noiseBits fields ypir profile = .ok () := by
  have hsum := checkedAdd_some hsized.sum_lt
  have hcols := checkedMul_some hsized.cols_lt
  have hlog := checkedNextPowerOfTwoLog_eq_some.mpr ⟨hsized.log_lt, rfl⟩
  have hrows := hsized.numItems_ge.trans (le_expectedRows _)
  have hdInv : fields.d * fields.dInv % fields.q = 1 := by
    rw [hpinned.d, hpinned.q]
    exact hpinned.dInv
  have hdelta : fields.delta = fields.q / fields.p := by
    rw [hpinned.q, hpinned.p]
    exact hpinned.delta
  have hfields : ypir.polyLen = POLY_LEN ∧ ypir.p = profile.plaintextModulus := by
    rw [hscheme]
    exact ⟨rfl, rfl⟩
  simp only [expectedRows] at hlog hrows
  rw [validateProfileParts]
  simp only [okOrInvalid, hsum, Option.map_some, Option.elim_some, ok_bind, hcols, hlog]
  rw [if_neg (not_lt.mpr hrows), if_neg]
  simp only [not_or, not_not, not_lt]
  refine ⟨hpinned.d, hpinned.q, hpinned.p, hpinned.sigmaChi, by rw [hpinned.gadget],
    by rw [hpinned.gadget], hdelta, hdInv, by rw [hpinned.spiral, hpinned.d],
    by rw [hpinned.spiral, hpinned.q], by rw [hpinned.spiral, hpinned.p],
    by rw [hpinned.spiral, hpinned.sigmaChi], hsized.numItems_ge, hsized.itemSizeBits_ge,
    hfields.1.trans hpinned.d.symm, hfields.2.trans hpinned.p.symm, ?_⟩
  rw [hpinned.d, hscheme]
  exact ⟨rfl, rfl, rfl, rfl, rfl, expectedRows_mod _, expectedCols_mod _ _, rfl, rfl,
    rfl, rfl, rfl, rfl⟩

/-- **What the comparison accepts.** -/
theorem validateProfileParts_ok_iff :
    validateProfileParts noiseWidth noiseBits fields ypir profile = .ok () ↔
      Pinned noiseWidth fields profile ∧ Sized profile ypir.numItems ypir.itemSizeBits ∧
        ypir = profile.scheme noiseBits ypir.numItems ypir.itemSizeBits :=
  ⟨pinned_of_validateProfileParts, fun ⟨hpinned, hsized, hscheme⟩ =>
    hpinned.validateProfileParts_ok hsized hscheme⟩

/-- The RLWE parameters that the constructor builds are pinned. -/
theorem pinned_of_new (noiseWidth : F64 → F64) {init : SpiralInit}
    (h : RlweParams.new init POLY_LEN SINGLE_CRT_Q profile.plaintextModulus SIGMA_CHI GADGET =
      .ok rlwe) : Pinned noiseWidth (.ofParams noiseWidth rlwe) profile := by
  obtain ⟨hd, hq, hp, hsigma, hgadget, -, -⟩ := RlweParams.new_eq_ok h
  have hdInv : rlwe.d * rlwe.dInv % rlwe.q = 1 := by
    rw [rlwe.dInv_mul, Nat.mod_eq_of_lt (by have := rlwe.three_le_q; omega)]
  rw [hd, hq] at hdInv
  exact
    { d := hd
      q := hq
      p := hp
      sigmaChi := hsigma
      gadget := hgadget
      delta := by rw [← hq, ← hp]; exact rlwe.delta_eq
      dInv := hdInv
      spiral := by rw [← hq, ← hp, ← hd, ← hsigma]; rfl }

/-- The fields of constructed parameters. -/
theorem Pinned.params (h : Pinned noiseWidth (.ofParams noiseWidth rlwe) profile) :
    rlwe.d = POLY_LEN ∧ rlwe.q = SINGLE_CRT_Q ∧ rlwe.p = profile.plaintextModulus ∧
      rlwe.sigmaChi = SIGMA_CHI ∧ rlwe.gadget = GADGET :=
  ⟨h.d, h.q, h.p, h.sigmaChi, h.gadget⟩

/-- Pinned parameters are built, over their polynomial layer. -/
theorem Pinned.new_iff (h : Pinned noiseWidth (.ofParams noiseWidth rlwe) profile)
    {init : SpiralInit} :
    RlweParams.new init POLY_LEN SINGLE_CRT_Q profile.plaintextModulus SIGMA_CHI GADGET =
      .ok rlwe ↔ init rlwe.d rlwe.q = some rlwe.spiral := by
  constructor
  · intro hnew
    exact (RlweParams.new_eq_ok hnew).2.2.2.2.2.2
  · intro hinit
    obtain ⟨hd, hq, hp, hsigma, hgadget⟩ := h.params
    have hell : rlwe.gadget.ell < 2 ^ 32 := by
      rw [hgadget]
      decide
    have hnew := rlwe.new_eq hinit hell
    rwa [hd, hq, hp, hsigma, hgadget] at hnew

end Derived

/-! ## What a profile promises -/

/-- What the protocol needs of its parameters. -/
structure SchemeParams.Fits (rlwe : RlweParams) (ypir : SchemeParams) : Prop where
  dbRows_mod : ypir.dbRows % rlwe.d = 0
  dbCols_mod : ypir.dbCols % rlwe.d = 0
  numItems_le : ypir.numItems ≤ ypir.dbRows
  itemSizeBits_le : ypir.itemSizeBits ≤ ypir.dbCols * Nat.log 2 rlwe.p
  q_lt : rlwe.q < 2 ^ 62
  gap_le : rlwe.q % rlwe.p ≤ rlwe.delta / 2
  digitsFit : DigitsFit rlwe
  gadget_lt : rlwe.gadget.bitsPer * (rlwe.gadget.ell - 1) < 64
  response_pos : 2 ≤ ypir.qPrime1
  response_lt : ypir.qPrime1 < 2 ^ 63
  queryBits_pos : 1 ≤ ypir.queryBits
  queryBits_le : ypir.queryBits ≤ modulusBits rlwe.q

section Promises

variable {noiseWidth : F64 → F64} {noiseBits : ℕ → ℕ → ℕ → ℕ} {profile : SimplePirProfile}
  {rlwe : RlweParams}

/-- An item fits into the chunks that it takes. -/
theorem le_expectedCols (profile : SimplePirProfile) (itemSizeBits : ℕ) :
    itemSizeBits ≤ profile.expectedCols itemSizeBits * profile.plaintextBits := by
  have hchunk : 0 < POLY_LEN * profile.plaintextBits := by
    cases profile <;> decide
  have hdiv := Nat.div_add_mod itemSizeBits (POLY_LEN * profile.plaintextBits)
  have hmod := Nat.mod_lt itemSizeBits hchunk
  rw [SimplePirProfile.expectedCols, SimplePirProfile.instances, mul_assoc]
  generalize POLY_LEN * profile.plaintextBits = chunk at hchunk hdiv hmod ⊢
  rw [Nat.add_mul, mul_comm (itemSizeBits / chunk)]
  split
  · omega
  · omega

/-- The width of the queries lies between one and the width of the modulus. -/
theorem queryBits_bounds (noiseBits : ℕ → ℕ → ℕ → ℕ) (profile : SimplePirProfile) (dbRows : ℕ) :
    1 ≤ profile.queryBits noiseBits dbRows ∧
      profile.queryBits noiseBits dbRows ≤ modulusBits SINGLE_CRT_Q := by
  have hmin : profile.minimumQueryBits ≤ modulusBits SINGLE_CRT_Q := by
    cases profile <;> decide
  have hone : 1 ≤ modulusBits SINGLE_CRT_Q := by decide
  unfold SimplePirProfile.queryBits queryModulusBits
  omega

theorem Pinned.fits (h : Pinned noiseWidth (.ofParams noiseWidth rlwe) profile)
    (numItems itemSizeBits : ℕ) :
    (profile.scheme noiseBits numItems itemSizeBits).Fits rlwe := by
  obtain ⟨hd, hq, hp, -, hgadget⟩ := h.params
  exact {
    dbRows_mod := by
      rw [hd]
      exact expectedRows_mod numItems
    dbCols_mod := by
      rw [hd]
      exact expectedCols_mod profile itemSizeBits
    numItems_le := le_expectedRows numItems
    itemSizeBits_le := by
      rw [hp, SimplePirProfile.plaintextModulus, Nat.log_pow one_lt_two]
      exact le_expectedCols profile itemSizeBits
    q_lt := by
      rw [hq]
      decide
    gap_le := by
      rw [rlwe.delta_eq, hq, hp]
      cases profile <;> decide
    digitsFit := by
      show rlwe.gadget.z / 2 ≤ rlwe.q
      rw [hq, hgadget]
      decide
    gadget_lt := by
      rw [hgadget]
      decide
    response_pos := show 2 ≤ Q_PRIME_1 by decide
    response_lt := show Q_PRIME_1 < 2 ^ 63 by decide
    queryBits_pos := (queryBits_bounds noiseBits profile _).1
    queryBits_le := by
      rw [hq]
      exact (queryBits_bounds noiseBits profile _).2 }

end Promises

/-- `ProductionSimplePirParams::new`, as its parts. -/
def productionNew (init : SpiralInit) (noiseWidth : F64 → F64) (noiseBits : ℕ → ℕ → ℕ → ℕ)
    (numItems itemSizeBits : ℕ) (profile : SimplePirProfile) :
    Outcome (RlweParams × SchemeParams) := do
  let (rlwe, ypir) ← buildSimplepirParams init noiseBits numItems itemSizeBits profile
  validateProfileParts noiseWidth noiseBits (.ofParams noiseWidth rlwe) ypir profile
  .ok (rlwe, ypir)

/-- **A profile and its check.**  The constructor never refuses its own parameters.  The check
accepts the pinned fields, with any residue of the inverse of the degree, and the scheme of a shape
that nothing overflows on; parameters with these fields are those that the constructor builds from
their own item count and item size, as long as the database has a size; and they fit the
protocol. -/
theorem production_profiles (init : SpiralInit) (noiseWidth : F64 → F64)
    (noiseBits : ℕ → ℕ → ℕ → ℕ) (profile : SimplePirProfile) :
    (∀ numItems itemSizeBits,
      productionNew init noiseWidth noiseBits numItems itemSizeBits profile =
        buildSimplepirParams init noiseBits numItems itemSizeBits profile) ∧
    (∀ (fields : RlweFields) (ypir : SchemeParams),
      validateProfileParts noiseWidth noiseBits fields ypir profile = .ok () ↔
        Pinned noiseWidth fields profile ∧ Sized profile ypir.numItems ypir.itemSizeBits ∧
          ypir = profile.scheme noiseBits ypir.numItems ypir.itemSizeBits) ∧
    (∀ (rlwe : RlweParams) (ypir : SchemeParams),
      buildSimplepirParams init noiseBits ypir.numItems ypir.itemSizeBits profile =
          .ok (rlwe, ypir) ↔
        init rlwe.d rlwe.q = some rlwe.spiral ∧
          validateProfileParts noiseWidth noiseBits (.ofParams noiseWidth rlwe) ypir profile =
            .ok () ∧ ypir.dbRows * ypir.dbCols < 2 ^ 64) ∧
    ∀ (rlwe : RlweParams) (ypir : SchemeParams),
      validateProfileParts noiseWidth noiseBits (.ofParams noiseWidth rlwe) ypir profile = .ok () →
        ypir.Fits rlwe := by
  refine ⟨fun numItems itemSizeBits => ?_, fun fields ypir => validateProfileParts_ok_iff,
    fun rlwe ypir => ⟨fun h => ?_, ?_⟩, fun rlwe ypir h => ?_⟩
  · rcases hbuild : buildSimplepirParams init noiseBits numItems itemSizeBits profile with
      e | ⟨rlwe, ypir⟩
    · rw [productionNew, hbuild, error_bind]
    · obtain ⟨hsized, -, hnew, rfl⟩ := buildSimplepirParams_ok_iff.mp hbuild
      have hvalid : validateProfileParts noiseWidth noiseBits (.ofParams noiseWidth rlwe)
          (profile.scheme noiseBits numItems itemSizeBits) profile = .ok () :=
        validateProfileParts_ok_iff.mpr ⟨pinned_of_new noiseWidth hnew, hsized, rfl⟩
      rw [productionNew, hbuild, ok_bind]
      dsimp only
      rw [hvalid, ok_bind]
  · obtain ⟨hsized, helements, hnew, hscheme⟩ := buildSimplepirParams_ok_iff.mp h
    have hpinned := pinned_of_new noiseWidth hnew
    refine ⟨hpinned.new_iff.mp hnew, validateProfileParts_ok_iff.mpr ⟨hpinned, hsized, hscheme⟩, ?_⟩
    rw [hscheme]
    exact helements
  · rintro ⟨hinit, hvalid, helements⟩
    obtain ⟨hpinned, hsized, hscheme⟩ := validateProfileParts_ok_iff.mp hvalid
    rw [hscheme] at helements
    exact buildSimplepirParams_ok_iff.mpr
      ⟨hsized, helements, hpinned.new_iff.mpr hinit, hscheme⟩
  · obtain ⟨hpinned, -, hscheme⟩ := validateProfileParts_ok_iff.mp h
    rw [hscheme]
    exact hpinned.fits _ _

/-- The smallest shape of the first profile. -/
def smallestScheme : SchemeParams := SimplePirProfile.p14.scheme (fun _ _ _ => 0) 2048 (2048 * 14)

/-- The fields of the first profile, with the inverse of the degree plus `excess`. -/
def p14Fields (noiseWidth : F64) (excess : ℕ) : RlweFields where
  d := POLY_LEN
  q := SINGLE_CRT_Q
  p := SimplePirProfile.p14.plaintextModulus
  sigmaChi := SIGMA_CHI
  gadget := GADGET
  delta := SINGLE_CRT_Q / SimplePirProfile.p14.plaintextModulus
  dInv := 72022409665552525 + excess
  spiral := ⟨POLY_LEN, SINGLE_CRT_Q, SimplePirProfile.p14.plaintextModulus, noiseWidth⟩

/-- The fields of the first profile pass at the smallest shape, an unreduced inverse passes as well,
and a smaller noise width does not. -/
theorem production_profiles_p14 :
    validateProfileParts id (fun _ _ _ => 0) (p14Fields SIGMA_CHI 0) smallestScheme .p14 = .ok () ∧
      validateProfileParts id (fun _ _ _ => 0) (p14Fields SIGMA_CHI SINGLE_CRT_Q) smallestScheme
        .p14 = .ok () ∧
      validateProfileParts id (fun _ _ _ => 0) (p14Fields (.finite false 1 (-2)) 0) smallestScheme
        .p14 ≠ .ok () := by
  have hcheck := (production_profiles (fun _ _ => none) id (fun _ _ _ => 0) .p14).2.1
  have hsized : Sized .p14 smallestScheme.numItems smallestScheme.itemSizeBits := by
    refine ⟨le_rfl, le_rfl, by decide, ?_, by decide⟩
    have hrows : expectedRows smallestScheme.numItems = 2 ^ 11 := by decide
    rw [hrows, Nat.clog_pow 2 11 one_lt_two]
    decide
  have hpinned (excess : ℕ) (hexcess : POLY_LEN * (p14Fields SIGMA_CHI excess).dInv %
      SINGLE_CRT_Q = 1) : Pinned id (p14Fields SIGMA_CHI excess) .p14 :=
    ⟨rfl, rfl, rfl, rfl, rfl, rfl, hexcess, rfl⟩
  refine ⟨(hcheck _ _).mpr ⟨hpinned 0 ?_, hsized, rfl⟩,
    (hcheck _ _).mpr ⟨hpinned _ ?_, hsized, rfl⟩, fun hok => ?_⟩
  · decide
  · decide
  · have hwidth := congrArg SpiralFields.noiseWidth ((hcheck _ _).mp hok).1.spiral
    exact absurd hwidth (by decide)

end SimplePir
