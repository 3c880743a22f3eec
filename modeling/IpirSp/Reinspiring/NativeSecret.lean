import IpirSp.Loops.Stateful
import IpirSp.Reinspiring.NativeTrace

/-!
# Secrets and client keys of the native packing

What the client does with its secret: it samples it, encrypts a selection and the bodies of the two
automorphism keys, and takes the phase of a packed ciphertext.  The generator is a parameter; a
program that draws from it threads its state.
-/

namespace Reinspiring

open Negacyclic SpiralRs Inspiring Loops MachineWord

/-- The generator of a client: `ChaCha20Rng`, and the pinned Gaussian sampler that draws from it. -/
structure Generator (R : Type) where
  nextU64 : R → ℕ × R
  nextU32 : R → ℕ × R
  /-- `NativeGaussian::sample`. -/
  gaussian : ℕ → R → ℕ × R
  /-- No state is followed by words `u32::MAX` only. -/
  exists_nextU32 : ∀ rng, ∃ n, (nextU32 ((fun r => (nextU32 r).2)^[n] rng)).1 < 2 ^ 32 - 1

/-- `gaussian().max_val()`. -/
def gaussianMaxVal : ℕ := 65

/-- The samples are canonical and within the support of the frozen table. -/
structure Generator.Bounded {R : Type} (gen : Generator R) (q : ℕ) : Prop where
  lt : ∀ rng, (gen.gaussian q rng).1 < q
  le : ∀ rng, (centered (gen.gaussian q rng).1 q).natAbs ≤ gaussianMaxVal

/-- A program that draws from a generator. -/
abbrev Drawn (R α : Type) := StateT R (Except (Failure ReinspiringError)) α

variable {d q : ℕ} {R : Type}

/-- One draw for each coefficient, in order. -/
def drawPoly (d : ℕ) (draw : R → ℕ × R) : Drawn R (Poly d) := fun rng =>
  .ok (fun i => (draw ((fun r => (draw r).2)^[i] rng)).1, (fun r => (draw r).2)^[d] rng)

/-- The loop of the ternary sampler: words `u32::MAX` are rejected. -/
def Generator.ternary (gen : Generator R) (q : ℕ) (rng : R) : ℕ × R :=
  let accepted := (fun r => (gen.nextU32 r).2)^[Nat.find (gen.exists_nextU32 rng)] rng
  (match (gen.nextU32 accepted).1 % 3 with
    | 0 => q - 1
    | 1 => 0
    | _ => 1, (gen.nextU32 accepted).2)

/-- `NativeSecret`. -/
structure NativeSecret (P : NativeParams d q) where
  coeffs : Poly d

namespace NativeSecret

variable {P : NativeParams d q}

/-- `NativeSecret::sample`. -/
def sample (gen : Generator R) (P : NativeParams d q) : Drawn R (NativeSecret P) := do
  let coeffs ← drawPoly d fun rng => match P.sampler with
    | .gaussian => gen.gaussian q rng
    | .ternaryResearch => gen.ternary q rng
  pure ⟨coeffs⟩

/-- One block of `encrypt_selection`. -/
def encryptBlock (gen : Generator R) (lift : LiftContext d q) (secret : NativeSecret P)
    (target : ℕ) (item : Poly d × ℕ) : Drawn R (Poly d) := do
  let (poly, block) := item
  stateless (validatePoly P poly)
  let inverse := tauCoeffs poly (2 * d - 1) q
  let inner ← stateless (lift.multiply inverse secret.coeffs)
  let noise ← drawPoly d (gen.gaussian q)
  pure fun i =>
    let selection := q / P.p &&& wrappingNeg (if block * d + i = target then 1 else 0)
    wrappingSub (wrappingAdd selection (noise i)) (inner i) &&& (q - 1)

/-- `encrypt_selection`, in blocks of `d` words. -/
def encryptSelection (lib : NumberTheory) (gen : Generator R) (secret : NativeSecret P)
    (polys : List (Poly d)) (target : ℕ) : Drawn R (List (Poly d)) :=
  if polys = [] ∨ target ≥ min (polys.length * d) (W64 - 1) then
    stateless (invalidParams "selection out of range")
  else do
    let lift ← stateless (LiftContext.new lib d q)
    polys.zipIdx.mapM (secret.encryptBlock gen lift target)

/-- `phase`. -/
def phase (lib : NumberTheory) (secret : NativeSecret P) (ct : NativeCiphertext d) :
    Result (Poly d) := do
  let lift ← LiftContext.new lib d q
  let prod ← lift.multiply ct.a secret.coeffs
  .ok fun i => prod i + ct.b i &&& (q - 1)

/-- `phase_two_mask`. -/
def phaseTwoMask (lib : NumberTheory) (secret : NativeSecret P) (ct : NativeTwoMaskCiphertext d) :
    Result (Poly d) := do
  let lift ← LiftContext.new lib d q
  let first ← lift.multiply ct.a secret.coeffs
  let conjugate := tauCoeffs secret.coeffs (2 * d - 1) q
  let second ← lift.multiply ct.aOther conjugate
  .ok fun i => ct.b i + first i + second i &&& (q - 1)

end NativeSecret

/-- The plaintext of a phase coefficient. -/
def NativeParams.decodeWord (P : NativeParams d q) (x : ℕ) : ℕ :=
  let delta := q / P.p
  (x + delta / 2) / delta &&& (P.p - 1)

namespace NativeSecret

variable {P : NativeParams d q}

/-- `decrypt`. -/
def decrypt (lib : NumberTheory) (secret : NativeSecret P) (ct : NativeCiphertext d) :
    Result (Poly d) := do
  let phase ← secret.phase lib ct
  .ok fun i => P.decodeWord (phase i)

/-- `decrypt_two_mask`. -/
def decryptTwoMask (lib : NumberTheory) (secret : NativeSecret P)
    (ct : NativeTwoMaskCiphertext d) : Result (Poly d) := do
  let phase ← secret.phaseTwoMask lib ct
  .ok fun i => P.decodeWord (phase i)

/-- The largest distance of a phase from the encoding of the expected plaintexts. -/
def maxError (P : NativeParams d q) (phase expected : Poly d) : ℕ := Finset.univ.sup fun i =>
  (centered (wrappingSub (phase i) (expected i * (q / P.p)) &&& (q - 1)) q).natAbs

/-- `phase_error`. -/
def phaseError (lib : NumberTheory) (secret : NativeSecret P) (ct : NativeCiphertext d)
    (expected : Poly d) : Result ℕ :=
  if ∃ i, expected i ≥ P.p then invalidParams "invalid expected plaintext"
  else do
    let phase ← secret.phase lib ct
    .ok (maxError P phase expected)

/-- `phase_error_two_mask`. -/
def phaseErrorTwoMask (lib : NumberTheory) (secret : NativeSecret P)
    (ct : NativeTwoMaskCiphertext d) (expected : Poly d) : Result ℕ :=
  if ∃ i, expected i ≥ P.p then invalidParams "invalid expected plaintext"
  else do
    let phase ← secret.phaseTwoMask lib ct
    .ok (maxError P phase expected)

end NativeSecret

namespace NativeKeys

variable {P : NativeParams d q}

/-- One body of the closure `bodies` of `generate_internal`. -/
def generateBody (gen : Generator R) (lift : LiftContext d q) (secret : NativeSecret P)
    (source : Poly d) (item : Poly d × ℕ) : Drawn R (Poly d) := do
  let (w, j) := item
  let ws ← stateless (lift.multiply w secret.coeffs)
  let noise ← drawPoly d (gen.gaussian q)
  pure fun i =>
    wrappingSub (wrappingAdd (wrappingMul (source i) (P.factor j)) (noise i)) (ws i) &&& (q - 1)

/-- The closure `bodies` of `generate_internal`. -/
def generateBodies (gen : Generator R) (lift : LiftContext d q) (secret : NativeSecret P)
    (mask : List (Poly d)) (g : ℕ) : Drawn R (List (Poly d)) :=
  mask.zipIdx.mapM (generateBody gen lift secret (tauCoeffs secret.coeffs g q))

/-- `generate_internal`. -/
def generateInternal (lib : NumberTheory) (gen : Generator R) (setup : NativeSetup P)
    (secret : NativeSecret P) (oneKey : Bool) : Drawn R (NativeKeys d) := do
  let lift ← stateless (LiftContext.new lib d q)
  let kg ← generateBodies gen lift secret setup.w (5 % (2 * d))
  let kh ← (if oneKey then pure [] else generateBodies gen lift secret setup.v (2 * d - 1))
  pure ⟨setup.id, kg, kh⟩

/-- `generate`. -/
def generate (lib : NumberTheory) (gen : Generator R) (setup : NativeSetup P)
    (secret : NativeSecret P) : Drawn R (NativeKeys d) :=
  generateInternal lib gen setup secret false

/-- `generate_one_key`. -/
def generateOneKey (lib : NumberTheory) (gen : Generator R) (setup : NativeSetup P)
    (secret : NativeSecret P) : Drawn R (NativeKeys d) :=
  generateInternal lib gen setup secret true

end NativeKeys

/-- The words of a list of polynomials. -/
def flatWords (polys : List (Poly d)) : List ℕ := polys.flatMap List.ofFn

/-- `chunks_exact(d)`. -/
def chunksExact (d : ℕ) (words : List ℕ) : List (Poly d) :=
  (List.range (words.length / d)).map fun j i => words.getD (j * d + i) 0

namespace NativeKeys

variable {P : NativeParams d q}

/-- `kg_words`. -/
def kgWords (keys : NativeKeys d) : List ℕ := flatWords keys.kg

/-- `words`. -/
def words (keys : NativeKeys d) : List ℕ := flatWords (keys.kg ++ keys.kh)

/-- `from_kg_words`. -/
def fromKgWords (setup : NativeSetup P) (words : List ℕ) : Result (NativeKeys d) :=
  if words.length ≠ P.ell * d ∨ ∃ x ∈ words, x ≥ q then invalidParams "malformed native K_g"
  else .ok ⟨setup.id, chunksExact d words, []⟩

/-- `from_words`. -/
def fromWords (setup : NativeSetup P) (words : List ℕ) : Result (NativeKeys d) :=
  if words.length ≠ 2 * P.ell * d ∨ ∃ x ∈ words, x ≥ q then invalidParams "malformed native keys"
  else
    let chunks := chunksExact d words
    .ok ⟨setup.id, chunks.take P.ell, chunks.drop P.ell⟩

end NativeKeys

/-! ## Words and chunks -/

section Words

@[simp] theorem length_flatWords (polys : List (Poly d)) :
    (flatWords polys).length = polys.length * d := by
  simp [flatWords, List.length_flatMap]

theorem lt_of_mem_flatWords {polys : List (Poly d)} (h : ∀ a ∈ polys, ∀ i, a i < q) {x : ℕ}
    (hx : x ∈ flatWords polys) : x < q := by
  obtain ⟨a, ha, hx⟩ := List.mem_flatMap.mp hx
  obtain ⟨i, rfl⟩ := (List.mem_ofFn' _ _).mp hx
  exact h a ha i

theorem getD_flatWords {polys : List (Poly d)} {j : ℕ} (hj : j < polys.length) (i : Fin d) :
    (flatWords polys).getD (j * d + i) 0 = polys[j] i := by
  induction polys generalizing j with
  | nil => exact absurd hj (Nat.not_lt_zero j)
  | cons a polys ih =>
      rw [flatWords, List.flatMap_cons]
      cases j with
      | zero =>
          rw [zero_mul, zero_add, List.getD_append _ _ _ _ (by simp),
            List.getD_eq_getElem _ _ (by simp), List.getElem_ofFn]
          rfl
      | succ j =>
          have hstep : (j + 1) * d + i - (List.ofFn a).length = j * d + i := by
            rw [List.length_ofFn, Nat.add_mul, one_mul]
            omega
          have hpast : (List.ofFn a).length ≤ (j + 1) * d + i := by
            rw [List.length_ofFn, Nat.add_mul, one_mul]
            omega
          rw [List.getD_append_right _ _ _ _ hpast, hstep]
          exact ih (Nat.lt_of_succ_lt_succ hj)

@[simp] theorem length_chunksExact (d : ℕ) (words : List ℕ) :
    (chunksExact d words).length = words.length / d := by
  rw [chunksExact, List.length_map, List.length_range]

theorem getElem_chunksExact {words : List ℕ} {j : ℕ} (hj : j < (chunksExact d words).length) :
    (chunksExact d words)[j] = fun i : Fin d => words.getD (j * d + i) 0 := by
  simp [chunksExact]

/-- **Chunks of words are the polynomials.** -/
theorem chunksExact_flatWords (hd : 0 < d) (polys : List (Poly d)) :
    chunksExact d (flatWords polys) = polys := by
  refine List.ext_getElem ?_ fun j hj hj' => ?_
  · rw [length_chunksExact, length_flatWords, Nat.mul_div_cancel _ hd]
  · rw [getElem_chunksExact]
    funext i
    exact getD_flatWords hj' i

/-- **The polynomials are the chunks of the words.** -/
theorem flatWords_chunksExact {words : List ℕ} (hd : d ∣ words.length) (hpos : 0 < d) :
    flatWords (chunksExact d words) = words := by
  refine List.ext_getElem ?_ fun k hk hk' => ?_
  · rw [length_flatWords, length_chunksExact, Nat.div_mul_cancel hd]
  · have hj : k / d < (chunksExact d words).length := by
      rw [length_flatWords] at hk
      exact Nat.div_lt_of_lt_mul (by rwa [mul_comm])
    have hword := getD_flatWords hj ⟨k % d, Nat.mod_lt k hpos⟩
    have hsplit : k / d * d + k % d = k := Nat.div_add_mod' k d
    rw [getElem_chunksExact] at hword
    simp only [hsplit] at hword
    rwa [List.getD_eq_getElem _ _ hk, List.getD_eq_getElem _ _ hk'] at hword

theorem flatWords_append (as bs : List (Poly d)) :
    flatWords (as ++ bs) = flatWords as ++ flatWords bs := List.flatMap_append

theorem map_flatWords (f : ℕ → ℕ) (polys : List (Poly d)) :
    (flatWords polys).map f = flatWords (polys.map fun a i => f (a i)) := by
  rw [flatWords, flatWords, List.map_flatMap, List.flatMap_map]
  refine List.flatMap_congr fun a _ => ?_
  rw [List.map_ofFn]
  rfl

end Words

/-! ## What the programs return -/

section Results

variable {P : NativeParams d q}

theorem yields_drawPoly {draw : R → ℕ × R} (post : ℕ → Prop) (h : ∀ rng, post (draw rng).1) :
    Yields (drawPoly d draw) fun a => ∀ i, post (a i) := by
  intro rng a rng' hrun i
  cases hrun
  exact h _

theorem returns_drawPoly (draw : R → ℕ × R) : Returns (drawPoly d draw) :=
  fun rng => ⟨_, (fun r => (draw r).2)^[d] rng, rfl⟩

theorem NativeKeys.yields_generateBodies (gen : Generator R) (lift : LiftContext d q)
    (secret : NativeSecret P) (mask : List (Poly d)) (g : ℕ) :
    Yields (generateBodies gen lift secret mask g) fun bodies =>
      bodies.length = mask.length ∧ ∀ a ∈ bodies, ∀ i, a i < q := by
  have hbody : ∀ item ∈ mask.zipIdx,
      Yields (generateBody gen lift secret (tauCoeffs secret.coeffs g q) item)
        fun a => ∀ i, a i < q := by
    rintro ⟨w, j⟩ -
    refine (yields_stateless _).bind fun ws _ => ?_
    refine Yields.bind (fun _ _ _ _ => trivial) fun noise _ => Yields.pure fun i => ?_
    exact mask_lt P.isPowerOfTwo _
  have hlen : mask.zipIdx.length = mask.length := List.length_zipIdx
  rw [← hlen]
  exact yields_mapM_all hbody

/-- **Generated keys** are those of the setup, with canonical bodies. -/
theorem NativeKeys.yields_generateInternal (lib : NumberTheory) (gen : Generator R)
    (setup : NativeSetup P) (secret : NativeSecret P) (oneKey : Bool) :
    Yields (generateInternal lib gen setup secret oneKey) fun keys =>
      keys.id = setup.id ∧ keys.kg.length = P.ell ∧
        keys.kh.length = (if oneKey then 0 else P.ell) ∧ keys.Canonical q := by
  refine (yields_stateless _).bind fun lift _ => ?_
  refine (yields_generateBodies gen lift secret setup.w _).bind fun kg hkg => ?_
  have hkh : Yields (if oneKey then pure []
      else generateBodies gen lift secret setup.v (2 * d - 1)) fun kh =>
        kh.length = (if oneKey then 0 else P.ell) ∧ ∀ a ∈ kh, ∀ i, a i < q := by
    cases oneKey with
    | true => exact Yields.pure ⟨rfl, fun a ha => absurd ha List.not_mem_nil⟩
    | false =>
        have hbodies := yields_generateBodies gen lift secret setup.v (2 * d - 1)
        rwa [setup.length_v] at hbodies
  refine hkh.bind fun kh hkh => Yields.pure ?_
  exact ⟨rfl, hkg.1.trans setup.length_w, hkh.1, hkg.2, hkh.2⟩

/-- **An encrypted selection** has one canonical block for each block of masks. -/
theorem NativeSecret.yields_encryptSelection (lib : NumberTheory) (gen : Generator R)
    (secret : NativeSecret P) (polys : List (Poly d)) (target : ℕ) :
    Yields (secret.encryptSelection lib gen polys target) fun blocks =>
      blocks.length = polys.length ∧ ∀ a ∈ blocks, ∀ i, a i < q := by
  rw [encryptSelection]
  split
  · exact (yields_stateless _).mono fun blocks h => absurd h (by rintro ⟨⟩)
  · refine (yields_stateless _).bind fun lift _ => ?_
    have hblock : ∀ item ∈ polys.zipIdx,
        Yields (secret.encryptBlock gen lift target item) fun a => ∀ i, a i < q := by
      rintro ⟨poly, block⟩ -
      refine (yields_stateless _).bind fun _ _ => ?_
      refine (yields_stateless _).bind fun inner _ => ?_
      refine Yields.bind (fun _ _ _ _ => trivial) fun noise _ => Yields.pure fun i => ?_
      exact mask_lt P.isPowerOfTwo _
    have hlen : polys.zipIdx.length = polys.length := List.length_zipIdx
    rw [← hlen]
    exact yields_mapM_all hblock

/-! ### Success -/

theorem NativeSecret.yields_sample {gen : Generator R} (hgen : gen.Bounded q)
    (hsampler : P.sampler = .gaussian) :
    Yields (sample gen P) fun secret => ∀ i, secret.coeffs i < q ∧
      (centered (secret.coeffs i) q).natAbs ≤ gaussianMaxVal := by
  refine (yields_drawPoly (fun x => x < q ∧ (centered x q).natAbs ≤ gaussianMaxVal)
    fun rng => ?_).bind fun coeffs h => Yields.pure h
  rw [hsampler]
  exact ⟨hgen.lt rng, hgen.le rng⟩

theorem NativeSecret.returns_sample (gen : Generator R) (P : NativeParams d q) :
    Returns (sample gen P) :=
  (returns_drawPoly _).bind (fun _ _ _ _ => trivial) fun _ _ => returns_pure _

/-- A product of canonical operands is returned. -/
theorem returns_multiply (lift : LiftContext d q) {a b : Poly d} (ha : ∀ i, a i < q)
    (hb : ∀ i, b i < q) :
    Returns (stateless (lift.multiply a b) : Drawn R (Poly d)) := by
  obtain ⟨out, hout, -⟩ := lift.multiply_spec ha hb
  exact returns_stateless hout

theorem NativeKeys.returns_generateBodies (gen : Generator R) (lift : LiftContext d q)
    {secret : NativeSecret P} (hsecret : ∀ i, secret.coeffs i < q) {mask : List (Poly d)}
    (hmask : ∀ w ∈ mask, ∀ i, w i < q) (g : ℕ) :
    Returns (generateBodies gen lift secret mask g) := by
  refine returns_mapM ?_
  rintro ⟨w, j⟩ hitem
  have hw := hmask w (List.fst_mem_of_mem_zipIdx hitem)
  refine (returns_multiply lift hw hsecret).bind (fun _ _ _ _ => trivial) fun ws _ => ?_
  refine (returns_drawPoly _).bind (fun _ _ _ _ => trivial) fun noise _ => returns_pure _

theorem NativeKeys.returns_generateInternal {lib : NumberTheory} (gen : Generator R)
    (setup : NativeSetup P) {secret : NativeSecret P} (hsecret : ∀ i, secret.coeffs i < q)
    {lift : LiftContext d q} (hlift : LiftContext.new lib d q = .ok lift) (oneKey : Bool) :
    Returns (generateInternal lib gen setup secret oneKey) := by
  refine (returns_stateless hlift).bind (fun _ _ _ _ => trivial) fun lift' _ => ?_
  refine (returns_generateBodies gen lift' hsecret setup.w_lt _).bind (fun _ _ _ _ => trivial)
    fun kg _ => ?_
  have hkh : Returns (if oneKey then pure []
      else generateBodies gen lift' secret setup.v (2 * d - 1)) := by
    cases oneKey with
    | true => exact returns_pure []
    | false => exact returns_generateBodies gen lift' hsecret setup.v_lt _
  exact hkh.bind (fun _ _ _ _ => trivial) fun kh _ => returns_pure _

theorem NativeSecret.returns_encryptSelection {lib : NumberTheory} (gen : Generator R)
    {secret : NativeSecret P} (hsecret : ∀ i, secret.coeffs i < q)
    {lift : LiftContext d q} (hlift : LiftContext.new lib d q = .ok lift) {polys : List (Poly d)}
    (hpolys : ∀ a ∈ polys, ∀ i, a i < q) {target : ℕ} (htarget : target < polys.length * d)
    (hrows : polys.length * d < W64) :
    Returns (secret.encryptSelection lib gen polys target) := by
  have hrange : ¬(polys = [] ∨ target ≥ min (polys.length * d) (W64 - 1)) := by
    rintro (rfl | hge)
    · simp at htarget
    · rcases le_total (polys.length * d) (W64 - 1) with hle | hle
      · rw [min_eq_left hle] at hge
        omega
      · rw [min_eq_right hle] at hge
        omega
  rw [encryptSelection, if_neg hrange]
  refine (returns_stateless hlift).bind (fun _ _ _ _ => trivial) fun lift' _ => returns_mapM ?_
  rintro ⟨poly, block⟩ hitem
  have hpoly := hpolys poly (List.fst_mem_of_mem_zipIdx hitem)
  refine (returns_stateless (validatePoly_ok P hpoly)).bind (fun _ _ _ _ => trivial) fun _ _ => ?_
  refine (returns_multiply lift' (tauCoeffs_lt P.q_pos poly _) hsecret).bind
    (fun _ _ _ _ => trivial) fun inner _ => ?_
  refine (returns_drawPoly _).bind (fun _ _ _ _ => trivial) fun noise _ => returns_pure _

end Results

end Reinspiring
