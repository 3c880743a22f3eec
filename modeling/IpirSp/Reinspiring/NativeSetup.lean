import IpirSp.Codec.LittleEndian
import IpirSp.Reinspiring.Decompose

/-!
# Setups, secrets and keys of the native packing

A setup is expanded from a seed: the identifier is a hash of the profile and the seed, and the masks
come from a generator seeded with the identifier.  The hash and the generator are parameters.  Keys
carry the identifier of the setup that they were made for, and the native packing compares it.
-/

namespace Reinspiring

open SpiralRs Inspiring MachineWord Codec

/-- A 32-byte identifier. -/
abbrev Digest := Fin 32 → UInt8

/-- The primitives that expand a setup. -/
structure Primitives where
  /-- `Sha256`. -/
  sha256 : List UInt8 → Digest
  /-- The words that `ChaCha20Rng::from_seed` produces, in order. -/
  nextU64 : Digest → ℕ → ℕ

/-- The bytes of a string literal. -/
def asciiBytes (s : String) : List UInt8 := s.toList.map fun c => UInt8.ofNat c.toNat

/-- A sampler `as u64`. -/
def SecretDistribution.index : SecretDistribution → ℕ
  | gaussian => 0
  | ternaryResearch => 1

variable {d q : ℕ}

/-- `encoding`. -/
def NativeParams.encoding (P : NativeParams d q) : List UInt8 :=
  asciiBytes "reinspiring-native-experimental-v1" ++
    [d, q, P.p, P.bits, P.ell, P.dropped, P.sampler.index].flatMap (leBytes 8)

/-- `NativeSetup`. -/
structure NativeSetup (P : NativeParams d q) where
  id : Digest
  w : List (Poly d)
  v : List (Poly d)
  length_w : w.length = P.ell
  length_v : v.length = P.ell
  w_lt : ∀ a ∈ w, ∀ i, a i < q
  v_lt : ∀ a ∈ v, ∀ i, a i < q

/-- The closure `draw` of `NativeSetup::new`, from word `start` of the generator on. -/
def drawMasks (prim : Primitives) (P : NativeParams d q) (id : Digest) (start : ℕ) :
    List (Poly d) :=
  (List.range P.ell).map fun j i => prim.nextU64 id (start + j * d + i) &&& (q - 1)

theorem drawMasks_lt (prim : Primitives) (P : NativeParams d q) (id : Digest) (start : ℕ) :
    ∀ a ∈ drawMasks prim P id start, ∀ i, a i < q := by
  intro a ha i
  obtain ⟨j, -, rfl⟩ := List.mem_map.mp ha
  exact mask_lt P.isPowerOfTwo _

theorem length_drawMasks (prim : Primitives) (P : NativeParams d q) (id : Digest) (start : ℕ) :
    (drawMasks prim P id start).length = P.ell := by
  rw [drawMasks, List.length_map, List.length_range]

/-- `NativeSetup::new`. -/
def NativeSetup.new (prim : Primitives) (P : NativeParams d q) (seed : Digest) : NativeSetup P :=
  let id := prim.sha256 (P.encoding ++ asciiBytes "/packing-masks/" ++ List.ofFn seed)
  { id
    w := drawMasks prim P id 0
    v := drawMasks prim P id (P.ell * d)
    length_w := length_drawMasks prim P id _
    length_v := length_drawMasks prim P id _
    w_lt := drawMasks_lt prim P id _
    v_lt := drawMasks_lt prim P id _ }

/-- `NativeKeys`: the uploaded bodies. -/
structure NativeKeys (d : ℕ) where
  id : Digest
  kg : List (Poly d)
  kh : List (Poly d)

/-- Canonical bodies. -/
structure NativeKeys.Canonical (q : ℕ) (keys : NativeKeys d) : Prop where
  kg_lt : ∀ a ∈ keys.kg, ∀ i, a i < q
  kh_lt : ∀ a ∈ keys.kh, ∀ i, a i < q

/-- `NativeCiphertext`. -/
structure NativeCiphertext (d : ℕ) where
  a : Poly d
  b : Poly d

/-- `NativeTwoMaskCiphertext`. -/
structure NativeTwoMaskCiphertext (d : ℕ) where
  a : Poly d
  aOther : Poly d
  b : Poly d

/-- `NativeCiphertext::from_rows`. -/
def NativeCiphertext.fromRows (P : NativeParams d q) (a b : Poly d) :
    Result (NativeCiphertext d) := do
  validatePoly P a
  validatePoly P b
  .ok ⟨a, b⟩

/-- `NativeTwoMaskCiphertext::from_rows`. -/
def NativeTwoMaskCiphertext.fromRows (P : NativeParams d q) (a aOther b : Poly d) :
    Result (NativeTwoMaskCiphertext d) := do
  validatePoly P a
  validatePoly P aOther
  validatePoly P b
  .ok ⟨a, aOther, b⟩

theorem NativeCiphertext.fromRows_ok (P : NativeParams d q) {a b : Poly d} (ha : ∀ i, a i < q)
    (hb : ∀ i, b i < q) : NativeCiphertext.fromRows P a b = .ok ⟨a, b⟩ := by
  rw [NativeCiphertext.fromRows, validatePoly_ok P ha, validatePoly_ok P hb]
  rfl

theorem NativeTwoMaskCiphertext.fromRows_ok (P : NativeParams d q) {a aOther b : Poly d}
    (ha : ∀ i, a i < q) (hother : ∀ i, aOther i < q) (hb : ∀ i, b i < q) :
    NativeTwoMaskCiphertext.fromRows P a aOther b = .ok ⟨a, aOther, b⟩ := by
  rw [NativeTwoMaskCiphertext.fromRows, validatePoly_ok P ha, validatePoly_ok P hother,
    validatePoly_ok P hb]
  rfl

end Reinspiring
