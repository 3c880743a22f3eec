import IpirSp.Negacyclic.Evaluation
import Mathlib.Data.ZMod.Basic

/-!
# The `spiral-rs` polynomial layer

All ring arithmetic of the repository runs through the external crate `spiral-rs`.  Its source is
not part of the repository, so the crate appears here as a parameter: `Params d q` bundles the
operations that the repository calls at ring degree `d` and modulus `q` with the properties that
the repository relies on.  They say that the forward transform evaluates at the odd powers of a
root of `X^d + 1` in some slot order, that the inverse transform undoes it with reduced words, that
matrix products and sums act slot by slot modulo `q`, and that an automorphism of a coefficient
vector is the substitution `X ↦ X^t`.  `IpirSp.SpiralRs.Reference` builds an instance.

A coefficient-form polynomial `Poly d` is a vector of machine words, which need not be reduced:
`automorph_alloc` returns the word `q` for a negated zero.  An NTT-form polynomial `Ntt d q` has
its words reduced by construction.

`Params.ring` reads an NTT-form polynomial as an element of `Z_q[X]/(X^d + 1)`.  The lemmas
`ring_toNtt`, `ring_addInto`, `ring_multiply` and `ring_eq_of_word` are all that later modules use.
-/

namespace SpiralRs

open Negacyclic

/-- A coefficient-form polynomial: `d` machine words. -/
abbrev Poly (d : ℕ) := Fin d → ℕ

/-- An NTT-form polynomial: one reduced word a slot. -/
@[ext] structure Ntt (d q : ℕ) where
  word : Fin d → ℕ
  lt : ∀ s, word s < q
deriving DecidableEq

/-- A matrix of NTT-form polynomials with the shape it has at run time.  `poly row col` is
`get_poly(row, col)`; no code reads it outside the shape. -/
structure PolyMatrixNTT (d q : ℕ) where
  rows : ℕ
  cols : ℕ
  poly : ℕ → ℕ → Ntt d q

namespace PolyMatrixNTT

variable {d q : ℕ}

/-- The first `n` entries of a row. -/
def row (m : PolyMatrixNTT d q) (r n : ℕ) (k : Fin n) : Ntt d q := m.poly r k

/-- The first `n` entries of the first column. -/
def col (m : PolyMatrixNTT d q) (n : ℕ) (k : Fin n) : Ntt d q := m.poly k 0

/-- `stack_ntt`. -/
def stack (a b : PolyMatrixNTT d q) : PolyMatrixNTT d q where
  rows := a.rows + b.rows
  cols := a.cols
  poly r c := if r < a.rows then a.poly r c else b.poly (r - a.rows) c

/-- A `1 × n` matrix from its entries. -/
def ofRow (n : ℕ) (f : ℕ → Ntt d q) : PolyMatrixNTT d q := ⟨1, n, fun _ c => f c⟩

/-- An `n × 1` matrix from its entries. -/
def ofCol (n : ℕ) (f : ℕ → Ntt d q) : PolyMatrixNTT d q := ⟨n, 1, fun r _ => f r⟩

/-- A matrix with every polynomial replaced by its image. -/
def map (f : Ntt d q → Ntt d q) (m : PolyMatrixNTT d q) : PolyMatrixNTT d q :=
  ⟨m.rows, m.cols, fun r c => f (m.poly r c)⟩

end PolyMatrixNTT

/-- Where a `ChaCha20Rng` is seeded from. -/
inductive Seed
  | bytes (seed : List ℕ)
  | u64 (seed : ℕ)
deriving DecidableEq

/-- The element of `Z_q[X]/(X^d + 1)` that a coefficient vector denotes. -/
noncomputable def Poly.ring (q : ℕ) {d : ℕ} (p : Poly d) : NegRing d (ZMod q) :=
  ofCoeffs fun i => (p i : ZMod q)

/-- The operations of `spiral-rs` at degree `d` and modulus `q`, with what the repository relies
on about each. -/
structure Params (d q : ℕ) where
  /-- `poly_len_log2`. -/
  logLen : ℕ
  polyLen_eq : d = 2 ^ logLen
  one_lt_modulus : 1 < q
  modulus_lt : q < 2 ^ 64
  polyLen_unit : IsUnit (d : ZMod q)
  /-- The evaluation points in slot order. -/
  slots : Slots d (ZMod q)
  /-- `to_ntt_alloc` of a `1 × 1` matrix. -/
  toNttAlloc : Poly d → Ntt d q
  toNttAlloc_word : ∀ p, (∀ i, p i < 2 ^ 64) → ∀ s,
    ((toNttAlloc p).word s : ZMod q) = ∑ i, (p i : ZMod q) * (slots.root ^ slots.exp s) ^ (i : ℕ)
  /-- `ntt_forward` on a slice of reduced words. -/
  nttForward : Poly d → Ntt d q
  nttForward_eq : ∀ p, (∀ i, p i < q) → nttForward p = toNttAlloc p
  /-- `from_ntt_alloc` of a `1 × 1` matrix. -/
  fromNttAlloc : Ntt d q → Poly d
  fromNttAlloc_lt : ∀ v i, fromNttAlloc v i < q
  toNttAlloc_fromNttAlloc : ∀ v, toNttAlloc (fromNttAlloc v) = v
  /-- One entry of `multiply`: a row times a column. -/
  multiply : {n : ℕ} → (Fin n → Ntt d q) → (Fin n → Ntt d q) → Ntt d q
  multiply_word : ∀ {n : ℕ} (row col : Fin n → Ntt d q) (s : Fin d),
    ((multiply row col).word s : ZMod q) = ∑ k, ((row k).word s : ZMod q) * (col k).word s
  /-- `add_into`, as the value left in its first argument. -/
  addInto : Ntt d q → Ntt d q → Ntt d q
  addInto_word : ∀ v w s, ((addInto v w).word s : ZMod q) = (v.word s : ZMod q) + w.word s
  /-- `scalar_multiply_alloc`, one entry. -/
  scalarMultiply : Ntt d q → Ntt d q → Ntt d q
  scalarMultiply_word : ∀ v w s,
    ((scalarMultiply v w).word s : ZMod q) = (v.word s : ZMod q) * w.word s
  /-- `-&a` on a coefficient vector. -/
  negRaw : Poly d → Poly d
  negRaw_le : ∀ p, (∀ i, p i ≤ q) → ∀ i, negRaw p i ≤ q
  negRaw_cast : ∀ p, (∀ i, p i ≤ q) → ∀ i, (negRaw p i : ZMod q) = -(p i : ZMod q)
  /-- `automorph_alloc` of a `1 × 1` matrix. -/
  automorphAlloc : Poly d → ℕ → Poly d
  automorphAlloc_le : ∀ p t, Odd t → (∀ i, p i ≤ q) → ∀ i, automorphAlloc p t i ≤ q
  ring_automorphAlloc : ∀ p t, Odd t → (∀ i, p i ≤ q) →
    Poly.ring q (automorphAlloc p t) = tau t (Poly.ring q p)
  /-- `barrett_reduction_u128`. -/
  barrettReductionU128 : ℕ → ℕ
  barrettReductionU128_eq : ∀ x < 2 ^ 128, barrettReductionU128 x = x % q
  barrettReductionU128_lt : ∀ x, barrettReductionU128 x < q
  /-- `get_bits_per`. -/
  getBitsPer : ℕ → ℕ
  /-- The constant coefficient of entry `k` of `build_gadget(1, ell)`. -/
  buildGadget : ℕ → ℕ → ℕ
  buildGadget_eq : ∀ ell k,
    buildGadget ell k = if getBitsPer ell * k < 64 then 2 ^ (getBitsPer ell * k) else 0
  /-- The `k`-th polynomial that `PolyMatrixRaw::random_rng` draws from a freshly seeded
  `ChaCha20Rng`. -/
  randomRng : Seed → ℕ → Poly d
  randomRng_lt : ∀ seed k i, randomRng seed k i < q

variable {d q : ℕ}

namespace Poly

theorem ring_congr {p p' : Poly d} (h : ∀ i, (p i : ZMod q) = p' i) :
    Poly.ring q p = Poly.ring q p' := by
  rw [Poly.ring, Poly.ring, funext h]

theorem ring_mod (p : Poly d) : Poly.ring q (fun i => p i % q) = Poly.ring q p :=
  ring_congr fun i => by simp

@[simp] theorem coeff_ring [NeZero d] (p : Poly d) (i : Fin d) :
    coeff (Poly.ring q p) i = (p i : ZMod q) :=
  coeff_ofCoeffs _ i

theorem ring_zero : Poly.ring q (fun _ : Fin d => 0) = 0 := by
  simp only [Poly.ring, Nat.cast_zero]
  exact map_zero _

/-- Storing a word changes one coefficient. -/
theorem ring_update [NeZero d] (p : Poly d) (i : Fin d) (w : ℕ) :
    Poly.ring q (Function.update p i w) =
      Poly.ring q p + ((w : ZMod q) - p i) • x ^ (i : ℕ) := by
  refine ext_coeff fun k => ?_
  rw [coeff_ring, coeff_add, coeff_ring, coeff_smul, coeff_x_pow_of_lt i.2]
  by_cases hk : k = i
  · subst hk
    simp
  · have hne : (i : ℕ) ≠ k := fun h => hk (Fin.ext h.symm)
    simp [Function.update_of_ne hk, hne]

end Poly

/-- Reduced words are determined by their residues. -/
theorem Ntt.ext_cast {v w : Ntt d q} (h : ∀ s, (v.word s : ZMod q) = w.word s) : v = w := by
  ext s
  have hmod := (ZMod.natCast_eq_natCast_iff _ _ q).mp (h s)
  rwa [Nat.ModEq, Nat.mod_eq_of_lt (v.lt s), Nat.mod_eq_of_lt (w.lt s)] at hmod

namespace Params

theorem polyLen_pos (S : Params d q) : 0 < d := S.polyLen_eq ▸ Nat.two_pow_pos _

theorem modulus_pos (S : Params d q) : 0 < q := by have := S.one_lt_modulus; omega

/-- Reduced coefficients are words. -/
theorem lt_word_of_le (S : Params d q) {x : ℕ} (h : x ≤ q) : x < 2 ^ 64 :=
  h.trans_lt S.modulus_lt

variable (S : Params d q)

/-- `PolyMatrixNTT::zero`, one entry. -/
def zeroNtt : Ntt d q := ⟨fun _ => 0, fun _ => S.modulus_pos⟩

/-- The element of `Z_q[X]/(X^d + 1)` that an NTT-form polynomial denotes. -/
noncomputable def ring (v : Ntt d q) : NegRing d (ZMod q) := Poly.ring q (S.fromNttAlloc v)

theorem eval_polyRing (s : Fin d) (p : Poly d) : S.slots.eval s (Poly.ring q p) =
    ∑ i, (p i : ZMod q) * (S.slots.root ^ S.slots.exp s) ^ (i : ℕ) :=
  S.slots.eval_ofCoeffs s _

theorem toNttAlloc_word_eq_eval {p : Poly d} (hp : ∀ i, p i < 2 ^ 64) (s : Fin d) :
    ((S.toNttAlloc p).word s : ZMod q) = S.slots.eval s (Poly.ring q p) := by
  rw [S.toNttAlloc_word p hp, S.eval_polyRing]

/-- **The words of an NTT-form polynomial are the values of the ring element it denotes.** -/
@[simp] theorem eval_ring (v : Ntt d q) (s : Fin d) : S.slots.eval s (S.ring v) = v.word s := by
  have hlt (i : Fin d) : S.fromNttAlloc v i < 2 ^ 64 :=
    (S.fromNttAlloc_lt v i).trans S.modulus_lt
  rw [ring, ← S.toNttAlloc_word_eq_eval hlt, S.toNttAlloc_fromNttAlloc]

/-- A ring element is identified by its slot values. -/
theorem ring_eq_of_word {v : Ntt d q} {a : NegRing d (ZMod q)}
    (h : ∀ s, (v.word s : ZMod q) = S.slots.eval s a) : S.ring v = a := by
  refine S.slots.values_injective S.polyLen_eq S.polyLen_unit (funext fun s => ?_)
  rw [Slots.values_apply, Slots.values_apply, S.eval_ring, h s]

theorem ring_injective : Function.Injective S.ring := by
  intro v w h
  exact Ntt.ext_cast fun s => by rw [← S.eval_ring, ← S.eval_ring, h]

@[simp] theorem ring_toNttAlloc {p : Poly d} (hp : ∀ i, p i < 2 ^ 64) :
    S.ring (S.toNttAlloc p) = Poly.ring q p :=
  S.ring_eq_of_word (S.toNttAlloc_word_eq_eval hp)

@[simp] theorem ring_zeroNtt : S.ring S.zeroNtt = 0 :=
  S.ring_eq_of_word fun s => by simp [zeroNtt]

@[simp] theorem ring_addInto (v w : Ntt d q) : S.ring (S.addInto v w) = S.ring v + S.ring w :=
  S.ring_eq_of_word fun s => by rw [S.addInto_word, map_add, S.eval_ring, S.eval_ring]

@[simp] theorem ring_scalarMultiply (v w : Ntt d q) :
    S.ring (S.scalarMultiply v w) = S.ring v * S.ring w :=
  S.ring_eq_of_word fun s => by rw [S.scalarMultiply_word, map_mul, S.eval_ring, S.eval_ring]

theorem ring_negRaw {p : Poly d} (hp : ∀ i, p i ≤ q) :
    Poly.ring q (S.negRaw p) = -Poly.ring q p := by
  rw [Poly.ring, Poly.ring, ← map_neg]
  exact congrArg ofCoeffs (funext (S.negRaw_cast p hp))

@[simp] theorem ring_multiply {n : ℕ} (row col : Fin n → Ntt d q) :
    S.ring (S.multiply row col) = ∑ k, S.ring (row k) * S.ring (col k) := by
  refine S.ring_eq_of_word fun s => ?_
  rw [S.multiply_word, map_sum]
  refine Finset.sum_congr rfl fun k _ => ?_
  rw [map_mul, S.eval_ring, S.eval_ring]

end Params

end SpiralRs
