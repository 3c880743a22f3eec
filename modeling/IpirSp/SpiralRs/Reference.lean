import IpirSp.SpiralRs.Automorph

/-!
# A reference polynomial layer

`Params.reference` implements `SpiralRs.Params` by definition rather than by fast algorithms: the
transform sums over coefficients, its inverse is the interpolation formula divided by `d`, and
`automorph_alloc` is the scatter loop, `scatterAutomorph`.  It exists for every power-of-two degree
that is invertible modulo `q` and every root of `X^d + 1`, in every slot order, so the assumptions
that `Params` bundles can be met.
-/

namespace SpiralRs

open Negacyclic Loops

variable {d q : ℕ}

/-- What a reference layer is made from. -/
structure ReferenceData (d q : ℕ) where
  logLen : ℕ
  d_eq : d = 2 ^ logLen
  one_lt : 1 < q
  lt_word : q < 2 ^ 64
  root : ℕ
  root_pow : ((root : ℕ) : ZMod q) ^ d = -1
  exp : Fin d → ℕ
  odd_exp : ∀ s, Odd (exp s)
  exp_lt : ∀ s, exp s < 2 * d
  exp_injective : Function.Injective exp
  dInv : ℕ
  dInv_mul : ((dInv : ℕ) : ZMod q) * (d : ZMod q) = 1
  bitsPer : ℕ → ℕ
  random : Seed → ℕ → Fin d → ℕ

namespace ReferenceData

variable (D : ReferenceData d q)

theorem q_pos (D : ReferenceData d q) : 0 < q := by have := D.one_lt; omega

theorem d_pos (D : ReferenceData d q) : 0 < d := D.d_eq ▸ Nat.two_pow_pos _

/-- The evaluation points. -/
def slots : Slots d (ZMod q) where
  root := D.root
  root_pow := D.root_pow
  exp := D.exp
  odd_exp := D.odd_exp
  exp_lt := D.exp_lt
  exp_injective := D.exp_injective

/-- Evaluation at every slot root. -/
def forward (p : Poly d) : Ntt d q :=
  ⟨fun s => (∑ i, p i * D.root ^ (D.exp s * i)) % q, fun _ => Nat.mod_lt _ D.q_pos⟩

/-- Interpolation from every slot root. -/
def backward (v : Ntt d q) : Poly d :=
  fun i => (D.dInv * ∑ s, v.word s * D.root ^ (D.exp s * (2 * d - i))) % q

theorem forward_word (p : Poly d) (s : Fin d) : ((D.forward p).word s : ZMod q) =
    ∑ i, (p i : ZMod q) * (D.slots.root ^ D.slots.exp s) ^ (i : ℕ) := by
  simp [forward, slots, pow_mul]

theorem forward_backward (v : Ntt d q) : D.forward (D.backward v) = v := by
  refine Ntt.ext_cast fun s => ?_
  have hback : (fun i => ((D.backward v i : ℕ) : ZMod q)) =
      (D.dInv : ZMod q) • D.slots.interpolate fun s => (v.word s : ZMod q) := by
    funext i
    simp [backward, slots, Slots.interpolate_apply]
  have hvals := congrFun (D.slots.values_interpolate D.d_eq D.dInv_mul
    fun s => (v.word s : ZMod q)) s
  rw [Slots.values_apply, ← hback, Slots.eval_ofCoeffs] at hvals
  rw [D.forward_word, hvals]

/-- **The reference polynomial layer.** -/
def params : Params d q where
  logLen := D.logLen
  polyLen_eq := D.d_eq
  one_lt_modulus := D.one_lt
  modulus_lt := D.lt_word
  polyLen_unit := IsUnit.of_mul_eq_one_right _ D.dInv_mul
  slots := D.slots
  toNttAlloc := D.forward
  toNttAlloc_word p _ s := D.forward_word p s
  nttForward := D.forward
  nttForward_eq _ _ := rfl
  fromNttAlloc := D.backward
  fromNttAlloc_lt _ _ := Nat.mod_lt _ D.q_pos
  toNttAlloc_fromNttAlloc := D.forward_backward
  multiply row col :=
    ⟨fun s => (∑ k, (row k).word s * (col k).word s) % q, fun _ => Nat.mod_lt _ D.q_pos⟩
  multiply_word row col s := by simp
  addInto v w := ⟨fun s => (v.word s + w.word s) % q, fun _ => Nat.mod_lt _ D.q_pos⟩
  addInto_word v w s := by simp
  scalarMultiply v w := ⟨fun s => v.word s * w.word s % q, fun _ => Nat.mod_lt _ D.q_pos⟩
  scalarMultiply_word v w s := by simp
  negRaw p i := q - p i
  negRaw_le _ _ _ := Nat.sub_le _ _
  negRaw_cast p hp i := by rw [Nat.cast_sub (hp i), ZMod.natCast_self, zero_sub]
  automorphAlloc := scatterAutomorph D.d_pos q
  automorphAlloc_le _ t _ hp := scatterAutomorph_le D.d_pos hp t
  ring_automorphAlloc _ _ ht hp := ring_scatterAutomorph D.d_eq D.d_pos hp ht
  barrettReductionU128 a := a % q
  barrettReductionU128_eq _ _ := rfl
  barrettReductionU128_lt _ := Nat.mod_lt _ D.q_pos
  getBitsPer := D.bitsPer
  buildGadget ell k := if D.bitsPer ell * k < 64 then 2 ^ (D.bitsPer ell * k) else 0
  buildGadget_eq _ _ := rfl
  randomRng seed k i := D.random seed k i % q
  randomRng_lt _ _ _ := Nat.mod_lt _ D.q_pos

end ReferenceData

end SpiralRs
