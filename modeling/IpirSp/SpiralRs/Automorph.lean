import IpirSp.SpiralRs.Poly
import IpirSp.Loops.Writes

/-!
# Automorphisms at any modulus

`Params` asks for a modulus in which the degree is invertible, as the transform does.  The
automorphism of a coefficient vector needs no such modulus: `Automorph d q` is that function alone,
for every `q`, with what the repository relies on.  Every `Params` has one, and `Automorph.scatter`
is the loop that moves coefficient `i` to position `i * t % d` and replaces it by `q` minus itself
when `i * t / d` is odd.
-/

namespace SpiralRs

open Negacyclic Loops

variable {d q : ℕ}

/-- `automorph_alloc` of a `1 × 1` matrix, at degree `d` and modulus `q`. -/
structure Automorph (d q : ℕ) where
  alloc : Poly d → ℕ → Poly d
  alloc_le : ∀ p t, Odd t → (∀ i, p i ≤ q) → ∀ i, alloc p t i ≤ q
  ring_alloc : ∀ p t, Odd t → (∀ i, p i ≤ q) → Poly.ring q (alloc p t) = tau t (Poly.ring q p)

/-- The automorphisms of a polynomial layer. -/
def Params.automorph (S : Params d q) : Automorph d q where
  alloc := S.automorphAlloc
  alloc_le := S.automorphAlloc_le
  ring_alloc := S.ring_automorphAlloc

/-- The scatter loop. -/
def scatterAutomorph (hd : 0 < d) (q : ℕ) (p : Poly d) (t : ℕ) : Poly d :=
  applyWrites (fun _ => 0) ((List.finRange d).map fun i : Fin d =>
    (⟨(i : ℕ) * t % d, Nat.mod_lt _ hd⟩,
      if (i : ℕ) * t / d % 2 = 0 then p i else q - p i))

theorem scatterAutomorph_le (hd : 0 < d) {p : Poly d} (hp : ∀ i, p i ≤ q) (t : ℕ) (i : Fin d) :
    scatterAutomorph hd q p t i ≤ q := by
  refine applyWrites_induction (p := fun w => w ≤ q) (fun _ => Nat.zero_le _) ?_ i
  intro w hw
  obtain ⟨j, -, rfl⟩ := List.mem_map.mp hw
  dsimp only
  split
  · exact hp j
  · omega

/-- **The scatter loop is the substitution** `X ↦ X^t`, at every modulus. -/
theorem ring_scatterAutomorph {logLen : ℕ} (hlen : d = 2 ^ logLen) (hd : 0 < d) {p : Poly d}
    (hp : ∀ i, p i ≤ q) {t : ℕ} (ht : Odd t) :
    Poly.ring q (scatterAutomorph hd q p t) = tau t (Poly.ring q p) := by
  let target (i : Fin d) : Fin d := ⟨(i : ℕ) * t % d, Nat.mod_lt _ hd⟩
  have hinj : Function.Injective target := by
    intro i j hij
    have hmod : (i : ℕ) * t ≡ j * t [MOD d] := Fin.ext_iff.mp hij
    have hcop : Nat.gcd d t = 1 := by
      rw [hlen]
      exact (Nat.coprime_two_left.mpr ht).pow_left _
    exact Fin.ext (Nat.ModEq.eq_of_lt_of_lt (Nat.ModEq.cancel_right_of_coprime hcop hmod) i.2 j.2)
  have hbij := Finite.injective_iff_bijective.mp hinj
  let source := Equiv.ofBijective target hbij
  let value (i : Fin d) : ℕ := if (i : ℕ) * t / d % 2 = 0 then p i else q - p i
  have hrun (i : Fin d) : scatterAutomorph hd q p t (target i) = value i := by
    have h := applyWrites_eq (fun _ => 0) ((List.finRange d).map fun i => (target i, value i))
      (fun k => value (source.symm k)) ?_ (target i) ?_
    · rw [scatterAutomorph]
      refine h.trans ?_
      rw [show target i = source i from rfl, Equiv.symm_apply_apply]
    · intro w hw
      obtain ⟨j, -, rfl⟩ := List.mem_map.mp hw
      show value j = value (source.symm (source j))
      rw [Equiv.symm_apply_apply]
    · exact ⟨_, List.mem_map.mpr ⟨i, List.mem_finRange i, rfl⟩, rfl⟩
  have hterm (i : Fin d) : ((value i : ℕ) : ZMod q) • (x : NegRing d (ZMod q)) ^ (target i : ℕ) =
      (p i : ZMod q) • x ^ ((i : ℕ) * t) := by
    rw [x_pow ((i : ℕ) * t)]
    simp only [value, target]
    rcases Nat.mod_two_eq_zero_or_one ((i : ℕ) * t / d) with h0 | h1
    · rw [if_pos h0, (Nat.even_iff.mpr h0).neg_one_pow, one_mul]
    · rw [if_neg (by omega), Nat.cast_sub (hp i), ZMod.natCast_self, zero_sub,
        (Nat.odd_iff.mpr h1).neg_one_pow, neg_one_mul, smul_neg, neg_smul]
  rw [Poly.ring, Poly.ring, tau_ofCoeffs ht, ofCoeffs_apply, ← Equiv.sum_comp source]
  refine Finset.sum_congr rfl fun i _ => ?_
  rw [← hterm i]
  congr 3
  exact hrun i

/-- The automorphisms of any modulus. -/
def Automorph.scatter {logLen : ℕ} (hlen : d = 2 ^ logLen) (hd : 0 < d) (q : ℕ) :
    Automorph d q where
  alloc := scatterAutomorph hd q
  alloc_le _ t _ hp := scatterAutomorph_le hd hp t
  ring_alloc _ _ ht hp := ring_scatterAutomorph hlen hd hp ht

end SpiralRs
