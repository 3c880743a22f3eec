import IpirSp.Crt.Garner
import IpirSp.Negacyclic.Integer
import IpirSp.Reinspiring.Params

/-!
# Exact products through auxiliary primes

The modulus `q` need not have a transform of its own.  A product modulo `q` is computed by lifting
both factors to centred integers, multiplying modulo two or three auxiliary primes, reconstructing
the signed integer coefficients from the residues and reducing them modulo `q`.

`intPoly` is the integer polynomial of a coefficient vector.  The steps of an exactness proof are
`ring_toNtt_residues` (what an auxiliary transform holds), `fromNtt_modEq` (what its inverse
transform returns) and `reconstruct_eq` (what the residues determine); `multiply_spec` and
`sum_spec` put them together for the plain product and the sum of products.
-/

namespace Reinspiring

open Negacyclic SpiralRs Inspiring Loops Crt

/-- The reconstruction constants and the auxiliary primes are indexed by `Fin 2` and `Fin 3`. -/
instance neZero_two : NeZero 2 := ⟨two_ne_zero⟩

instance neZero_three : NeZero 3 := ⟨three_ne_zero⟩

/-- `PRIMES`: three primes, each one modulo 8192. -/
def PRIMES : Fin 3 → ℕ := ![4398046568449, 4398046666753, 4398046781441]

/-- The free functions of `spiral-rs` that the context calls. -/
structure NumberTheory where
  /-- `Params::init` for one modulus. -/
  init : SpiralInit
  /-- `invert_uint_mod`. -/
  invertUintMod : ℕ → ℕ → Option ℕ
  invertUintMod_spec : ∀ a m inv, invertUintMod a m = some inv → a * inv ≡ 1 [MOD m]

/-- `centered`: the representative of a residue around zero. -/
def centered (x q : ℕ) : ℤ := if x > q / 2 then (x : ℤ) - q else x

/-- A coefficient vector modulo an auxiliary prime, through its centred representatives. -/
def residues {d : ℕ} (q p : ℕ) (a : Poly d) : Poly d := fun i => (centered (a i) q % (p : ℤ)).toNat

/-- The auxiliary transforms for degree `d` and modulus `q`. -/
structure LiftContext (d q : ℕ) where
  params : (j : Fin 3) → Params d (PRIMES j)
  product : ℕ
  inverses : Fin 2 → ℕ
  two_le_d : 2 ≤ d
  d_le : d ≤ 4096
  two_le_q : 2 ≤ q
  q_le : q ≤ 2 ^ 56
  product_eq : product = PRIMES 0 * PRIMES 1 * PRIMES 2
  capacity : d * q * q < product
  inverse_first : PRIMES 0 * inverses 0 ≡ 1 [MOD PRIMES 1]
  inverse_second : PRIMES 0 * PRIMES 1 * inverses 1 ≡ 1 [MOD PRIMES 2]

/-- `LiftContext::new`. -/
def LiftContext.new (lib : NumberTheory) (d q : ℕ) : Result (LiftContext d q) :=
  if hrange : ¬(2 ≤ d ∧ d ≤ 4096) ∨ 2 ^ d.log2 ≠ d ∨ ¬(2 ≤ q ∧ q ≤ 2 ^ 56) then
    invalidParams "unsupported lifted product parameters"
  else
    let product := PRIMES 0 * PRIMES 1 * PRIMES 2
    if hneed : product ≤ d * q * q then
      invalidParams "insufficient CRT reconstruction capacity"
    else
      match hfirst : lib.invertUintMod (PRIMES 0 % PRIMES 1) (PRIMES 1),
          hsecond : lib.invertUintMod (PRIMES 0 * PRIMES 1 % PRIMES 2) (PRIMES 2),
          lib.init d (PRIMES 0), lib.init d (PRIMES 1), lib.init d (PRIMES 2) with
      | some first, some second, some params0, some params1, some params2 => .ok {
          params := fun j => match j with
            | 0 => params0
            | 1 => params1
            | 2 => params2
          product
          inverses := ![first, second]
          two_le_d := by omega
          d_le := by omega
          two_le_q := by omega
          q_le := by omega
          product_eq := rfl
          capacity := by omega
          inverse_first := ((Nat.mod_modEq _ _).symm.mul_right _).trans
            (lib.invertUintMod_spec _ _ _ hfirst)
          inverse_second := ((Nat.mod_modEq _ _).symm.mul_right _).trans
            (lib.invertUintMod_spec _ _ _ hsecond) }
      | none, _, _, _, _ | _, none, _, _, _ =>
          .error (.panic "called `Option::unwrap()` on a `None` value")
      | _, _, _, _, _ => .error (.panic "SpiralParams::init")

section Code

variable {d q : ℕ} (ctx : LiftContext d q)

/-- The product of the first `count` primes. -/
def primeProduct (count : ℕ) : ℕ := ((List.ofFn PRIMES).take count).prod

/-- The residues after the first, with the inverses of the context. -/
def LiftContext.later (residue : Fin 3 → ℕ) : List Residue :=
  [⟨PRIMES 1, ctx.inverses 0, residue 1⟩, ⟨PRIMES 2, ctx.inverses 1, residue 2⟩]

/-- The signed integer with the given residues modulo the first `count` primes. -/
def LiftContext.reconstruct (count product : ℕ) (residue : Fin 3 → ℕ) : ℤ :=
  signed (garner (residue 0, PRIMES 0) ((ctx.later residue).take (count - 1))).1 product

/-- `validate`; the length is that of the type. -/
def LiftContext.validate (_ctx : LiftContext d q) (a : Poly d) : Result Unit :=
  if ∃ i, a i ≥ q then lweShape "noncanonical lifted polynomial or wrong degree" else .ok ()

/-- The transform of an operand at prime `j`. -/
def LiftContext.toNtt (j : Fin 3) (a : Poly d) : Ntt d (PRIMES j) :=
  (ctx.params j).toNttAlloc (residues q (PRIMES j) a)

/-- `multiply` of two `1 × 1` matrices at prime `j`. -/
def LiftContext.mulNtt (j : Fin 3) (v w : Ntt d (PRIMES j)) : Ntt d (PRIMES j) :=
  (ctx.params j).multiply (fun _ : Fin 1 => v) fun _ => w

/-- `LiftContext::multiply`. -/
def LiftContext.multiply (a b : Poly d) : Result (Poly d) := do
  ctx.validate a
  ctx.validate b
  let residue (j : Fin 3) : Poly d :=
    (ctx.params j).fromNttAlloc (ctx.mulNtt j (ctx.toNtt j a) (ctx.toNtt j b))
  .ok fun i => (ctx.reconstruct 3 ctx.product (fun j => residue j i) % (q : ℤ)).toNat

/-- `LiftContext::sum`. -/
def LiftContext.sum (a b : List (Poly d)) : Result (Poly d) :=
  if a = [] ∨ a.length ≠ b.length then lweShape "lifted limb count mismatch"
  else (a.zip b).foldlM (fun out pair => do
    let term ← ctx.multiply pair.1 pair.2
    .ok fun i => (out i + term i) % q) fun _ => 0

end Code

/-! ## Integer polynomials -/

section Integer

variable {d q : ℕ}

/-- The integer polynomial of the centred representatives. -/
noncomputable def intPoly (q : ℕ) (a : Poly d) : NegRing d ℤ := ofCoeffs fun i => centered (a i) q

/-- The class of an integer polynomial modulo `p`. -/
noncomputable abbrev reduce (p : ℕ) : NegRing d ℤ →+* NegRing d (ZMod p) :=
  baseChange (Int.castRingHom (ZMod p))

theorem cast_centered (x q : ℕ) : ((centered x q : ℤ) : ZMod q) = x := by
  unfold centered
  split <;> simp

theorem abs_centered_le {x : ℕ} (hx : x < q) : |centered x q| ≤ (q / 2 : ℕ) := by
  unfold centered
  split <;> rw [abs_le] <;> constructor <;> omega

theorem coeffsLe_intPoly [NeZero d] {a : Poly d} (ha : ∀ i, a i < q) :
    CoeffsLe (intPoly q a) (q / 2 : ℕ) := by
  intro i
  rw [intPoly, coeff_ofCoeffs]
  exact abs_centered_le (ha i)

theorem reduce_intPoly (a : Poly d) : reduce q (intPoly q a) = Poly.ring q a := by
  rw [reduce, intPoly, baseChange_ofCoeffs, Poly.ring]
  congr 1
  funext i
  exact cast_centered _ _

theorem residues_lt {p : ℕ} (hp : 0 < p) (a : Poly d) (i : Fin d) : residues q p a i < p := by
  have hpos : (0 : ℤ) < p := by exact_mod_cast hp
  have hnonneg := Int.emod_nonneg (centered (a i) q) hpos.ne'
  have hlt := Int.emod_lt_of_pos (centered (a i) q) hpos
  rw [residues]
  omega

theorem cast_toNat_emod {p : ℕ} (hp : 0 < p) (z : ℤ) :
    (((z % (p : ℤ)).toNat : ℕ) : ZMod p) = z := by
  have hpos : (0 : ℤ) < p := by exact_mod_cast hp
  have hnonneg := Int.emod_nonneg z hpos.ne'
  rw [← Int.cast_natCast, Int.toNat_of_nonneg hnonneg, ZMod.intCast_mod]

/-- An auxiliary residue vector is the integer polynomial modulo the prime. -/
theorem ring_residues {p : ℕ} (hp : 0 < p) (a : Poly d) :
    Poly.ring p (residues q p a) = reduce p (intPoly q a) := by
  rw [reduce, intPoly, baseChange_ofCoeffs, Poly.ring]
  congr 1
  funext i
  exact cast_toNat_emod hp _

end Integer

/-! ## Exactness -/

section Exact

variable {d q : ℕ} (ctx : LiftContext d q)

theorem LiftContext.d_pos (ctx : LiftContext d q) : 0 < d := by have := ctx.two_le_d; omega

theorem LiftContext.q_pos (ctx : LiftContext d q) : 0 < q := by have := ctx.two_le_q; omega

theorem PRIMES_pos (j : Fin 3) : 0 < PRIMES j := by fin_cases j <;> decide

/-- The transform of an operand denotes its integer polynomial modulo the prime. -/
theorem LiftContext.ring_toNtt (j : Fin 3) (a : Poly d) :
    (ctx.params j).ring (ctx.toNtt j a) = reduce (PRIMES j) (intPoly q a) := by
  rw [LiftContext.toNtt, Params.ring_toNttAlloc, ring_residues (PRIMES_pos j)]
  intro i
  exact (residues_lt (PRIMES_pos j) a i).trans (ctx.params j).modulus_lt

theorem LiftContext.ring_mulNtt (j : Fin 3) (v w : Ntt d (PRIMES j)) :
    (ctx.params j).ring (ctx.mulNtt j v w) = (ctx.params j).ring v * (ctx.params j).ring w := by
  rw [LiftContext.mulNtt, Params.ring_multiply, Fin.sum_univ_one]

/-- The inverse transform returns residues of the integer coefficients. -/
theorem fromNtt_modEq [NeZero d] {p : ℕ} (S : Params d p) {Z : NegRing d ℤ} {v : Ntt d p}
    (hv : S.ring v = reduce p Z) (i : Fin d) : (S.fromNttAlloc v i : ℤ) ≡ coeff Z i [ZMOD p] := by
  have hcoeff := congrArg (coeff · i) hv
  simp only [Params.ring, Poly.coeff_ring, reduce, coeff_baseChange] at hcoeff
  rw [← ZMod.intCast_eq_intCast_iff]
  exact_mod_cast hcoeff

theorem primeProduct_two : primeProduct 2 = PRIMES 0 * PRIMES 1 := by decide

theorem primeProduct_three : primeProduct 3 = PRIMES 0 * (PRIMES 1 * PRIMES 2) := by decide

/-- **What the residues determine**: every integer of magnitude below half the product. -/
theorem LiftContext.reconstruct_eq {count : ℕ} (hcount : count = 2 ∨ count = 3) {z : ℤ}
    {residue : Fin 3 → ℕ} (hlt : residue 0 < PRIMES 0)
    (hres : ∀ j : Fin 3, (j : ℕ) < count → (residue j : ℤ) ≡ z [ZMOD PRIMES j])
    (hz : 2 * |z| < primeProduct count) :
    ctx.reconstruct count (primeProduct count) residue = z := by
  have hfirst : Residue.IsFor ⟨PRIMES 1, ctx.inverses 0, residue 1⟩ z (PRIMES 0) :=
    ⟨PRIMES_pos 1, by exact_mod_cast Int.natCast_modEq_iff.mpr ctx.inverse_first,
      hres 1 (by rcases hcount with rfl | rfl <;> decide)⟩
  have hstart : Represents z (residue 0, PRIMES 0) :=
    ⟨hlt, hres 0 (by rcases hcount with rfl | rfl <;> decide)⟩
  rcases hcount with rfl | rfl
  · have hchain : IsChain z (PRIMES 0) ((ctx.later residue).take (2 - 1)) :=
      isChain_cons.mpr ⟨hfirst, isChain_nil _ _⟩
    exact signed_garner hstart hchain (by rw [primeProduct_two]; simp [LiftContext.later]) hz
  · have hsecond : Residue.IsFor ⟨PRIMES 2, ctx.inverses 1, residue 2⟩ z (PRIMES 0 * PRIMES 1) :=
      ⟨PRIMES_pos 2, by exact_mod_cast Int.natCast_modEq_iff.mpr ctx.inverse_second,
        hres 2 (by decide)⟩
    have hchain : IsChain z (PRIMES 0) ((ctx.later residue).take (3 - 1)) :=
      isChain_cons.mpr ⟨hfirst, isChain_cons.mpr ⟨hsecond, isChain_nil _ _⟩⟩
    exact signed_garner hstart hchain (by rw [primeProduct_three]; simp [LiftContext.later]) hz

theorem LiftContext.product_eq_primeProduct : ctx.product = primeProduct 3 := by
  rw [ctx.product_eq, primeProduct_three, mul_assoc]

theorem LiftContext.validate_ok {a : Poly d} (ha : ∀ i, a i < q) : ctx.validate a = .ok () := by
  rw [LiftContext.validate, if_neg]
  rintro ⟨i, hi⟩
  exact absurd (ha i) (not_lt.mpr hi)

/-- The coefficients of a product of canonical operands fit three primes. -/
theorem LiftContext.product_fits (ctx : LiftContext d q) {a b : Poly d} (ha : ∀ i, a i < q)
    (hb : ∀ i, b i < q)
    [NeZero d] (i : Fin d) : 2 * |coeff (intPoly q a * intPoly q b) i| < primeProduct 3 := by
  have hbound := (coeffsLe_intPoly ha).mul (coeffsLe_intPoly hb) i
  have hhalf : 2 * (d * (q / 2) * (q / 2)) ≤ d * q * q := by
    have hq : q / 2 * 2 ≤ q := Nat.div_mul_le_self q 2
    calc 2 * (d * (q / 2) * (q / 2)) = d * (q / 2 * 2) * (q / 2) := by ring
      _ ≤ d * q * q := Nat.mul_le_mul (Nat.mul_le_mul_left _ hq) (Nat.div_le_self _ _)
  have hcap := ctx.capacity
  rw [ctx.product_eq_primeProduct] at hcap
  calc 2 * |coeff (intPoly q a * intPoly q b) i|
      ≤ 2 * ((d : ℤ) * (q / 2 : ℕ) * (q / 2 : ℕ)) := by linarith
    _ ≤ ((d * q * q : ℕ) : ℤ) := by exact_mod_cast hhalf
    _ < primeProduct 3 := by exact_mod_cast hcap

/-- A reduced signed coefficient vector is the integer polynomial modulo `q`. -/
theorem ring_emod (hq : 0 < q) [NeZero d] {Z : NegRing d ℤ} {out : Poly d}
    (hout : ∀ i, out i = (coeff Z i % (q : ℤ)).toNat) : Poly.ring q out = reduce q Z := by
  refine ext_coeff fun i => ?_
  rw [Poly.coeff_ring, reduce, coeff_baseChange, hout, cast_toNat_emod hq]
  rfl

theorem toNat_emod_lt (hq : 0 < q) (z : ℤ) : (z % (q : ℤ)).toNat < q := by
  have hpos : (0 : ℤ) < q := by exact_mod_cast hq
  have hnonneg := Int.emod_nonneg z hpos.ne'
  have hlt := Int.emod_lt_of_pos z hpos
  omega

/-- **The lifted product is exact.** -/
theorem LiftContext.multiply_spec {a b : Poly d} (ha : ∀ i, a i < q) (hb : ∀ i, b i < q) :
    ∃ out, ctx.multiply a b = .ok out ∧ (∀ i, out i < q) ∧
      Poly.ring q out = Poly.ring q a * Poly.ring q b := by
  have : NeZero d := ⟨ctx.d_pos.ne'⟩
  have hring (j : Fin 3) : (ctx.params j).ring (ctx.mulNtt j (ctx.toNtt j a) (ctx.toNtt j b)) =
      reduce (PRIMES j) (intPoly q a * intPoly q b) := by
    rw [ctx.ring_mulNtt, ctx.ring_toNtt, ctx.ring_toNtt, map_mul]
  refine ⟨_, by rw [LiftContext.multiply, ctx.validate_ok ha, ctx.validate_ok hb]; rfl,
    fun i => toNat_emod_lt ctx.q_pos _, ?_⟩
  rw [← reduce_intPoly a, ← reduce_intPoly b, ← map_mul]
  refine ring_emod ctx.q_pos fun i => ?_
  rw [ctx.product_eq_primeProduct, ctx.reconstruct_eq (Or.inr rfl)
    ((ctx.params 0).fromNttAlloc_lt _ i) (fun j _ => fromNtt_modEq _ (hring j) i)
    (ctx.product_fits ha hb i)]

/-- **The sum of lifted products is exact.** -/
theorem LiftContext.sum_spec {a b : List (Poly d)} (hne : a ≠ []) (hlen : a.length = b.length)
    (ha : ∀ p ∈ a, ∀ i, p i < q) (hb : ∀ p ∈ b, ∀ i, p i < q) :
    ∃ out, ctx.sum a b = .ok out ∧ (∀ i, out i < q) ∧ Poly.ring q out =
      ((a.zip b).map fun pair => Poly.ring q pair.1 * Poly.ring q pair.2).sum := by
  rw [LiftContext.sum, if_neg (by simp [hne, hlen])]
  have hloop := foldlM_prefix (fun done (out : Poly d) => (∀ i, out i < q) ∧ Poly.ring q out =
    (done.map fun pair => Poly.ring q pair.1 * Poly.ring q pair.2).sum) (a.zip b)
    (f := fun out pair => do
      let term ← ctx.multiply pair.1 pair.2
      .ok fun i => (out i + term i) % q)
    (fun _ => 0) ⟨fun _ => ctx.q_pos, by simp [Poly.ring_zero]⟩ ?_
  · obtain ⟨out, hrun, hlt, hring⟩ := hloop
    exact ⟨out, hrun, hlt, hring⟩
  · rintro done ⟨pa, pb⟩ rest out hl ⟨-, hring⟩
    have hmem : (pa, pb) ∈ a.zip b := by rw [hl]; simp
    obtain ⟨term, hterm, -, hprod⟩ := ctx.multiply_spec (ha pa (List.of_mem_zip hmem).1)
      (hb pb (List.of_mem_zip hmem).2)
    refine ⟨fun i => (out i + term i) % q, ?_, fun i => Nat.mod_lt _ ctx.q_pos, ?_⟩
    · simp only [hterm, ok_bind]
    · rw [List.map_append, List.sum_append, ← hring, List.map_singleton,
        List.sum_singleton, ← hprod]
      rw [Poly.ring, Poly.ring, Poly.ring, ← map_add]
      congr 1
      funext i
      simp

end Exact

/-! ## A small instance -/

/-- A reference layer of degree four over a modulus with an eighth root of unity. -/
def degreeFourLayer (p root dInv : ℕ) (hlt : 1 < p ∧ p < 2 ^ 64) (hroot : p ∣ root ^ 4 + 1)
    (hinv : p ∣ dInv * 4 - 1 ∧ 0 < dInv) : ReferenceData 4 p where
  logLen := 2
  d_eq := by decide
  one_lt := hlt.1
  lt_word := hlt.2
  root
  root_pow := by
    have hzero := (ZMod.natCast_eq_zero_iff _ _).mpr hroot
    rw [Nat.cast_add, Nat.cast_pow, Nat.cast_one] at hzero
    exact eq_neg_of_add_eq_zero_left hzero
  exp := ![1, 5, 3, 7]
  odd_exp := odd_slotExp
  exp_lt := slotExp_lt
  exp_injective := slotExp_injective
  dInv
  dInv_mul := by
    have hzero := (ZMod.natCast_eq_zero_iff _ _).mpr hinv.1
    rw [Nat.cast_sub (by omega), Nat.cast_mul, Nat.cast_one] at hzero
    exact_mod_cast sub_eq_zero.mp hzero
  bitsPer _ := 1
  random _ _ _ := 0

/-- Auxiliary layers of degree four and the two inverses. -/
def smallNumberTheory : NumberTheory where
  init
    | 4, 4398046568449 => some (degreeFourLayer 4398046568449 1107532508107 3298534926337
        (by decide) (by decide) (by decide)).params
    | 4, 4398046666753 => some (degreeFourLayer 4398046666753 3773548504330 3298535000065
        (by decide) (by decide) (by decide)).params
    | 4, 4398046781441 => some (degreeFourLayer 4398046781441 1666020930337 3298535086081
        (by decide) (by decide) (by decide)).params
    | _, _ => none
  invertUintMod a m :=
    if a = 4398046568449 ∧ m = 4398046666753 then some 3298579739309
    else if a = PRIMES 0 * PRIMES 1 % PRIMES 2 ∧ m = PRIMES 2 then some 3177758297238
    else none
  invertUintMod_spec a m inv h := by
    split at h
    · rename_i hfirst
      cases h
      rw [hfirst.1, hfirst.2]
      decide
    · split at h
      · rename_i hsecond
        cases h
        rw [hsecond.1, hsecond.2]
        decide
      · cases h

/-- The small instance has a context at degree four and modulus seventeen. -/
theorem liftContext_new_small : ∃ lift, LiftContext.new smallNumberTheory 4 17 = .ok lift :=
  ⟨_, rfl⟩

end Reinspiring
