import IpirSp.Loops.Reduce
import IpirSp.MachineWord.Wrapping
import IpirSp.Reinspiring.LiftNtt

/-!
# Lifted products with prepared operands

The transforms of an operand that is used again are kept.  How many primes a product needs is
decided when its public operand is prepared, from the largest magnitude of its coefficients and a
bound on the other operand: two where their product exceeds twice the integer coefficients, three
otherwise.  `sumPrepared` and `sumCached` reconstruct every product on its own; `sumCachedTwo` and
`publicDot` accumulate in the transform domain and reconstruct the sum.

`LiftLimb.Fits` and `PreparedLiftOperand.Fits` say what preparation leaves: the transforms of the
operand, at enough primes.  `sumPrepared_spec`, `sumCached_spec` and `publicDot_spec` are exactness,
and `lifted_products_exact` collects the five entry points.
-/

namespace Reinspiring

open Negacyclic SpiralRs Inspiring Loops Crt MachineWord

/-! ## Operands -/

/-- The transforms of one polynomial at the first `count` primes. -/
structure LiftLimb (d : ℕ) where
  count : ℕ
  ntt : (j : Fin 3) → Ntt d (PRIMES j)

/-- Offline transforms of a public left operand. -/
structure PreparedLiftOperand (d q : ℕ) where
  transforms : List (LiftLimb d)
  sumFitsTwo : Bool

/-- Request-local transforms of a right operand. -/
structure PreparedLiftRight (d q : ℕ) where
  transforms : List (LiftLimb d)

/-- Cached public operands for an exact integer sum of products. -/
structure PreparedPublicDot (d q : ℕ) where
  rightBound : ℕ
  count : ℕ
  operands : List ((j : Fin 3) → Ntt d (PRIMES j))

section Code

variable {d q : ℕ} (ctx : LiftContext d q)

/-- The largest magnitude of a centred coefficient. -/
def maxAbs (q : ℕ) (a : Poly d) : ℕ := Finset.univ.sup fun i => (centered (a i) q).natAbs

/-- The magnitudes of a list of operands, added in 128-bit words. -/
def sumMax (q : ℕ) (a : List (Poly d)) : Option ℕ :=
  a.foldl (fun sum poly => checkedAdd W128 sum (some (maxAbs q poly))) (some 0)

/-- One operand of `prepare_public`. -/
def LiftContext.publicLimb (poly : Poly d) : Result (LiftLimb d) := do
  ctx.validate poly
  let bound := 2 * d * maxAbs q poly * (q / 2)
  .ok ⟨if PRIMES 0 * PRIMES 1 > bound then 2 else 3, fun j => ctx.toNtt j poly⟩

/-- `prepare_public`. -/
def LiftContext.preparePublic (a : List (Poly d)) : Result (PreparedLiftOperand d q) :=
  if a = [] then lweShape "empty prepared operand"
  else do
    let transforms ← a.mapM ctx.publicLimb
    let bound := checkedMul W128 (sumMax q a) (some (2 * d * (q / 2)))
    .ok ⟨transforms, bound.any fun bound => bound < PRIMES 0 * PRIMES 1⟩

/-- `prepare_right_primes`. -/
def LiftContext.prepareRightPrimes (b : List (Poly d)) (count : ℕ) :
    Result (PreparedLiftRight d q) :=
  if b = [] then lweShape "empty prepared right operand"
  else do
    let transforms ← b.mapM fun poly => do
      ctx.validate poly
      .ok ⟨count, fun j => ctx.toNtt j poly⟩
    .ok ⟨transforms⟩

/-- `prepare_right`. -/
def LiftContext.prepareRight (b : List (Poly d)) : Result (PreparedLiftRight d q) :=
  ctx.prepareRightPrimes b 3

/-- `prepare_bounded_right`. -/
def LiftContext.prepareBoundedRight (b : List (Poly d)) (leftBound : ℕ) :
    Result (PreparedLiftRight d q) :=
  if leftBound > q / 2 then invalidParams "invalid public left bound"
  else
    let bound := 2 * d * leftBound * (q / 2)
    ctx.prepareRightPrimes b (if bound < PRIMES 0 * PRIMES 1 then 2 else 3)

/-- The signed integer coefficients of the product of a limb with a transformed right operand. -/
def LiftContext.limbProduct (limb : LiftLimb d) (right : (j : Fin 3) → Ntt d (PRIMES j))
    (i : Fin d) : ℤ :=
  ctx.reconstruct limb.count (primeProduct limb.count) fun j =>
    (ctx.params j).fromNttAlloc (ctx.mulNtt j (limb.ntt j) (right j)) i

/-- The last step of the loop of `sum_prepared`. -/
def accumulateSigned (q dst : ℕ) (signed : ℤ) : ℕ :=
  if IsPowerOfTwo q then wrappingAdd dst (ofInt signed) &&& (q - 1)
  else (dst + (signed % (q : ℤ)).toNat) % q

/-- `sum_prepared`. -/
def LiftContext.sumPrepared (a : PreparedLiftOperand d q) (b : List (Poly d)) : Result (Poly d) :=
  if a.transforms.length ≠ b.length then lweShape "prepared operand mismatch"
  else (a.transforms.zip b).foldlM (fun result pair => do
    ctx.validate pair.2
    let product := ctx.limbProduct pair.1 fun j => ctx.toNtt j pair.2
    .ok fun i => accumulateSigned q (result i) (product i)) fun _ => 0

/-- Addition of two transforms, with one conditional subtraction a word. -/
def addSlots {p : ℕ} (v w : Ntt d p) : Ntt d p where
  word s :=
    let value := v.word s + w.word s
    if value ≥ p then value - p else value
  lt s := by
    have hv := v.lt s
    have hw := w.lt s
    dsimp only
    split <;> omega

/-- `reconstruct_two`. -/
def LiftContext.reconstructTwo (r0 r1 : ℕ) : ℕ :=
  let product := PRIMES 0 * PRIMES 1
  let delta := r1 + PRIMES 1 - r0
  let delta := if delta ≥ PRIMES 1 then delta - PRIMES 1 else delta
  let x := r0 + PRIMES 0 * (delta * ctx.inverses 0 % PRIMES 1)
  let signed := signed x product
  if IsPowerOfTwo q then ofInt signed &&& (q - 1) else (signed % (q : ℤ)).toNat

/-- The transform-domain sum of products at prime `j`. -/
def LiftContext.dotNtt (j : Fin 3)
    (pairs : List (((j : Fin 3) → Ntt d (PRIMES j)) × ((j : Fin 3) → Ntt d (PRIMES j)))) :
    Ntt d (PRIMES j) :=
  pairs.foldl (fun sum pair => addSlots sum (ctx.mulNtt j (pair.1 j) (pair.2 j)))
    (ctx.params j).zeroNtt

/-- `sum_cached_two`. -/
def LiftContext.sumCachedTwo (a : PreparedLiftOperand d q) (b : PreparedLiftRight d q) : Poly d :=
  let pairs := (a.transforms.map LiftLimb.ntt).zip (b.transforms.map LiftLimb.ntt)
  let residues (j : Fin 3) : Poly d := (ctx.params j).fromNttAlloc (ctx.dotNtt j pairs)
  fun i => ctx.reconstructTwo (residues 0 i) (residues 1 i)

/-- `sum_cached`. -/
def LiftContext.sumCached (a : PreparedLiftOperand d q) (b : PreparedLiftRight d q) :
    Result (Poly d) :=
  if a.transforms.length ≠ b.transforms.length ∨
      ∃ pair ∈ a.transforms.zip b.transforms, pair.1.count > pair.2.count then
    lweShape "cached operand mismatch"
  else if a.sumFitsTwo then .ok (ctx.sumCachedTwo a b)
  else .ok ((a.transforms.zip b.transforms).foldl (fun result pair i =>
    (result i + (ctx.limbProduct pair.1 pair.2.ntt i % (q : ℤ)).toNat) % q) fun _ => 0)

/-- The 128-bit computation of the capacity that a dot product needs. -/
def publicDotNeed (d q : ℕ) (a : List (Poly d)) (rightBound : ℕ) : Option ℕ :=
  checkedMul W128 (checkedMul W128 (checkedMul W128 (sumMax q a) (some d)) (some rightBound))
    (some 2)

/-- `prepare_public_dot`. -/
def LiftContext.preparePublicDot (a : List (Poly d)) (rightBound : ℕ) :
    Result (PreparedPublicDot d q) :=
  if a = [] ∨ rightBound > q / 2 then lweShape "invalid public dot bound or shape"
  else do
    a.forM ctx.validate
    match publicDotNeed d q a rightBound with
    | none => invalidParams "public dot bound overflow"
    | some need =>
        if need < PRIMES 0 * PRIMES 1 then
          .ok ⟨rightBound, 2, a.map fun poly j => ctx.toNtt j poly⟩
        else if need < ctx.product then
          .ok ⟨rightBound, 3, a.map fun poly j => ctx.toNtt j poly⟩
        else invalidParams "insufficient public dot CRT capacity"

/-- A right operand of `public_dot` at prime `j`. -/
def LiftContext.rightNtt (rightBound : ℕ) (j : Fin 3) (b : Poly d) : Ntt d (PRIMES j) :=
  (ctx.params j).toNttAlloc fun i =>
    let signed := centered (b i) q
    if rightBound < PRIMES j then
      if signed < 0 then (signed + PRIMES j).toNat else signed.toNat
    else (signed % (PRIMES j : ℤ)).toNat

/-- The checks of `public_dot` on one right operand. -/
def LiftContext.checkRight (rightBound : ℕ) (b : Poly d) : Result Unit := do
  ctx.validate b
  if ∃ i, (centered (b i) q).natAbs > rightBound then
    lweShape "public dot coefficient exceeds bound"
  else .ok ()

/-- `public_dot`. -/
def LiftContext.publicDot (a : PreparedPublicDot d q) (b : List (Poly d)) : Result (Poly d) :=
  if a.operands.length ≠ b.length then lweShape "public dot context or shape mismatch"
  else do
    b.forM (ctx.checkRight a.rightBound)
    let pairs := a.operands.zip (b.map fun poly j => ctx.rightNtt a.rightBound j poly)
    let residues (j : Fin 3) : Poly d := (ctx.params j).fromNttAlloc (ctx.dotNtt j pairs)
    if a.count = 2 then .ok fun i => ctx.reconstructTwo (residues 0 i) (residues 1 i)
    else .ok fun i => (ctx.reconstruct a.count (primeProduct a.count) (fun j => residues j i) %
      (q : ℤ)).toNat

end Code

/-! ## Sums of products -/

section Dot

variable {d q : ℕ}

/-- The sum of products of two lists of polynomials modulo `q`. -/
noncomputable def dot (q : ℕ) (a b : List (Poly d)) : NegRing d (ZMod q) :=
  (List.zipWith (fun x y => Poly.ring q x * Poly.ring q y) a b).sum

/-- A canonical polynomial that is the sum of products. -/
structure IsDot (q : ℕ) (a b : List (Poly d)) (out : Poly d) : Prop where
  lt : ∀ i, out i < q
  ring : Poly.ring q out = dot q a b

/-- The sum of products over the integers. -/
noncomputable def intDot (q : ℕ) (a b : List (Poly d)) : NegRing d ℤ :=
  (List.zipWith (fun x y => intPoly q x * intPoly q y) a b).sum

@[simp] theorem intDot_nil_left (b : List (Poly d)) : intDot q [] b = 0 := rfl

@[simp] theorem intDot_nil_right (a : List (Poly d)) : intDot q a [] = 0 := by simp [intDot]

@[simp] theorem intDot_cons (x y : Poly d) (a b : List (Poly d)) :
    intDot q (x :: a) (y :: b) = intPoly q x * intPoly q y + intDot q a b := by
  simp [intDot]

/-- The integer sum of products denotes the sum of products. -/
theorem reduce_intDot (a b : List (Poly d)) : reduce q (intDot q a b) = dot q a b := by
  rw [intDot, dot, map_list_sum, List.map_zipWith]
  simp only [map_mul, reduce_intPoly]

theorem abs_centered_le_maxAbs (a : Poly d) (i : Fin d) : |centered (a i) q| ≤ maxAbs q a := by
  have hle : (centered (a i) q).natAbs ≤ maxAbs q a :=
    Finset.le_sup (f := fun i => (centered (a i) q).natAbs) (Finset.mem_univ i)
  rw [Int.abs_eq_natAbs]
  exact_mod_cast hle

theorem coeffsLe_maxAbs [NeZero d] (q : ℕ) (a : Poly d) :
    CoeffsLe (intPoly q a) (maxAbs q a : ℕ) := by
  intro i
  rw [intPoly, coeff_ofCoeffs]
  exact abs_centered_le_maxAbs a i

theorem maxAbs_le {a : Poly d} {B : ℕ} (ha : ∀ i, (centered (a i) q).natAbs ≤ B) :
    maxAbs q a ≤ B := Finset.sup_le fun i _ => ha i

theorem maxAbs_le_half {a : Poly d} (ha : ∀ i, a i < q) : maxAbs q a ≤ q / 2 := by
  refine maxAbs_le fun i => ?_
  have hle := abs_centered_le (ha i)
  rw [Int.abs_eq_natAbs] at hle
  exact_mod_cast hle

/-- **The bound behind every capacity check**: magnitudes times the bound on the other operand. -/
theorem coeffsLe_intDot [NeZero d] {B : ℕ} (a : List (Poly d)) {b : List (Poly d)}
    (hb : ∀ y ∈ b, CoeffsLe (intPoly q y) B) :
    CoeffsLe (intDot q a b) ((d * (a.map (maxAbs q)).sum * B : ℕ) : ℤ) := by
  induction a generalizing b with
  | nil =>
      intro i
      simp [coeff_zero]
  | cons x a ih =>
      cases b with
      | nil =>
          intro i
          rw [intDot_nil_right, coeff_zero, abs_zero]
          positivity
      | cons y b =>
          intro i
          have hfirst := (coeffsLe_maxAbs q x).mul (hb y (by simp)) i
          have hrest := ih (fun z hz => hb z (List.mem_cons_of_mem _ hz)) i
          rw [intDot_cons, coeff_add]
          calc |coeff (intPoly q x * intPoly q y) i + coeff (intDot q a b) i|
              ≤ |coeff (intPoly q x * intPoly q y) i| + |coeff (intDot q a b) i| := abs_add_le _ _
            _ ≤ d * (maxAbs q x : ℕ) * B + ((d * (a.map (maxAbs q)).sum * B : ℕ) : ℤ) :=
                add_le_add hfirst hrest
            _ = ((d * ((x :: a).map (maxAbs q)).sum * B : ℕ) : ℤ) := by
                rw [List.map_cons, List.sum_cons]
                push_cast
                ring

end Dot

/-! ## What preparation leaves -/

section Fits

variable {d q : ℕ} (ctx : LiftContext d q)

/-- A limb that holds the polynomial `a` and has room for a right operand of magnitude `B`. -/
structure LiftLimb.Fits (B : ℕ) (limb : LiftLimb d) (a : Poly d) : Prop where
  count : limb.count = 2 ∨ limb.count = 3
  ntt : ∀ j : Fin 3, (j : ℕ) < limb.count → limb.ntt j = ctx.toNtt j a
  capacity : 2 * (d * maxAbs q a * B) < primeProduct limb.count

/-- A left operand for the polynomials `a` and right operands of magnitude `B`. -/
structure PreparedLiftOperand.Fits (B : ℕ) (op : PreparedLiftOperand d q) (a : List (Poly d)) :
    Prop where
  limbs : List.Forall₂ (LiftLimb.Fits ctx B) op.transforms a
  sum_capacity : op.sumFitsTwo = true → 2 * (d * (a.map (maxAbs q)).sum * B) < primeProduct 2

/-- A right operand that holds the polynomials `b` at `count` primes each. -/
def PreparedLiftRight.Holds (count : ℕ) (right : PreparedLiftRight d q) (b : List (Poly d)) :
    Prop :=
  List.Forall₂ (fun limb y => limb.count = count ∧
    ∀ j : Fin 3, (j : ℕ) < count → limb.ntt j = ctx.toNtt j y) right.transforms b

/-- A dot-product operand that holds the polynomials `a` and has room for its right bound. -/
structure PreparedPublicDot.Fits (op : PreparedPublicDot d q) (a : List (Poly d)) : Prop where
  count : op.count = 2 ∨ op.count = 3
  operands : op.operands = a.map fun x j => ctx.toNtt j x
  capacity : 2 * (d * (a.map (maxAbs q)).sum * op.rightBound) < primeProduct op.count

variable {ctx}

/-- **One product.** -/
theorem LiftLimb.Fits.limbProduct_eq [NeZero d] {B : ℕ} {limb : LiftLimb d} {a b : Poly d}
    (hlimb : limb.Fits ctx B a) (hb : CoeffsLe (intPoly q b) B)
    {right : (j : Fin 3) → Ntt d (PRIMES j)}
    (hright : ∀ j : Fin 3, (j : ℕ) < limb.count → right j = ctx.toNtt j b) (i : Fin d) :
    ctx.limbProduct limb right i = coeff (intPoly q a * intPoly q b) i := by
  have hring (j : Fin 3) (hj : (j : ℕ) < limb.count) :
      (ctx.params j).ring (ctx.mulNtt j (limb.ntt j) (right j)) =
        reduce (PRIMES j) (intPoly q a * intPoly q b) := by
    rw [ctx.ring_mulNtt, hlimb.ntt j hj, hright j hj, ctx.ring_toNtt, ctx.ring_toNtt, map_mul]
  have hbound := ((coeffsLe_maxAbs q a).mul hb) i
  have hcap := hlimb.capacity
  refine ctx.reconstruct_eq hlimb.count ((ctx.params 0).fromNttAlloc_lt _ i)
    (fun j hj => fromNtt_modEq _ (hring j hj) i) ?_
  calc 2 * |coeff (intPoly q a * intPoly q b) i|
      ≤ ((2 * (d * maxAbs q a * B) : ℕ) : ℤ) := by push_cast; linarith
    _ < primeProduct limb.count := by exact_mod_cast hcap

variable (ctx)

/-- A step that adds a product is exact. -/
theorem ring_addCoeffs [NeZero d] {Z : NegRing d ℤ} {result out : Poly d}
    (hout : ∀ i, (out i : ZMod q) = result i + ((coeff Z i : ℤ) : ZMod q)) :
    Poly.ring q out = Poly.ring q result + reduce q Z := by
  refine ext_coeff fun i => ?_
  rw [coeff_add, Poly.coeff_ring, Poly.coeff_ring, reduce, coeff_baseChange, hout]
  rfl

theorem accumulateSigned_lt (hq : 0 < q) (dst : ℕ) (z : ℤ) : accumulateSigned q dst z < q := by
  unfold accumulateSigned
  split
  · next hpow => exact mask_lt hpow _
  · exact Nat.mod_lt _ hq

theorem cast_accumulateSigned (ctx : LiftContext d q) (dst : ℕ) (z : ℤ) :
    ((accumulateSigned q dst z : ℕ) : ZMod q) = dst + (z : ZMod q) := by
  unfold accumulateSigned
  split
  · next hpow =>
    have hdvd : q ∣ W64 := hpow.dvd_W64 (ctx.q_le.trans (by decide))
    rw [cast_mask hpow, cast_wrappingAdd hdvd, cast_ofInt hdvd]
  · rw [ZMod.natCast_mod, Nat.cast_add, cast_toNat_emod ctx.q_pos]

/-- `sum_prepared` after any number of limbs. -/
theorem LiftContext.sumPrepared_run [NeZero d] {limbs : List (LiftLimb d)} {a : List (Poly d)}
    (h : List.Forall₂ (LiftLimb.Fits ctx (q / 2)) limbs a) {b : List (Poly d)}
    (hb : ∀ y ∈ b, ∀ i, y i < q) (result : Poly d) (hresult : ∀ i, result i < q) :
    ∃ out, (limbs.zip b).foldlM (fun result pair => do
        ctx.validate pair.2
        let product := ctx.limbProduct pair.1 fun j => ctx.toNtt j pair.2
        .ok fun i => accumulateSigned q (result i) (product i)) result = .ok out ∧
          (∀ i, out i < q) ∧
      Poly.ring q out = Poly.ring q result + reduce q (intDot q a b) := by
  induction h generalizing b result with
  | nil => exact ⟨result, rfl, hresult, by simp⟩
  | @cons limb x limbs a hlimb _ ih =>
      cases b with
      | nil => exact ⟨result, rfl, hresult, by simp⟩
      | cons y b =>
          have hy := hb y (by simp)
          obtain ⟨out, hrun, hlt, hring⟩ := ih (fun z hz => hb z (List.mem_cons_of_mem _ hz))
            (fun i => accumulateSigned q (result i)
              (ctx.limbProduct limb (fun j => ctx.toNtt j y) i))
            fun i => accumulateSigned_lt ctx.q_pos _ _
          refine ⟨out, ?_, hlt, ?_⟩
          · rw [List.zip_cons_cons, List.foldlM_cons]
            simp only [ctx.validate_ok hy, ok_bind]
            exact hrun
          · rw [hring, intDot_cons, map_add, ← add_assoc]
            congr 1
            refine ring_addCoeffs fun i => ?_
            rw [cast_accumulateSigned ctx, hlimb.limbProduct_eq (coeffsLe_intPoly hy) fun j _ =>
              rfl]

/-- **`sum_prepared` is exact** on every operand with room for canonical polynomials. -/
theorem LiftContext.sumPrepared_spec {op : PreparedLiftOperand d q} {a b : List (Poly d)}
    (h : op.Fits ctx (q / 2) a) (hlen : a.length = b.length) (hb : ∀ y ∈ b, ∀ i, y i < q) :
    ∃ out, ctx.sumPrepared op b = .ok out ∧ IsDot q a b out := by
  have : NeZero d := ⟨ctx.d_pos.ne'⟩
  obtain ⟨out, hrun, hlt, hring⟩ := ctx.sumPrepared_run h.limbs hb (fun _ => 0)
    fun _ => ctx.q_pos
  refine ⟨out, ?_, hlt, ?_⟩
  · rw [LiftContext.sumPrepared, if_neg (by rw [h.limbs.length_eq, hlen]; simp)]
    exact hrun
  · rw [hring, Poly.ring_zero, zero_add, reduce_intDot]

/-! ## Sums in the transform domain -/

theorem LiftContext.ring_addSlots {j : Fin 3} (v w : Ntt d (PRIMES j)) :
    (ctx.params j).ring (addSlots v w) = (ctx.params j).ring v + (ctx.params j).ring w := by
  refine Params.ring_eq_of_word _ fun s => ?_
  rw [map_add, Params.eval_ring, Params.eval_ring]
  show (((if v.word s + w.word s ≥ PRIMES j then v.word s + w.word s - PRIMES j
    else v.word s + w.word s : ℕ)) : ZMod (PRIMES j)) = _
  split
  · next hge => rw [Nat.cast_sub hge, Nat.cast_add, ZMod.natCast_self, sub_zero]
  · rw [Nat.cast_add]

/-- The transform-domain sum denotes the sum of products. -/
theorem LiftContext.ring_dotNtt (j : Fin 3)
    (pairs : List (((j : Fin 3) → Ntt d (PRIMES j)) × ((j : Fin 3) → Ntt d (PRIMES j)))) :
    (ctx.params j).ring (ctx.dotNtt j pairs) = (pairs.map fun pair =>
      (ctx.params j).ring (pair.1 j) * (ctx.params j).ring (pair.2 j)).sum := by
  have hrun (start : Ntt d (PRIMES j)) : (ctx.params j).ring (pairs.foldl (fun sum pair =>
      addSlots sum (ctx.mulNtt j (pair.1 j) (pair.2 j))) start) =
      (ctx.params j).ring start + (pairs.map fun pair =>
        (ctx.params j).ring (pair.1 j) * (ctx.params j).ring (pair.2 j)).sum := by
    induction pairs generalizing start with
    | nil => simp
    | cons pair pairs ih =>
        rw [List.foldl_cons, ih, ctx.ring_addSlots, ctx.ring_mulNtt, List.map_cons, List.sum_cons,
          add_assoc]
  rw [LiftContext.dotNtt, hrun, Params.ring_zeroNtt, zero_add]

/-- The transform-domain sum of two operands denotes the integer sum of products. -/
theorem LiftContext.ring_dotNtt_eq (j : Fin 3)
    {left right : List ((j : Fin 3) → Ntt d (PRIMES j))} {a b : List (Poly d)}
    (hleft : left.map (· j) = a.map (ctx.toNtt j))
    (hright : right.map (· j) = b.map (ctx.toNtt j)) :
    (ctx.params j).ring (ctx.dotNtt j (left.zip right)) = reduce (PRIMES j) (intDot q a b) := by
  have hterms : (left.zip right).map (fun pair =>
      (ctx.params j).ring (pair.1 j) * (ctx.params j).ring (pair.2 j)) =
      List.zipWith (fun v w => (ctx.params j).ring v * (ctx.params j).ring w) (left.map (· j))
        (right.map (· j)) := by
    rw [List.zipWith_map, ← List.map_uncurry_zip_eq_zipWith]
    rfl
  rw [ctx.ring_dotNtt, hterms, hleft, hright, List.zipWith_map, intDot, map_list_sum,
    List.map_zipWith]
  simp only [ctx.ring_toNtt, map_mul]

/-- **Reconstruction from two primes** agrees with the loop that serves both counts. -/
theorem LiftContext.reconstructTwo_eq {z : ℤ} (residue : Fin 3 → ℕ)
    (hlt : residue 0 < PRIMES 0) (hlt' : residue 1 < PRIMES 1)
    (hres : ∀ j : Fin 3, (j : ℕ) < 2 → (residue j : ℤ) ≡ z [ZMOD PRIMES j])
    (hz : 2 * |z| < primeProduct 2) :
    ctx.reconstructTwo (residue 0) (residue 1) = (z % (q : ℤ)).toNat := by
  have hgarner := ctx.reconstruct_eq (Or.inl rfl) hlt hres hz
  have hp : PRIMES 0 < PRIMES 1 := by decide
  -- One conditional subtraction is the reduction modulo the second prime.
  have hdelta : (if residue 1 + PRIMES 1 - residue 0 ≥ PRIMES 1 then
      residue 1 + PRIMES 1 - residue 0 - PRIMES 1 else residue 1 + PRIMES 1 - residue 0) =
      (residue 1 + PRIMES 1 - residue 0 % PRIMES 1) % PRIMES 1 := by
    rw [Nat.mod_eq_of_lt (hlt.trans hp)]
    split
    · next hge => rw [Nat.mod_eq_sub_mod hge, Nat.mod_eq_of_lt (by omega)]
    · next hlt => rw [Nat.mod_eq_of_lt (not_le.mp hlt)]
  have hsigned : signed (residue 0 + PRIMES 0 * ((residue 1 + PRIMES 1 -
      residue 0 % PRIMES 1) % PRIMES 1 * ctx.inverses 0 % PRIMES 1)) (PRIMES 0 * PRIMES 1) = z := by
    rw [← primeProduct_two]
    exact hgarner
  unfold LiftContext.reconstructTwo
  simp only [hdelta, hsigned]
  split
  · next hpow => exact ofInt_mask (hpow.dvd_W64 (ctx.q_le.trans (by decide))) hpow z
  · rfl

/-- A sum of products in the transform domain at the first two primes. -/
theorem LiftContext.dotTwo_isDot [NeZero d] {B : ℕ}
    {left right : List ((j : Fin 3) → Ntt d (PRIMES j))} {a b : List (Poly d)}
    (hleft : ∀ j : Fin 3, (j : ℕ) < 2 → left.map (· j) = a.map (ctx.toNtt j))
    (hright : ∀ j : Fin 3, (j : ℕ) < 2 → right.map (· j) = b.map (ctx.toNtt j))
    (hb : ∀ y ∈ b, CoeffsLe (intPoly q y) B)
    (hcap : 2 * (d * (a.map (maxAbs q)).sum * B) < primeProduct 2) :
    IsDot q a b fun i =>
      ctx.reconstructTwo ((ctx.params 0).fromNttAlloc (ctx.dotNtt 0 (left.zip right)) i)
        ((ctx.params 1).fromNttAlloc (ctx.dotNtt 1 (left.zip right)) i) := by
  have hout (i : Fin d) :
      ctx.reconstructTwo ((ctx.params 0).fromNttAlloc (ctx.dotNtt 0 (left.zip right)) i)
        ((ctx.params 1).fromNttAlloc (ctx.dotNtt 1 (left.zip right)) i) =
      (coeff (intDot q a b) i % (q : ℤ)).toNat := by
    refine ctx.reconstructTwo_eq
      (fun j => (ctx.params j).fromNttAlloc (ctx.dotNtt j (left.zip right)) i)
      ((ctx.params 0).fromNttAlloc_lt _ i) ((ctx.params 1).fromNttAlloc_lt _ i)
      (fun j hj => fromNtt_modEq _ (ctx.ring_dotNtt_eq j (hleft j hj) (hright j hj)) i) ?_
    have hbound := coeffsLe_intDot a hb i
    calc 2 * |coeff (intDot q a b) i|
        ≤ ((2 * (d * (a.map (maxAbs q)).sum * B) : ℕ) : ℤ) := by push_cast at hbound ⊢; linarith
      _ < primeProduct 2 := by exact_mod_cast hcap
  refine ⟨fun i => ?_, ?_⟩
  · rw [hout]
    exact toNat_emod_lt ctx.q_pos _
  · rw [ring_emod ctx.q_pos hout, reduce_intDot]

/-- `sum_cached` after any number of limbs. -/
theorem LiftContext.sumCached_run [NeZero d] {B count : ℕ} {limbs rights : List (LiftLimb d)}
    {a b : List (Poly d)} (h : List.Forall₂ (LiftLimb.Fits ctx B) limbs a)
    (hrights : List.Forall₂ (fun limb y => limb.count = count ∧
      ∀ j : Fin 3, (j : ℕ) < count → limb.ntt j = ctx.toNtt j y) rights b)
    (hcount : ∀ limb ∈ limbs, limb.count ≤ count) (hb : ∀ y ∈ b, CoeffsLe (intPoly q y) B)
    (result : Poly d) (hresult : ∀ i, result i < q) :
    (∀ i, (limbs.zip rights).foldl (fun (result : Poly d) pair i =>
        (result i + (ctx.limbProduct pair.1 pair.2.ntt i % (q : ℤ)).toNat) % q) result i < q) ∧
      Poly.ring q ((limbs.zip rights).foldl (fun (result : Poly d) pair i =>
        (result i + (ctx.limbProduct pair.1 pair.2.ntt i % (q : ℤ)).toNat) % q) result) =
      Poly.ring q result + reduce q (intDot q a b) := by
  induction h generalizing rights b result with
  | nil => exact ⟨hresult, by simp⟩
  | @cons limb x limbs a hlimb _ ih =>
      cases hrights with
      | nil => exact ⟨hresult, by simp⟩
      | @cons right y rights b hright hrights =>
          obtain ⟨-, hntt⟩ := hright
          have hle := hcount limb List.mem_cons_self
          rw [List.zip_cons_cons, List.foldl_cons]
          obtain ⟨hlt, hring⟩ := ih hrights (fun z hz => hcount z (List.mem_cons_of_mem _ hz))
            (fun z hz => hb z (List.mem_cons_of_mem _ hz))
            (fun i => (result i + (ctx.limbProduct limb right.ntt i % (q : ℤ)).toNat) % q)
            fun i => Nat.mod_lt _ ctx.q_pos
          refine ⟨hlt, ?_⟩
          rw [hring, intDot_cons, map_add, ← add_assoc]
          congr 1
          refine ring_addCoeffs fun i => ?_
          rw [ZMod.natCast_mod, Nat.cast_add, cast_toNat_emod ctx.q_pos,
            hlimb.limbProduct_eq (hb y List.mem_cons_self) fun j hj => hntt j (hj.trans_le hle)]

/-- **`sum_cached` is exact** where the right operand has the primes of the left one. -/
theorem LiftContext.sumCached_spec [NeZero d] {B count : ℕ} {op : PreparedLiftOperand d q}
    {right : PreparedLiftRight d q} {a b : List (Poly d)} (h : op.Fits ctx B a)
    (hright : right.Holds ctx count b) (hlen : a.length = b.length) (htwo : 2 ≤ count)
    (hcount : ∀ limb ∈ op.transforms, limb.count ≤ count)
    (hb : ∀ y ∈ b, CoeffsLe (intPoly q y) B) :
    ∃ out, ctx.sumCached op right = .ok out ∧ IsDot q a b out := by
  obtain ⟨hcounts, hntts⟩ := (List.forall₂_and_left _ _).mp hright
  have hcheck : ¬(op.transforms.length ≠ right.transforms.length ∨
      ∃ pair ∈ op.transforms.zip right.transforms, pair.1.count > pair.2.count) := by
    rintro (hne | ⟨⟨limb, limb'⟩, hmem, hgt⟩)
    · exact hne (by rw [h.limbs.length_eq, hright.length_eq, hlen])
    · obtain ⟨hl, hr⟩ := List.of_mem_zip hmem
      exact absurd hgt (not_lt.mpr ((hcount limb hl).trans (hcounts limb' hr).ge))
  rw [LiftContext.sumCached, if_neg hcheck]
  split
  · next hfits =>
    refine ⟨_, rfl, ctx.dotTwo_isDot (fun j hj => ?_) (fun j hj => ?_) hb (h.sum_capacity hfits)⟩
    · rw [List.map_map]
      refine map_eq_map_of_forall₂ (h.limbs.imp fun limb x hlimb => ?_)
      refine hlimb.ntt j (hj.trans_le ?_)
      rcases hlimb.count with hc | hc <;> omega
    · rw [List.map_map]
      exact map_eq_map_of_forall₂ (hntts.imp fun limb y hy => hy j (hj.trans_le htwo))
  · obtain ⟨hlt, hring⟩ := ctx.sumCached_run h.limbs hright hcount hb (fun _ => 0)
      fun _ => ctx.q_pos
    refine ⟨_, rfl, hlt, ?_⟩
    rw [hring, Poly.ring_zero, zero_add, reduce_intDot]

/-- `sum_cached` checks the primes of the right operand. -/
theorem LiftContext.count_le_of_sumCached {count : ℕ} {op : PreparedLiftOperand d q}
    {right : PreparedLiftRight d q} {b : List (Poly d)} {out : Poly d}
    (hright : right.Holds ctx count b) (hrun : ctx.sumCached op right = .ok out) :
    ∀ limb ∈ op.transforms, limb.count ≤ count := by
  rw [LiftContext.sumCached] at hrun
  split at hrun
  · cases hrun
  · next hcheck =>
    push Not at hcheck
    obtain ⟨hlen, hcheck⟩ := hcheck
    obtain ⟨hcounts, -⟩ := (List.forall₂_and_left _ _).mp hright
    intro limb hlimb
    obtain ⟨i, hi, rfl⟩ := List.getElem_of_mem hlimb
    have hi' : i < right.transforms.length := hlen ▸ hi
    have hpair := hcheck (op.transforms[i], right.transforms[i])
      (List.mem_iff_getElem.mpr ⟨i, by simp [hi, hi'], by simp⟩)
    exact hpair.trans (hcounts _ (List.getElem_mem hi')).le

/-! ## Preparation -/

/-- What `prepare_public` keeps of one polynomial. -/
def LiftContext.limbOf (x : Poly d) : LiftLimb d :=
  ⟨if PRIMES 0 * PRIMES 1 > 2 * d * maxAbs q x * (q / 2) then 2 else 3, fun j => ctx.toNtt j x⟩

/-- The capacity of three primes, for every canonical operand. -/
theorem LiftContext.capacity_three (ctx : LiftContext d q) {m : ℕ} (hm : m ≤ q / 2) :
    2 * (d * m * (q / 2)) < primeProduct 3 := by
  have hcap := ctx.capacity
  rw [ctx.product_eq_primeProduct] at hcap
  refine lt_of_le_of_lt ?_ hcap
  have hq : q / 2 * 2 ≤ q := Nat.div_mul_le_self q 2
  calc 2 * (d * m * (q / 2)) ≤ 2 * (d * (q / 2) * (q / 2)) :=
        Nat.mul_le_mul_left _ (Nat.mul_le_mul_right _ (Nat.mul_le_mul_left _ hm))
    _ = d * (q / 2 * 2) * (q / 2) := by ring
    _ ≤ d * q * q := Nat.mul_le_mul (Nat.mul_le_mul_left _ hq) (Nat.div_le_self _ _)

theorem LiftContext.limbOf_fits {x : Poly d} (hx : ∀ i, x i < q) :
    (ctx.limbOf x).Fits ctx (q / 2) x := by
  unfold LiftContext.limbOf
  split
  · next htwo =>
    refine ⟨Or.inl rfl, fun _ _ => rfl, ?_⟩
    rw [primeProduct_two]
    calc 2 * (d * maxAbs q x * (q / 2)) = 2 * d * maxAbs q x * (q / 2) := by ring
      _ < PRIMES 0 * PRIMES 1 := htwo
  · exact ⟨Or.inr rfl, fun _ _ => rfl, ctx.capacity_three (maxAbs_le_half hx)⟩

theorem sumMax_eq (q : ℕ) (a : List (Poly d)) :
    sumMax q a = if (a.map (maxAbs q)).sum < W128 then some (a.map (maxAbs q)).sum else none := by
  rw [sumMax, foldl_checkedAdd_list W128 (maxAbs q) a (by decide), zero_add]

/-- **`prepare_public` leaves an operand with room for canonical polynomials.** -/
theorem LiftContext.preparePublic_spec {a : List (Poly d)} (hne : a ≠ [])
    (ha : ∀ x ∈ a, ∀ i, x i < q) :
    ∃ op, ctx.preparePublic a = .ok op ∧ op.transforms = a.map ctx.limbOf ∧
      op.Fits ctx (q / 2) a := by
  have hlimbs : a.mapM ctx.publicLimb = .ok (a.map ctx.limbOf) :=
    mapM_eq_ok fun x hx => by
      rw [LiftContext.publicLimb, ctx.validate_ok (ha x hx)]
      rfl
  refine ⟨_, by rw [LiftContext.preparePublic, if_neg hne, hlimbs]; rfl, rfl, ?_, ?_⟩
  · rw [List.forall₂_map_left_iff, List.forall₂_same]
    exact fun x hx => ctx.limbOf_fits (ha x hx)
  · intro hfits
    rw [sumMax_eq, Option.any_eq_true] at hfits
    obtain ⟨bound, hbound, hlt⟩ := hfits
    split at hbound
    · simp only [checkedMul, Option.bind_eq_bind, Option.bind_some] at hbound
      split at hbound
      · cases hbound
        rw [decide_eq_true_eq] at hlt
        rw [primeProduct_two]
        calc 2 * (d * (a.map (maxAbs q)).sum * (q / 2))
            = (a.map (maxAbs q)).sum * (2 * d * (q / 2)) := by ring
          _ < PRIMES 0 * PRIMES 1 := hlt
      · cases hbound
    · cases hbound

/-- `prepare_right_primes` keeps the transforms of canonical polynomials. -/
theorem LiftContext.prepareRightPrimes_spec {b : List (Poly d)} (hne : b ≠ [])
    (hb : ∀ y ∈ b, ∀ i, y i < q) (count : ℕ) :
    ∃ right, ctx.prepareRightPrimes b count = .ok right ∧ right.Holds ctx count b := by
  have hlimbs : (b.mapM fun poly => do
      ctx.validate poly
      .ok (⟨count, fun j => ctx.toNtt j poly⟩ : LiftLimb d)) =
      .ok (b.map fun poly => ⟨count, fun j => ctx.toNtt j poly⟩) :=
    mapM_eq_ok fun y hy => by rw [ctx.validate_ok (hb y hy)]; rfl
  refine ⟨⟨b.map fun poly => ⟨count, fun j => ctx.toNtt j poly⟩⟩, ?_, ?_⟩
  · rw [LiftContext.prepareRightPrimes, if_neg hne, hlimbs]
    rfl
  · rw [PreparedLiftRight.Holds, List.forall₂_map_left_iff, List.forall₂_same]
    exact fun _ _ => ⟨rfl, fun _ _ => rfl⟩

theorem LiftContext.limbOf_count_le (x : Poly d) : (ctx.limbOf x).count ≤ 3 := by
  unfold LiftContext.limbOf
  split <;> simp

/-- The primes of `prepare_bounded_right`. -/
def boundedCount (d q leftBound : ℕ) : ℕ :=
  if 2 * d * leftBound * (q / 2) < PRIMES 0 * PRIMES 1 then 2 else 3

theorem two_le_boundedCount (d q leftBound : ℕ) : 2 ≤ boundedCount d q leftBound := by
  unfold boundedCount
  split <;> decide

/-- A left operand within the bound has no more primes than the right operand. -/
theorem LiftContext.limbOf_count_le_bounded {x : Poly d} {leftBound : ℕ}
    (hx : maxAbs q x ≤ leftBound) : (ctx.limbOf x).count ≤ boundedCount d q leftBound := by
  unfold boundedCount
  split
  · next htwo =>
    have hle : 2 * d * maxAbs q x * (q / 2) ≤ 2 * d * leftBound * (q / 2) :=
      Nat.mul_le_mul_right _ (Nat.mul_le_mul_left _ hx)
    rw [LiftContext.limbOf, if_pos (by omega)]
  · exact ctx.limbOf_count_le x

/-! ## Dot products -/

/-- The capacity computation returns the capacity or overflows. -/
theorem publicDotNeed_eq {a : List (Poly d)} (rightBound : ℕ)
    (hsum : (a.map (maxAbs q)).sum < W128) (hwide : (a.map (maxAbs q)).sum * d < W128) :
    publicDotNeed d q a rightBound =
      if (a.map (maxAbs q)).sum * d * rightBound * 2 < W128 then
        some ((a.map (maxAbs q)).sum * d * rightBound * 2)
      else none := by
  rw [publicDotNeed, sumMax_eq, if_pos hsum, checkedMul_some hwide]
  by_cases hbound : (a.map (maxAbs q)).sum * d * rightBound < W128
  · rw [checkedMul_some hbound]
    simp [checkedMul]
  · have hnone : checkedMul W128 (some ((a.map (maxAbs q)).sum * d)) (some rightBound) = none := by
      simp [checkedMul, hbound]
    rw [hnone, if_neg (by omega)]
    rfl

/-- A slice of vectors is too short for the magnitudes to overflow. -/
theorem LiftContext.sum_maxAbs_lt (ctx : LiftContext d q) {a : List (Poly d)}
    (hslice : a.length * 24 < 2 ^ 63) (ha : ∀ x ∈ a, ∀ i, x i < q) :
    (a.map (maxAbs q)).sum < W128 ∧ (a.map (maxAbs q)).sum * d < W128 := by
  have hsum : (a.map (maxAbs q)).sum ≤ a.length * 2 ^ 55 := by
    have hle := List.sum_le_card_nsmul (a.map (maxAbs q)) (2 ^ 55) ?_
    · simpa using hle
    · intro m hm
      obtain ⟨x, hx, rfl⟩ := List.mem_map.mp hm
      have hhalf := maxAbs_le_half (ha x hx)
      have hq := ctx.q_le
      omega
  have hlen : a.length * 2 ^ 55 ≤ 2 ^ 59 * 2 ^ 55 := Nat.mul_le_mul_right _ (by omega)
  have hd : (a.map (maxAbs q)).sum * d ≤ 2 ^ 59 * 2 ^ 55 * 4096 :=
    Nat.mul_le_mul (hsum.trans hlen) ctx.d_le
  constructor
  · exact (hsum.trans hlen).trans_lt (by decide)
  · exact hd.trans_lt (by decide)

/-- **`prepare_public_dot` accepts what three primes can hold.** -/
theorem LiftContext.preparePublicDot_ok {a : List (Poly d)} (hne : a ≠ [])
    (hslice : a.length * 24 < 2 ^ 63) (ha : ∀ x ∈ a, ∀ i, x i < q) {rightBound : ℕ}
    (hright : rightBound ≤ q / 2)
    (hcap : 2 * d * rightBound * (a.map (maxAbs q)).sum < ctx.product) :
    ∃ op, ctx.preparePublicDot a rightBound = .ok op ∧ op.rightBound = rightBound ∧
      op.Fits ctx a := by
  obtain ⟨hsum, hwide⟩ := ctx.sum_maxAbs_lt hslice ha
  have hneed : (a.map (maxAbs q)).sum * d * rightBound * 2 =
      2 * d * rightBound * (a.map (maxAbs q)).sum := by ring
  have hneed' : (a.map (maxAbs q)).sum * d * rightBound * 2 =
      2 * (d * (a.map (maxAbs q)).sum * rightBound) := by ring
  have hword : ctx.product < W128 := by rw [ctx.product_eq]; decide
  rw [LiftContext.preparePublicDot, if_neg (by simp [hne, hright]),
    forM_eq_ok fun x hx => ctx.validate_ok (ha x hx), ok_bind,
    publicDotNeed_eq rightBound hsum hwide, if_pos (by omega)]
  dsimp only
  by_cases htwo : (a.map (maxAbs q)).sum * d * rightBound * 2 < PRIMES 0 * PRIMES 1
  · rw [if_pos htwo]
    refine ⟨_, rfl, rfl, Or.inl rfl, rfl, ?_⟩
    rw [← hneed', primeProduct_two]
    exact htwo
  · rw [if_neg htwo, if_pos (by omega)]
    refine ⟨_, rfl, rfl, Or.inr rfl, rfl, ?_⟩
    rw [← hneed', ← ctx.product_eq_primeProduct]
    omega

/-- **`prepare_public_dot` rejects the rest.** -/
theorem LiftContext.preparePublicDot_error {a : List (Poly d)} (hne : a ≠ [])
    (hslice : a.length * 24 < 2 ^ 63) (ha : ∀ x ∈ a, ∀ i, x i < q) {rightBound : ℕ}
    (hright : rightBound ≤ q / 2)
    (hcap : ctx.product ≤ 2 * d * rightBound * (a.map (maxAbs q)).sum) :
    ∃ msg, ctx.preparePublicDot a rightBound = invalidParams msg := by
  obtain ⟨hsum, hwide⟩ := ctx.sum_maxAbs_lt hslice ha
  have hneed : (a.map (maxAbs q)).sum * d * rightBound * 2 =
      2 * d * rightBound * (a.map (maxAbs q)).sum := by ring
  have htwo : PRIMES 0 * PRIMES 1 ≤ ctx.product := by rw [ctx.product_eq]; decide
  rw [LiftContext.preparePublicDot, if_neg (by simp [hne, hright]),
    forM_eq_ok fun x hx => ctx.validate_ok (ha x hx), ok_bind,
    publicDotNeed_eq rightBound hsum hwide]
  by_cases hword : (a.map (maxAbs q)).sum * d * rightBound * 2 < W128
  · rw [if_pos hword]
    dsimp only
    rw [if_neg (by omega), if_neg (by omega)]
    exact ⟨_, rfl⟩
  · rw [if_neg hword]
    exact ⟨_, rfl⟩

/-- A right operand within the bound is transformed as any other operand. -/
theorem LiftContext.rightNtt_eq {rightBound : ℕ} (j : Fin 3) {b : Poly d}
    (hb : ∀ i, (centered (b i) q).natAbs ≤ rightBound) :
    ctx.rightNtt rightBound j b = ctx.toNtt j b := by
  rw [LiftContext.rightNtt, LiftContext.toNtt]
  congr 1
  funext i
  have hbound := hb i
  unfold residues
  generalize centered (b i) q = z at hbound
  have hpos : (0 : ℤ) < PRIMES j := by exact_mod_cast PRIMES_pos j
  dsimp only
  split
  · next hsmall =>
    have hsmall' : (rightBound : ℤ) < PRIMES j := by exact_mod_cast hsmall
    split
    · next hneg =>
      rw [← Int.add_emod_right, Int.emod_eq_of_lt (by omega) (by omega)]
    · next hnonneg =>
      rw [Int.emod_eq_of_lt (by omega) (by omega)]
  · rfl

theorem LiftContext.checkRight_ok {rightBound : ℕ} {b : Poly d} (hlt : ∀ i, b i < q)
    (hb : ∀ i, (centered (b i) q).natAbs ≤ rightBound) :
    ctx.checkRight rightBound b = .ok () := by
  rw [LiftContext.checkRight, ctx.validate_ok hlt, ok_bind, if_neg]
  rintro ⟨i, hi⟩
  exact absurd (hb i) (not_le.mpr hi)

theorem coeffsLe_of_natAbs [NeZero d] {B : ℕ} {b : Poly d}
    (hb : ∀ i, (centered (b i) q).natAbs ≤ B) : CoeffsLe (intPoly q b) B := by
  intro i
  have hbound := hb i
  rw [intPoly, coeff_ofCoeffs, Int.abs_eq_natAbs]
  exact_mod_cast hbound

/-- **`public_dot` is exact** for right operands within the bound. -/
theorem LiftContext.publicDot_spec {op : PreparedPublicDot d q} {a b : List (Poly d)}
    (h : op.Fits ctx a) (hlen : a.length = b.length) (hlt : ∀ y ∈ b, ∀ i, y i < q)
    (hb : ∀ y ∈ b, ∀ i, (centered (y i) q).natAbs ≤ op.rightBound) :
    ∃ out, ctx.publicDot op b = .ok out ∧ IsDot q a b out := by
  have : NeZero d := ⟨ctx.d_pos.ne'⟩
  have hcoeffs : ∀ y ∈ b, CoeffsLe (intPoly q y) op.rightBound :=
    fun y hy => coeffsLe_of_natAbs (hb y hy)
  have hleft (j : Fin 3) : op.operands.map (· j) = a.map (ctx.toNtt j) := by
    rw [h.operands, List.map_map]
    rfl
  have hright (j : Fin 3) :
      (b.map fun poly j => ctx.rightNtt op.rightBound j poly).map (· j) = b.map (ctx.toNtt j) := by
    rw [List.map_map]
    exact List.map_congr_left fun y hy => ctx.rightNtt_eq j (hb y hy)
  have hcap := h.capacity
  rw [LiftContext.publicDot, if_neg (by rw [h.operands, List.length_map, hlen]; simp),
    forM_eq_ok fun y hy => ctx.checkRight_ok (hlt y hy) (hb y hy), ok_bind]
  dsimp only
  split
  · next htwo =>
    rw [htwo] at hcap
    exact ⟨_, rfl, ctx.dotTwo_isDot (fun j _ => hleft j) (fun j _ => hright j) hcoeffs hcap⟩
  · refine ⟨_, rfl, fun i => toNat_emod_lt ctx.q_pos _, ?_⟩
    rw [← reduce_intDot]
    refine ring_emod ctx.q_pos fun i => ?_
    have hbound := coeffsLe_intDot a hcoeffs i
    rw [ctx.reconstruct_eq h.count ((ctx.params 0).fromNttAlloc_lt _ i)
      (fun j _ => fromNtt_modEq _ (ctx.ring_dotNtt_eq j (hleft j) (hright j)) i)]
    calc 2 * |coeff (intDot q a b) i|
        ≤ ((2 * (d * (a.map (maxAbs q)).sum * op.rightBound) : ℕ) : ℤ) := by
          push_cast at hbound ⊢
          linarith
      _ < primeProduct op.count := by exact_mod_cast hcap

/-- `public_dot` rejects a coefficient beyond the bound. -/
theorem LiftContext.publicDot_error {op : PreparedPublicDot d q} {b : List (Poly d)}
    (hlt : ∀ y ∈ b, ∀ i, y i < q)
    (hb : ∃ y ∈ b, ∃ i, op.rightBound < (centered (y i) q).natAbs) :
    ∃ msg, ctx.publicDot op b = lweShape msg := by
  rw [LiftContext.publicDot]
  split
  · exact ⟨_, rfl⟩
  · have hcheck (y : Poly d) (hy : y ∈ b) (hbad : ∃ i, op.rightBound < (centered (y i) q).natAbs) :
        ctx.checkRight op.rightBound y = lweShape "public dot coefficient exceeds bound" := by
      rw [LiftContext.checkRight, ctx.validate_ok (hlt y hy), ok_bind, if_pos hbad]
    obtain ⟨y, hy, hbad⟩ := hb
    obtain ⟨z, hz, e, herror, hrun⟩ := forM_eq_error ⟨y, hy, _, hcheck y hy hbad⟩
    rw [hrun, error_bind]
    by_cases hbadz : ∃ i, op.rightBound < (centered (z i) q).natAbs
    · rw [hcheck z hz hbadz] at herror
      cases herror
      exact ⟨_, rfl⟩
    · push Not at hbadz
      rw [ctx.checkRight_ok (hlt z hz) hbadz] at herror
      cases herror

end Fits

/-! ## The entry points -/

section Exact

variable {d q : ℕ} (ctx : LiftContext d q)

theorem LiftContext.multiply_isDot {a b : Poly d} (ha : ∀ i, a i < q) (hb : ∀ i, b i < q) :
    ∃ out, ctx.multiply a b = .ok out ∧ IsDot q [a] [b] out := by
  obtain ⟨out, hrun, hlt, hring⟩ := ctx.multiply_spec ha hb
  exact ⟨out, hrun, hlt, by rw [hring]; simp [dot]⟩

theorem LiftContext.sum_isDot {a b : List (Poly d)} (hne : a ≠ []) (hlen : a.length = b.length)
    (ha : ∀ x ∈ a, ∀ i, x i < q) (hb : ∀ y ∈ b, ∀ i, y i < q) :
    ∃ out, ctx.sum a b = .ok out ∧ IsDot q a b out := by
  obtain ⟨out, hrun, hlt, hring⟩ := ctx.sum_spec hne hlen ha hb
  refine ⟨out, hrun, hlt, ?_⟩
  rw [hring, dot, ← List.map_uncurry_zip_eq_zipWith]
  rfl

/-- **Every entry point is exact**, and only `prepare_public_dot` can be out of capacity: when
twice the bound on the integer coefficients reaches the product of the three primes.  `hslice` is
the size of a slice of vectors, 24 bytes each and at most `isize::MAX` together. -/
theorem lifted_products_exact {a b : List (Poly d)} (hne : a ≠ []) (hlen : a.length = b.length)
    (ha : ∀ x ∈ a, ∀ i, x i < q) (hb : ∀ y ∈ b, ∀ i, y i < q) (hslice : a.length * 24 < 2 ^ 63) :
    (∀ x ∈ a, ∀ y ∈ b, ∃ out, ctx.multiply x y = .ok out ∧ IsDot q [x] [y] out) ∧
    (∃ out, ctx.sum a b = .ok out ∧ IsDot q a b out) ∧
    (∃ left, ctx.preparePublic a = .ok left ∧
      (∃ out, ctx.sumPrepared left b = .ok out ∧ IsDot q a b out) ∧
      (∃ right out, ctx.prepareRight b = .ok right ∧ ctx.sumCached left right = .ok out ∧
        IsDot q a b out) ∧
      ∀ leftBound ≤ q / 2, ∃ right, ctx.prepareBoundedRight b leftBound = .ok right ∧
        (∀ out, ctx.sumCached left right = .ok out → IsDot q a b out) ∧
        ((∀ x ∈ a, ∀ i, (centered (x i) q).natAbs ≤ leftBound) →
          ∃ out, ctx.sumCached left right = .ok out)) ∧
    ∀ rightBound ≤ q / 2,
      (2 * d * rightBound * (a.map (maxAbs q)).sum < PRIMES 0 * PRIMES 1 * PRIMES 2 →
        ∃ left, ctx.preparePublicDot a rightBound = .ok left ∧
          ((∀ y ∈ b, ∀ i, (centered (y i) q).natAbs ≤ rightBound) →
            ∃ out, ctx.publicDot left b = .ok out ∧ IsDot q a b out) ∧
          ((∃ y ∈ b, ∃ i, rightBound < (centered (y i) q).natAbs) →
            ∃ msg, ctx.publicDot left b = lweShape msg)) ∧
      (PRIMES 0 * PRIMES 1 * PRIMES 2 ≤ 2 * d * rightBound * (a.map (maxAbs q)).sum →
        ∃ msg, ctx.preparePublicDot a rightBound = invalidParams msg) := by
  have : NeZero d := ⟨ctx.d_pos.ne'⟩
  have hne' : b ≠ [] := by
    rintro rfl
    exact hne (List.length_eq_zero_iff.mp hlen)
  have hcoeffs : ∀ y ∈ b, CoeffsLe (intPoly q y) (q / 2 : ℕ) := fun y hy =>
    coeffsLe_intPoly (hb y hy)
  obtain ⟨left, hleft, hlimbs, hfits⟩ := ctx.preparePublic_spec hne ha
  refine ⟨fun x hx y hy => ctx.multiply_isDot (ha x hx) (hb y hy), ctx.sum_isDot hne hlen ha hb,
    ⟨left, hleft, ctx.sumPrepared_spec hfits hlen hb, ?_, ?_⟩, ?_⟩
  · obtain ⟨right, hright, hholds⟩ := ctx.prepareRightPrimes_spec hne' hb 3
    obtain ⟨out, hrun, hdot⟩ := ctx.sumCached_spec hfits hholds hlen (by decide) (by
      rw [hlimbs]
      intro limb hlimb
      obtain ⟨x, -, rfl⟩ := List.mem_map.mp hlimb
      exact ctx.limbOf_count_le x) hcoeffs
    exact ⟨right, out, hright, hrun, hdot⟩
  · intro leftBound hbound
    obtain ⟨right, hright, hholds⟩ :=
      ctx.prepareRightPrimes_spec hne' hb (boundedCount d q leftBound)
    refine ⟨right, ?_, ?_, ?_⟩
    · rw [LiftContext.prepareBoundedRight, if_neg (not_lt.mpr hbound)]
      exact hright
    · intro out hrun
      obtain ⟨out', hrun', hdot⟩ := ctx.sumCached_spec hfits hholds hlen
        (two_le_boundedCount d q leftBound) (ctx.count_le_of_sumCached hholds hrun) hcoeffs
      rw [hrun] at hrun'
      cases hrun'
      exact hdot
    · intro hsmall
      obtain ⟨out, hrun, -⟩ := ctx.sumCached_spec hfits hholds hlen
        (two_le_boundedCount d q leftBound) (by
          rw [hlimbs]
          intro limb hlimb
          obtain ⟨x, hx, rfl⟩ := List.mem_map.mp hlimb
          exact ctx.limbOf_count_le_bounded (maxAbs_le (hsmall x hx))) hcoeffs
      exact ⟨out, hrun⟩
  · intro rightBound hbound
    rw [← ctx.product_eq]
    refine ⟨fun hcap => ?_, ctx.preparePublicDot_error hne hslice ha hbound⟩
    obtain ⟨op, hop, rfl, hopFits⟩ := ctx.preparePublicDot_ok hne hslice ha hbound hcap
    exact ⟨op, hop, ctx.publicDot_spec hopFits hlen hb, ctx.publicDot_error hb⟩

/-- The entry points on two pairs of degree four modulo seventeen: right operands within their bound
and beyond it. -/
theorem lifted_products_exact_small : ∃ (ctx : LiftContext 4 17) (a b : List (Poly 4)),
    LiftContext.new smallNumberTheory 4 17 = .ok ctx ∧
      a = [![16, 16, 16, 16], ![0, 3, 6, 9]] ∧ b = [![0, 1, 2, 3], ![0, 5, 10, 15]] ∧
      (∃ out, ctx.multiply ![0, 3, 6, 9] ![0, 5, 10, 15] = .ok out ∧
        IsDot 17 [![0, 3, 6, 9]] [![0, 5, 10, 15]] out) ∧
      (∃ out, ctx.sum a b = .ok out ∧ IsDot 17 a b out) ∧
      (∃ left right out, ctx.preparePublic a = .ok left ∧ ctx.prepareRight b = .ok right ∧
        ctx.sumCached left right = .ok out ∧ IsDot 17 a b out) ∧
      (∃ left out, ctx.preparePublicDot a 7 = .ok left ∧ ctx.publicDot left b = .ok out ∧
        IsDot 17 a b out) ∧
      ∃ left msg, ctx.preparePublicDot a 6 = .ok left ∧ ctx.publicDot left b = lweShape msg := by
  obtain ⟨ctx, hctx⟩ := liftContext_new_small
  obtain ⟨hmultiply, hsum, ⟨left, hleft, -, ⟨right, out, hright, hcached, hdot⟩, -⟩, hpublic⟩ :=
    lifted_products_exact ctx (a := [![16, 16, 16, 16], ![0, 3, 6, 9]])
      (b := [![0, 1, 2, 3], ![0, 5, 10, 15]]) (by simp) rfl (by decide) (by decide) (by decide)
  obtain ⟨within, hwithin, hholds, -⟩ := (hpublic 7 (by decide)).1 (by decide)
  obtain ⟨beyond, hbeyond, -, hfails⟩ := (hpublic 6 (by decide)).1 (by decide)
  obtain ⟨dot, hrun, hvalue⟩ := hholds (by decide)
  obtain ⟨msg, hmsg⟩ := hfails ⟨![0, 5, 10, 15], by simp, 2, by decide⟩
  exact ⟨ctx, _, _, hctx, rfl, rfl, hmultiply _ (by simp) _ (by simp), hsum,
    ⟨left, right, out, hleft, hright, hcached, hdot⟩, ⟨within, dot, hwithin, hrun, hvalue⟩,
    beyond, msg, hbeyond, hmsg⟩

end Exact

end Reinspiring
