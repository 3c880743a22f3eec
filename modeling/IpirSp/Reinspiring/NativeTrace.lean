import IpirSp.KeySwitch.Cascade
import IpirSp.Reinspiring.NativeBuild

/-!
# The trace of a native build

The build goes through for every batch of canonical masks, and its two chains are cascades: the
digits of a step multiply the images of the setup masks under the exponent of the step.
`traceStep_spec` is one step, `traceHalf_spec` a whole chain, and `build_ok` says that nothing on
the way can fail: digits are within the bound that the dot products were prepared for, and that
bound is far below their capacity.
-/

namespace Reinspiring

open Negacyclic SpiralRs Inspiring Loops MachineWord KeySwitch Matrix

variable {d q : ℕ} {P : NativeParams d q} {lib : NumberTheory}

/-- The exponents of automorphisms have inverses. -/
def NumberTheory.InvertsOdd (lib : NumberTheory) (d : ℕ) : Prop :=
  ∀ g, Odd g → g < 2 * d → ∃ inverse, lib.invertUintMod g (2 * d) = some inverse

/-! ## Images of digits -/

section Images

theorem coprime_of_odd (P : NativeParams d q) {g : ℕ} (hg : Odd g) : Nat.Coprime g d := by
  obtain ⟨m, hd, -⟩ := P.exists_d_eq
  rw [hd]
  exact Nat.Coprime.pow_right _ hg.coprime_two_right

theorem tauCoeffs_lt (hq : 0 < q) (a : Poly d) (g : ℕ) (i : Fin d) : tauCoeffs a g q i < q :=
  accumulateMod_lt hq _ i

/-- The image of a polynomial is the reduction of its integer image. -/
theorem tauCoeffs_eq_emod (hq : 0 < q) [NeZero d] (a : Poly d) {g : ℕ} (hg : Odd g) (i : Fin d) :
    tauCoeffs a g q i = (coeff (tau g (intPoly q a)) i % (q : ℤ)).toNat := by
  have hring : Poly.ring q (tauCoeffs a g q) = reduce q (tau g (intPoly q a)) := by
    rw [ring_tauCoeffs hq hg, reduce, baseChange_tau _ hg, ← reduce_intPoly]
  have hcoeff := congrArg (coeff · i) hring
  simp only [Poly.coeff_ring, reduce, coeff_baseChange] at hcoeff
  have hmod : (tauCoeffs a g q i : ℤ) ≡ coeff (tau g (intPoly q a)) i [ZMOD q] := by
    rw [← ZMod.intCast_eq_intCast_iff]
    exact_mod_cast hcoeff
  have hlt := tauCoeffs_lt hq a g i
  have hself : (tauCoeffs a g q i : ℤ) % q = tauCoeffs a g q i :=
    Int.emod_eq_of_lt (Int.natCast_nonneg _) (by exact_mod_cast hlt)
  rw [← hmod, hself, Int.toNat_natCast]

/-- **An image of a small polynomial is small.** -/
theorem natAbs_centered_tauCoeffs_le (P : NativeParams d q) {a : Poly d} {B : ℕ} {g : ℕ}
    (hg : Odd g) (ha : ∀ i, (centered (a i) q).natAbs ≤ B) (i : Fin d) :
    (centered (tauCoeffs a g q i) q).natAbs ≤ B := by
  have : NeZero d := ⟨P.d_pos.ne'⟩
  have himage : CoeffsLe (tau g (intPoly q a)) B :=
    (coeffsLe_of_natAbs ha).tau hg (coprime_of_odd P hg)
  rw [tauCoeffs_eq_emod P.q_pos a hg]
  refine (NativeParams.natAbs_centered_emod_le P.q_pos _).trans ?_
  have hle := himage i
  rw [Int.abs_eq_natAbs] at hle
  exact_mod_cast hle

/-- The representative of a small integer is the integer. -/
theorem centered_emod {z : ℤ} (hz : 2 * |z| < q) : centered (z % (q : ℤ)).toNat q = z := by
  have hq : (0 : ℤ) < q := lt_of_le_of_lt (by positivity) hz
  have hnonneg := Int.emod_nonneg z hq.ne'
  have hcast : (((z % (q : ℤ)).toNat : ℕ) : ℤ) = z % (q : ℤ) := Int.toNat_of_nonneg hnonneg
  unfold centered
  rcases lt_or_ge z 0 with hneg | hpos
  · rw [abs_of_neg hneg] at hz
    have hmod : z % (q : ℤ) = z + q := by
      rw [← Int.add_emod_right, Int.emod_eq_of_lt (by omega) (by omega)]
    rw [if_pos (by omega)]
    omega
  · rw [abs_of_nonneg hpos] at hz
    have hmod : z % (q : ℤ) = z := Int.emod_eq_of_lt hpos (by omega)
    rw [if_neg (by omega)]
    omega

/-- The integer polynomial of an image of a small polynomial is the image. -/
theorem intPoly_tauCoeffs (P : NativeParams d q) {a : Poly d} {B : ℕ} (hB : 2 * B < q) {g : ℕ}
    (hg : Odd g) (ha : ∀ i, (centered (a i) q).natAbs ≤ B) :
    intPoly q (tauCoeffs a g q) = tau g (intPoly q a) := by
  have : NeZero d := ⟨P.d_pos.ne'⟩
  have himage : CoeffsLe (tau g (intPoly q a)) B :=
    (coeffsLe_of_natAbs ha).tau hg (coprime_of_odd P hg)
  refine ext_coeff fun i => ?_
  have hsmall : 2 * |coeff (tau g (intPoly q a)) i| < q := by
    have hle := himage i
    have hB' : (2 * B : ℤ) < q := by exact_mod_cast hB
    linarith
  rw [intPoly, coeff_ofCoeffs, tauCoeffs_eq_emod P.q_pos a hg, centered_emod hsmall, intPoly]

/-- A sum of products over positions. -/
theorem dot_eq_sum {n : ℕ} {a b : List (Poly d)} (ha : a.length = n) (hb : b.length = n) :
    dot q a b = ∑ j : Fin n, Poly.ring q (a.getD j fun _ => 0) *
      Poly.ring q (b.getD j fun _ => 0) := by
  have hlist : List.zipWith (fun y z => Poly.ring q y * Poly.ring q z) a b =
      List.ofFn fun j : Fin n => Poly.ring q (a.getD j fun _ => 0) *
        Poly.ring q (b.getD j fun _ => 0) := by
    refine List.ext_getElem (by simp [ha, hb]) fun j hj hj' => ?_
    have hja : j < a.length := by
      rw [List.length_zipWith] at hj
      omega
    have hjb : j < b.length := by
      rw [List.length_zipWith] at hj
      omega
    rw [List.getElem_zipWith, List.getElem_ofFn, List.getD_eq_getElem _ _ hja,
      List.getD_eq_getElem _ _ hjb]
  rw [dot, hlist, List.sum_ofFn]

end Images

/-! ## One step of a chain -/

section Chain

/-- The images of the setup masks that fold a component with the exponent `exp i`. -/
noncomputable def NativeSetup.top (S : NativeSetup P) (exp : ℕ → ℕ) (i : ℕ) (j : Fin P.ell) :
    NegRing d (ZMod q) := tau (exp i) (Poly.ring q (S.w.getD j fun _ => 0))

/-- Digits as ring elements. -/
noncomputable def digitVector (P : NativeParams d q) (ds : List (Poly d)) (j : Fin P.ell) :
    NegRing d (ZMod q) := Poly.ring q (ds.getD j fun _ => 0)

/-- The digits of a polynomial, as `decompose` lists them. -/
def NativeParams.limbs (P : NativeParams d q) (a : Poly d) : List (Poly d) :=
  (List.range P.ell).map (P.limb a)

@[simp] theorem NativeParams.length_limbs (P : NativeParams d q) (a : Poly d) :
    (P.limbs a).length = P.ell := by
  rw [NativeParams.limbs, List.length_map, List.length_range]

theorem digitVector_limbs (P : NativeParams d q) (a : Poly d) (j : Fin P.ell) :
    digitVector P (P.limbs a) j = Poly.ring q (P.limb a j) := by
  rw [digitVector, List.getD_eq_getElem _ _ (by rw [P.length_limbs]; exact j.2)]
  simp [NativeParams.limbs]

theorem NativeParams.limbs_lt (P : NativeParams d q) (a : Poly d) :
    ∀ digit ∈ P.limbs a, ∀ i, digit i < q := by
  intro digit hdigit
  obtain ⟨j, -, rfl⟩ := List.mem_map.mp hdigit
  exact P.limb_lt a j

theorem NativeParams.limbs_bound (P : NativeParams d q) (a : Poly d) :
    ∀ digit ∈ P.limbs a, ∀ i, (centered (digit i) q).natAbs ≤ P.digitBound := by
  intro digit hdigit
  obtain ⟨j, -, rfl⟩ := List.mem_map.mp hdigit
  exact P.natAbs_centered_limb_le a j

/-- **One step of a chain** folds the component into the one below it. -/
theorem traceStep_spec {S : NativeSetup P} {lift : LiftContext d q}
    {publicW : PreparedPublicDot d q} (hinv : lib.InvertsOdd d) (hw : publicW.Fits lift S.w)
    (hbound : publicW.rightBound = P.digitBound) (state : Poly d × List (TraceStep d))
    (hcur : ∀ i, state.1 i < q) (prev : Poly d) {g : ℕ} (hg : Odd g) (hlt : g < 2 * d) :
    ∃ next, traceStep lib P lift publicW state (prev, g) =
        .ok (next, state.2 ++ [(state.1, P.limbs state.1)]) ∧ (∀ i, next i < q) ∧
      Poly.ring q next = Poly.ring q prev +
        S.top (fun _ => g) 0 ⬝ᵥ digitVector P (P.limbs state.1) := by
  obtain ⟨inverse, hinverse⟩ := hinv g hg hlt
  have hspec := lib.invertUintMod_spec _ _ _ hinverse
  have hodd : Odd inverse := by
    have hmod : g * inverse % 2 = 1 := by
      have hdvd := hspec.of_mul_right d
      rw [Nat.ModEq] at hdvd
      omega
    exact (Nat.odd_mul.mp (Nat.odd_iff.mpr hmod)).2
  -- The dot product accepts the digits, moved back by the inverse exponent.
  have hlen : S.w.length =
      ((P.limbs state.1).map fun digit => tauCoeffs digit inverse q).length := by
    rw [List.length_map, P.length_limbs, S.length_w]
  obtain ⟨out, hout, hdot⟩ := lift.publicDot_spec hw hlen
    (fun digit hdigit i => by
      obtain ⟨digit', -, rfl⟩ := List.mem_map.mp hdigit
      exact tauCoeffs_lt P.q_pos _ _ i)
    (fun digit hdigit i => by
      obtain ⟨digit', hdigit', rfl⟩ := List.mem_map.mp hdigit
      rw [hbound]
      exact natAbs_centered_tauCoeffs_le P hodd (P.limbs_bound _ digit' hdigit') i)
  refine ⟨fun i => prev i + tauCoeffs out g q i &&& (q - 1), ?_, fun i => mask_lt P.isPowerOfTwo _,
    ?_⟩
  · unfold traceStep
    rw [P.decompose_ok hcur, ok_bind]
    simp only [hinverse]
    unfold NativeParams.limbs at hout
    rw [hout]
    rfl
  · have hadd : Poly.ring q (fun i => prev i + tauCoeffs out g q i &&& (q - 1)) =
        Poly.ring q prev + Poly.ring q (tauCoeffs out g q) := by
      rw [Poly.ring, Poly.ring, Poly.ring, ← map_add]
      congr 1
      funext i
      rw [cast_mask P.isPowerOfTwo, Nat.cast_add]
      rfl
    have hback (p : NegRing d (ZMod q)) : tau g (tau inverse p) = p := by
      rw [tau_tau hg hodd, tau_congr (hg.mul hodd) odd_one hspec, tau_one]
      rfl
    rw [hadd, ring_tauCoeffs P.q_pos hg, hdot.ring, dot_eq_sum S.length_w
      (by rw [List.length_map, P.length_limbs]), map_sum]
    refine congrArg _ (Finset.sum_congr rfl fun j _ => ?_)
    have hjlen : (j : ℕ) < (P.limbs state.1).length := by
      rw [P.length_limbs]
      exact j.2
    have hmoved : ((P.limbs state.1).map fun digit => tauCoeffs digit inverse q).getD j
        (fun _ => 0) = tauCoeffs (P.limbs state.1)[(j : ℕ)] inverse q := by
      rw [List.getD_eq_getElem _ _ (by rwa [List.length_map]), List.getElem_map]
    rw [map_mul, hmoved, ring_tauCoeffs P.q_pos hodd, hback, digitVector,
      List.getD_eq_getElem _ _ hjlen]
    rfl

/-- **A chain is a cascade**: its result is the folded stack, its steps hold the digits, and what
the digits leave is recorded with the polynomials that they decompose. -/
theorem traceHalf_run {S : NativeSetup P} {lift : LiftContext d q}
    {publicW : PreparedPublicDot d q} (hinv : lib.InvertsOdd d) (hw : publicW.Fits lift S.w)
    (hbound : publicW.rightBound = P.digitBound) (exp : ℕ → ℕ)
    (hexp : ∀ i, Odd (exp i) ∧ exp i < 2 * d) (below : List (Poly d))
    (hbelow : ∀ a ∈ below, ∀ i, a i < q) (state : Poly d × List (TraceStep d))
    (hcur : ∀ i, state.1 i < q) :
    ∃ out steps, (below.zip ((List.range below.length).map exp).reverse).foldlM
        (traceStep lib P lift publicW) state = .ok (out, state.2 ++ steps) ∧
      (∀ i, out i < q) ∧ steps.length = below.length ∧
      (∀ step ∈ steps, (∀ i, step.1 i < q) ∧ step.2 = P.limbs step.1) ∧
      Poly.ring q out = foldSlots (S.top exp) (Poly.ring q state.1) (below.map (Poly.ring q))
        (steps.map fun step => digitVector P step.2) ∧
      ∀ g, KeySwitch.residues g (S.top exp) (Poly.ring q state.1) (below.map (Poly.ring q))
          (steps.map fun step => digitVector P step.2) =
        steps.map fun step => Poly.ring q step.1 - g ⬝ᵥ digitVector P step.2 := by
  induction below generalizing state with
  | nil =>
      refine ⟨state.1, [], ?_, hcur, rfl, by simp, by simp, fun _ => rfl⟩
      rw [List.append_nil]
      rfl
  | cons prev below ih =>
      obtain ⟨hodd, hlt⟩ := hexp below.length
      obtain ⟨next, hnext, hnextLt, hring⟩ := traceStep_spec hinv hw hbound state hcur prev hodd hlt
      obtain ⟨out, steps, hrun, houtLt, hlen, hsteps, hfold, hres⟩ :=
        ih (fun a ha => hbelow a (List.mem_cons_of_mem _ ha))
          (next, state.2 ++ [(state.1, P.limbs state.1)]) hnextLt
      have htop : S.top exp below.length = S.top (fun _ => exp below.length) 0 := rfl
      refine ⟨out, (state.1, P.limbs state.1) :: steps, ?_, houtLt, by simp [hlen], ?_, ?_, ?_⟩
      · rw [List.length_cons, List.range_succ, List.map_append, List.map_singleton,
          List.reverse_append, List.reverse_singleton, List.singleton_append, List.zip_cons_cons,
          List.foldlM_cons, hnext, ok_bind, hrun, List.append_assoc]
        rfl
      · intro step hstep
        rcases List.mem_cons.mp hstep with rfl | hstep
        · exact ⟨hcur, rfl⟩
        · exact hsteps step hstep
      · rw [hfold, List.map_cons, List.map_cons, foldSlots_cons, List.length_map, htop, hring]
      · intro g
        rw [List.map_cons, List.map_cons, residues_cons, List.length_map, htop, ← hring, hres,
          List.map_cons]

/-- What `trace_half` leaves of a stack of slots with the given last slot. -/
structure IsChain (S : NativeSetup P) (exp : ℕ → ℕ) (last : Poly d) (below : List (Poly d))
    (steps : List (TraceStep d)) (out : Poly d) : Prop where
  out_lt : ∀ i, out i < q
  length : steps.length = below.length
  steps_lt : ∀ step ∈ steps, ∀ i, step.1 i < q
  steps_digits : ∀ step ∈ steps, step.2 = P.limbs step.1
  ring_out : Poly.ring q out = foldSlots (S.top exp) (Poly.ring q last) (below.map (Poly.ring q))
    (steps.map fun step => digitVector P step.2)
  residues : ∀ g, KeySwitch.residues g (S.top exp) (Poly.ring q last) (below.map (Poly.ring q))
      (steps.map fun step => digitVector P step.2) =
    steps.map fun step => Poly.ring q step.1 - g ⬝ᵥ digitVector P step.2

/-- **`trace_half` runs its chain.** -/
theorem traceHalf_spec {S : NativeSetup P} {lift : LiftContext d q}
    {publicW : PreparedPublicDot d q} (hinv : lib.InvertsOdd d) (hw : publicW.Fits lift S.w)
    (hbound : publicW.rightBound = P.digitBound) (exp : ℕ → ℕ)
    (hexp : ∀ i, Odd (exp i) ∧ exp i < 2 * d) (n : ℕ) (slot : ℕ → Poly d)
    (hslot : ∀ m i, slot m i < q) :
    ∃ out steps, traceHalf lib P lift publicW ((List.range (n + 1)).map slot)
        ((List.range n).map exp).reverse = .ok (out, steps) ∧
      IsChain S exp (slot n) ((List.range n).map slot).reverse steps out := by
  have hbelow : ∀ a ∈ ((List.range n).map slot).reverse, ∀ i, a i < q := by
    intro a ha
    obtain ⟨m, -, rfl⟩ := List.mem_map.mp (List.mem_reverse.mp ha)
    exact hslot m
  obtain ⟨out, steps, hrun, hout, hlen, hsteps, hfold, hres⟩ :=
    traceHalf_run hinv hw hbound exp hexp
    ((List.range n).map slot).reverse hbelow (slot n, []) (hslot n)
  refine ⟨out, steps, ?_, hout, hlen, fun step hstep => (hsteps step hstep).1,
    fun step hstep => (hsteps step hstep).2, hfold, hres⟩
  have hrev : ((List.range (n + 1)).map slot).reverse =
      slot n :: ((List.range n).map slot).reverse := by
    rw [List.range_succ, List.map_append, List.map_singleton, List.reverse_append,
      List.reverse_singleton, List.singleton_append]
  rw [List.length_reverse, List.length_map, List.length_range, List.nil_append] at hrun
  rw [traceHalf, hrev]
  exact hrun

end Chain

/-! ## The slots -/

section Slots

/-- The floor of the integer trace at `g`, modulo `q`. -/
noncomputable def floorTrace [NeZero d] (q : ℕ) (masks : Fin d → Poly d) (g : ℕ) : Poly d :=
  fun i => (coeff (intTrace masks g) i / (d : ℤ) % (q : ℤ)).toNat

theorem chainExponents_eq (hd : 0 < d) :
    chainExponents d = (List.range (d / 2)).map (leftExp d) := by
  have hpow (i : ℕ) : (fun g => g * 5 % (2 * d))^[i] 1 = leftExp d i := by
    induction i with
    | zero => exact (leftExp_zero hd).symm
    | succ i ih =>
        rw [Function.iterate_succ_apply', ih]
        have hsucc := leftExp_succ d i
        rwa [Nat.ModEq, Nat.mod_eq_of_lt (leftExp_lt hd (i + 1))] at hsucc
  rw [chainExponents, ← List.range_map_iterate]
  exact List.map_congr_left fun i _ => hpow i

theorem neg_leftExp (hd : 0 < d) (i : ℕ) : (2 * d - leftExp d i) % (2 * d) = rightExp d i := by
  have hodd := odd_leftExp d i
  have hlt := leftExp_lt hd i
  have hpos : 0 < leftExp d i := hodd.pos
  have hmod := leftExp_mul_neg d i
  have hneg : leftExp d i * (2 * d - 1) ≡ 2 * d - leftExp d i [MOD 2 * d] := by
    obtain ⟨e, he⟩ := Nat.exists_eq_add_of_lt hpos
    rw [zero_add] at he
    have hsplit : leftExp d i * (2 * d - 1) = (2 * d - leftExp d i) + 2 * d * e := by
      rw [he, Nat.mul_sub, mul_one]
      have hexp : (e + 1) * (2 * d) = 2 * d + 2 * d * e := by ring
      omega
    rw [hsplit]
    exact Nat.add_mul_mod_self_left _ _ _
  have heq := hneg.symm.trans hmod
  rwa [Nat.ModEq, Nat.mod_eq_of_lt (rightExp_lt hd i)] at heq

/-- The slots of both chains are the floors of the integer traces. -/
theorem slots_eq [NeZero d] (P : NativeParams d q) {masks : Fin d → Poly d}
    (hmasks : ∀ j i, masks j i < q) :
    ∃ agg, aggregateMasks q masks = .ok agg ∧
      leftSlots agg = (List.range (d / 2)).map (fun i => floorTrace q masks (leftExp d i)) ∧
      rightSlots agg = (List.range (d / 2)).map (fun i => floorTrace q masks (rightExp d i)) := by
  obtain ⟨agg, hagg, hspec⟩ := aggregateMasks_exact P hmasks
  have hat {g : ℕ} (hg : Odd g) (hlt : g < 2 * d) :
      aggAt agg ((g - 1) / 2) = floorTrace q masks g := by
    have hidx : (g - 1) / 2 < d := by omega
    funext i
    rw [aggAt, dif_pos hidx, hspec g hg hlt ⟨_, hidx⟩ rfl i, floorTrace]
  refine ⟨agg, hagg, ?_, ?_⟩
  · rw [leftSlots, chainExponents_eq P.d_pos, List.map_map]
    exact List.map_congr_left fun i _ => hat (odd_leftExp d i) (leftExp_lt P.d_pos i)
  · rw [rightSlots, chainExponents_eq P.d_pos, List.map_map]
    refine List.map_congr_left fun i _ => ?_
    rw [Function.comp_apply, neg_leftExp P.d_pos]
    exact hat (odd_rightExp P.d_pos i) (rightExp_lt P.d_pos i)

theorem floorTrace_lt [NeZero d] (hq : 0 < q) (masks : Fin d → Poly d) (g : ℕ) (i : Fin d) :
    floorTrace q masks g i < q := toNat_emod_lt hq _

end Slots

/-! ## The whole build -/

section Build

/-- The setup masks are far below the capacity of a dot product with digits. -/
theorem preparePublicDot_setup (lift : LiftContext d q) (P : NativeParams d q) {a : List (Poly d)}
    (hlen : a.length = P.ell) (ha : ∀ x ∈ a, ∀ i, x i < q) :
    ∃ op, lift.preparePublicDot a P.digitBound = .ok op ∧ op.rightBound = P.digitBound ∧
      op.Fits lift a := by
  have hne : a ≠ [] := by
    rintro rfl
    exact P.ell_pos.ne hlen
  have hell := P.ell_le
  have hsum : (a.map (maxAbs q)).sum ≤ 8 * 2 ^ 55 := by
    have hle := List.sum_le_card_nsmul (a.map (maxAbs q)) (2 ^ 55) ?_
    · rw [List.length_map, smul_eq_mul, hlen] at hle
      exact hle.trans (Nat.mul_le_mul_right _ hell)
    · intro m hm
      obtain ⟨x, hx, rfl⟩ := List.mem_map.mp hm
      have hhalf := maxAbs_le_half (ha x hx)
      have hq := P.q_le
      omega
  have hdigit : P.digitBound ≤ 2 ^ 26 := by
    refine (min_le_left _ _).trans (Nat.pow_le_pow_right two_pos ?_)
    have hbits : P.bits ≤ 27 := P.bits_le
    omega
  refine lift.preparePublicDot_ok hne (by omega) ha P.digitBound_le ?_
  rw [lift.product_eq]
  calc 2 * d * P.digitBound * (a.map (maxAbs q)).sum ≤ 2 * 2048 * 2 ^ 26 * (8 * 2 ^ 55) :=
        Nat.mul_le_mul (Nat.mul_le_mul (Nat.mul_le_mul_left _ P.d_le) hdigit) hsum
    _ < PRIMES 0 * PRIMES 1 * PRIMES 2 := by decide

/-- **The last step** adds the digits of the right result times the second setup masks. -/
theorem lastStep_ok (S : NativeSetup P) (lift : LiftContext d q) (left : Poly d) {right : Poly d}
    (hright : ∀ i, right i < q) :
    ∃ a, lastStep S lift left right false = .ok (some (P.limbs right), a) ∧ (∀ i, a i < q) ∧
      Poly.ring q a = Poly.ring q left + dot q S.v (P.limbs right) := by
  obtain ⟨publicV, hpublic, hbound, hfits⟩ := preparePublicDot_setup lift P S.length_v S.v_lt
  obtain ⟨update, hupdate, hdot⟩ := lift.publicDot_spec hfits
    (by rw [S.length_v, P.length_limbs]) (P.limbs_lt right) (by
      rw [hbound]
      exact P.limbs_bound right)
  refine ⟨fun i => left i + update i &&& (q - 1), ?_, fun i => mask_lt P.isPowerOfTwo _, ?_⟩
  · rw [lastStep, if_neg (by decide), hpublic, ok_bind, P.decompose_ok hright, ok_bind]
    unfold NativeParams.limbs at hupdate
    rw [hupdate]
    rfl
  · rw [← hdot.ring, Poly.ring, Poly.ring, Poly.ring, ← map_add]
    congr 1
    funext i
    rw [cast_mask P.isPowerOfTwo, Nat.cast_add]
    rfl

/-- What the trace stage leaves of a batch of masks. -/
structure IsTrace [NeZero d] (S : NativeSetup P) (masks : Fin d → Poly d) (twoMask : Bool)
    (leftSteps rightSteps : List (TraceStep d)) (trace : NativeTrace d q) : Prop where
  steps : trace.steps = leftSteps ++ rightSteps
  left : IsChain S (leftExp d) (floorTrace q masks (leftExp d (d / 2 - 1)))
    ((List.range (d / 2 - 1)).map fun i => floorTrace q masks (leftExp d i)).reverse leftSteps
    trace.left
  right : IsChain S (rightExp d) (floorTrace q masks (rightExp d (d / 2 - 1)))
    ((List.range (d / 2 - 1)).map fun i => floorTrace q masks (rightExp d i)).reverse rightSteps
    trace.right
  a_lt : ∀ i, trace.a i < q
  two_mask : twoMask = true → trace.last = none ∧ trace.a = trace.left
  one_mask : twoMask = false → trace.last = some (P.limbs trace.right) ∧
    Poly.ring q trace.a = Poly.ring q trace.left + dot q S.v (P.limbs trace.right)

/-- **The trace stage goes through** on every batch of canonical masks. -/
theorem traceMasks_ok [NeZero d] {S : NativeSetup P} {lift : LiftContext d q}
    (hlift : LiftContext.new lib d q = .ok lift) (hinv : lib.InvertsOdd d)
    (masks : Fin d → Poly d) (hmasks : ∀ j i, masks j i < q) (twoMask : Bool) :
    ∃ trace leftSteps rightSteps, traceMasks lib S (List.ofFn masks) twoMask = .ok trace ∧
      trace.lift = lift ∧ IsTrace S masks twoMask leftSteps rightSteps trace := by
  obtain ⟨agg, hagg, hleftSlots, hrightSlots⟩ := slots_eq P hmasks
  obtain ⟨publicW, hpublic, hbound, hfits⟩ := preparePublicDot_setup lift P S.length_w S.w_lt
  have hd := P.d_pos
  have htwo := P.two_le_d
  obtain ⟨m, hm⟩ : ∃ m, d / 2 = m + 1 := ⟨d / 2 - 1, by omega⟩
  have hm' : d / 2 - 1 = m := by omega
  obtain ⟨left, leftSteps, hleft, hleftChain⟩ := traceHalf_spec hinv hfits hbound (leftExp d)
    (fun i => ⟨odd_leftExp d i, leftExp_lt hd i⟩) m (fun i => floorTrace q masks (leftExp d i))
    fun i => floorTrace_lt P.q_pos masks _
  obtain ⟨right, rightSteps, hright, hrightChain⟩ := traceHalf_spec hinv hfits hbound (rightExp d)
    (fun i => ⟨odd_rightExp hd i, rightExp_lt hd i⟩) m (fun i => floorTrace q masks (rightExp d i))
    fun i => floorTrace_lt P.q_pos masks _
  -- The exponents of the two halves are those of the collapse.
  have htake : (collapseKgExponents d).take (d / 2 - 1) =
      ((List.range m).map (leftExp d)).reverse := by
    rw [collapseKgExponents_eq hd, hm', List.take_left' (by simp)]
  have hdrop : (collapseKgExponents d).drop (d / 2 - 1) =
      ((List.range m).map (rightExp d)).reverse := by
    rw [collapseKgExponents_eq hd, hm', List.drop_left' (by simp)]
  obtain ⟨a, last, hlast, ha, htwoMask, honeMask⟩ : ∃ a last,
      lastStep S lift left right twoMask = .ok (last, a) ∧ (∀ i, a i < q) ∧
        (twoMask = true → last = none ∧ a = left) ∧
        (twoMask = false → last = some (P.limbs right) ∧
          Poly.ring q a = Poly.ring q left + dot q S.v (P.limbs right)) := by
    cases twoMask with
    | true => exact ⟨left, none, rfl, hleftChain.out_lt, fun _ => ⟨rfl, rfl⟩, fun h => by cases h⟩
    | false =>
        obtain ⟨a, hlast, ha, hring⟩ := lastStep_ok S lift left
          hrightChain.out_lt
        exact ⟨a, _, hlast, ha, (fun h => by cases h), fun _ => ⟨rfl, hring⟩⟩
  refine ⟨⟨lift, leftSteps ++ rightSteps, left, right, last, a⟩, leftSteps, rightSteps, ?_, rfl, ?_⟩
  · have hrows : (fun j : Fin d => (List.ofFn masks).get
        (j.cast (not_not.mp (not_not.mpr (List.length_ofFn (f := masks)))).symm)) = masks := by
      funext j
      simp
    rw [traceMasks, dif_neg (not_not.mpr (List.length_ofFn (f := masks))),
      forM_eq_ok (fun row hrow => ?_), ok_bind, hlift, ok_bind, hrows, hagg, ok_bind, hpublic,
      ok_bind]
    · dsimp only
      rw [htake, hdrop, hleftSlots, hrightSlots, hm, hleft, ok_bind]
      dsimp only
      rw [hright, ok_bind]
      dsimp only
      rw [hlast]
      rfl
    · obtain ⟨j, rfl⟩ := (List.mem_ofFn' masks row).mp hrow
      exact validatePoly_ok P (hmasks j)
  · rw [← hm'] at hleftChain hrightChain
    exact ⟨rfl, hleftChain, hrightChain, ha, htwoMask, honeMask⟩

/-- The terms that digit `j` of a trace is compiled from. -/
def digitTerms (steps : List (TraceStep d)) (j : ℕ) : List (Term d) :=
  (steps.map fun step => step.2.getD j fun _ => 0).zip (collapseKgExponents d)

/-- **Every digit of a trace is compiled.** -/
theorem compileDigit_ok (P : NativeParams d q) {steps : List (TraceStep d)}
    (hlen : steps.length = d / 2 - 1 + (d / 2 - 1))
    (hdigits : ∀ step ∈ steps, ∀ digit ∈ step.2, ∀ i, digit i < q) (j : ℕ) :
    ∃ M, compileDigit q steps j = .ok M ∧ IsCompiled d q M (digitTerms steps j) := by
  have htwo := P.two_le_d
  have hq := P.le_q
  by_cases hd : d = 2
  · -- At degree two the chains have no steps.
    have hnil : steps = [] := List.length_eq_zero_iff.mp (by omega)
    subst hnil
    exact ⟨_, if_pos hd, isCompiled_zero P.q_pos⟩
  · have hreduced : ∀ t ∈ steps.map (fun step => step.2.getD j fun _ => 0), Reduced q t := by
      intro t ht i
      obtain ⟨step, hstep, rfl⟩ := List.mem_map.mp ht
      rw [List.getD_eq_getElem?_getD]
      rcases hget : step.2[j]? with _ | digit
      · exact P.q_pos
      · exact hdigits step hstep digit (List.mem_of_getElem? hget) i
    have hne : steps.map (fun step => step.2.getD j fun _ => 0) ≠ [] := by
      intro hnil
      have hfour : d / 2 ≠ 1 := by
        obtain ⟨m, hm, -⟩ := P.exists_d_eq
        rcases m with _ | m
        · exact absurd hm hd
        · rw [pow_succ, pow_succ] at hm
          have := Nat.two_pow_pos m
          omega
      have hzero := congrArg List.length hnil
      rw [List.length_map, List.length_nil] at hzero
      omega
    obtain ⟨M, hM⟩ := compileFast_ok hne (by rw [List.length_map, hlen, length_collapseKgExponents])
      (by omega : 2 ≤ q) (P.q_le.trans (by decide)) htwo (P.d_le.trans (by decide)) P.d_eq hreduced
      fun g hg => ⟨odd_of_mem_collapseKgExponents P.d_pos hg,
        lt_of_mem_collapseKgExponents P.d_pos hg⟩
    exact ⟨M, (if_neg hd).trans hM, compileFast_isCompiled hM⟩

/-- **A trace is compiled**: the block holds the stored matrix of the digits of its steps. -/
theorem compileTrace_ok (supportsPacked : Bool) (S : NativeSetup P) (trace : NativeTrace d q)
    (hlen : trace.steps.length = d / 2 - 1 + (d / 2 - 1))
    (hdigits : ∀ step ∈ trace.steps, ∀ digit ∈ step.2, ∀ i, digit i < q)
    (hlast : ∀ last, trace.last = some last → last ≠ [] ∧ ∀ digit ∈ last, ∀ i, digit i < q) :
    ∃ B blocks, compileTrace supportsPacked S trace = .ok B ∧
      List.Forall₂ (fun j M => IsCompiled d q M (digitTerms trace.steps j)) (List.range P.ell)
        blocks ∧ NativeMatrix.fromBlocks supportsPacked blocks = .ok B.h ∧ B.a = trace.a ∧
      (trace.last = none → B.aOther = some trace.right ∧ B.leftover = none) ∧
      ∀ last, trace.last = some last → B.aOther = none := by
  obtain ⟨blocks, hblocks⟩ := exists_mapM_eq_ok (f := compileDigit q trace.steps)
    (l := List.range P.ell) fun j _ => by
      obtain ⟨M, hM, -⟩ := compileDigit_ok P hlen hdigits j
      exact ⟨M, hM⟩
  have hall := forall₂_of_mapM_eq_ok hblocks
  have hcompiled : List.Forall₂ (fun j M => IsCompiled d q M (digitTerms trace.steps j))
      (List.range P.ell) blocks := hall.imp fun j M hM => by
    obtain ⟨M', hM', hterms⟩ := compileDigit_ok P hlen hdigits j
    rw [hM] at hM'
    cases hM'
    exact hterms
  have hshape : ∀ M ∈ blocks, M.rows = d ∧ M.q = q ∧ M.cols = d ∧ ∀ r c, M.entry r c < q := by
    intro M hM
    obtain ⟨n, hn, rfl⟩ := List.getElem_of_mem hM
    have hn' : n < (List.range P.ell).length := hcompiled.length_eq ▸ hn
    have hspec := hcompiled.get hn' hn
    exact ⟨hspec.rows, hspec.modulus, hspec.cols, hspec.entry_lt⟩
  have hwidth : (blocks.map PackingMatrix.cols).sum ≤ 32768 := by
    have hle := List.sum_le_card_nsmul (blocks.map PackingMatrix.cols) d ?_
    · rw [List.length_map, ← hcompiled.length_eq, List.length_range, smul_eq_mul] at hle
      exact hle.trans ((Nat.mul_le_mul P.ell_le P.d_le).trans (by decide))
    · intro c hc
      obtain ⟨M, hM, rfl⟩ := List.mem_map.mp hc
      exact (hshape M hM).2.2.1.le
  have hne : blocks ≠ [] := by
    intro hnil
    have hlen' := hcompiled.length_eq
    rw [List.length_range, hnil, List.length_nil] at hlen'
    exact P.ell_pos.ne' hlen'
  have hq := P.le_q
  have hd := P.d_pos
  obtain ⟨M, hM⟩ := NativeMatrix.fromBlocks_ok supportsPacked hne (by omega : 2 ≤ q) P.q_le
    (by omega : d ≠ 0) (fun b hb => by
      obtain ⟨hrows, hmod, hcols, hentry⟩ := hshape b hb
      exact ⟨hrows, hmod, by omega, fun r _ c _ => hentry r c⟩) hwidth
  rw [compileTrace, compileMatrix, hblocks, ok_bind, hM, ok_bind, NativeTrace.toBlock]
  rcases hcase : trace.last with _ | last
  · exact ⟨_, blocks, rfl, hcompiled, hM, rfl, fun _ => ⟨rfl, rfl⟩, fun _ hsome => by cases hsome⟩
  · obtain ⟨hlastNe, hlastLt⟩ := hlast last hcase
    obtain ⟨op, hop, -, -⟩ := trace.lift.preparePublic_spec hlastNe hlastLt
    simp only [hop, ok_bind]
    exact ⟨_, blocks, rfl, hcompiled, hM, rfl, (fun hnone => by cases hnone), fun _ _ => rfl⟩

/-- **Every batch of canonical masks is built**, in either mode. -/
theorem build_ok (supportsPacked : Bool) {S : NativeSetup P} {lift : LiftContext d q}
    (hlift : LiftContext.new lib d q = .ok lift) (hinv : lib.InvertsOdd d)
    (masks : Fin d → Poly d) (hmasks : ∀ j i, masks j i < q) (twoMask : Bool) :
    ∃ B, NativePreprocessed.build lib supportsPacked S (List.ofFn masks) twoMask = .ok B ∧
      B.aOther.isSome = twoMask := by
  have : NeZero d := ⟨P.d_pos.ne'⟩
  obtain ⟨trace, leftSteps, rightSteps, htrace, -, hspec⟩ :=
    traceMasks_ok (S := S) hlift hinv masks hmasks twoMask
  have hsteps : ∀ step ∈ trace.steps, step.2 = P.limbs step.1 := by
    intro step hstep
    rw [hspec.steps, List.mem_append] at hstep
    exact hstep.elim (hspec.left.steps_digits step) (hspec.right.steps_digits step)
  obtain ⟨B, -, hB, -, -, -, hnone, hsome⟩ := compileTrace_ok supportsPacked S trace
    (by rw [hspec.steps, List.length_append, hspec.left.length, hspec.right.length]; simp)
    (fun step hstep digit hdigit => by
      rw [hsteps step hstep] at hdigit
      exact P.limbs_lt _ digit hdigit)
    (fun last hlast => by
      cases twoMask with
      | true =>
          rw [(hspec.two_mask rfl).1] at hlast
          cases hlast
      | false =>
          rw [(hspec.one_mask rfl).1] at hlast
          cases hlast
          refine ⟨fun hnil => ?_, P.limbs_lt _⟩
          have hzero := congrArg List.length hnil
          rw [P.length_limbs] at hzero
          exact P.ell_pos.ne' hzero)
  refine ⟨B, by rw [NativePreprocessed.build, htrace]; exact hB, ?_⟩
  cases twoMask with
  | true => rw [(hnone (hspec.two_mask rfl).1).1]; rfl
  | false => rw [hsome _ (hspec.one_mask rfl).1]; rfl

end Build

/-! ## A small instance -/

/-- The small layers with the inverses modulo eight. -/
def nativeNumberTheory : NumberTheory where
  init := smallNumberTheory.init
  invertUintMod a m := if a * a % 8 = 1 ∧ m = 8 then some a else smallNumberTheory.invertUintMod a m
  invertUintMod_spec a m inv h := by
    split at h
    · next hsquare =>
      cases h
      rw [hsquare.2]
      exact hsquare.1
    · exact smallNumberTheory.invertUintMod_spec a m inv h

/-- Every odd residue modulo eight is its own inverse. -/
theorem invertsOdd_native : nativeNumberTheory.InvertsOdd 4 := by
  intro g hg hlt
  refine ⟨g, if_pos ⟨?_, rfl⟩⟩
  have hsquare : ∀ n < 8, n % 2 = 1 → n * n % 8 = 1 := by decide
  exact hsquare g hlt (Nat.odd_iff.mp hg)

theorem liftContext_new_native :
    ∃ lift, LiftContext.new nativeNumberTheory 4 (2 ^ 16) = .ok lift :=
  ⟨_, rfl⟩

/-- The primitives of the small setups. -/
def smallPrimitives : Primitives :=
  ⟨fun bytes _ => UInt8.ofNat bytes.length, fun _ n => 48271 * (n + 1)⟩

/-- A setup of degree four. -/
def smallSetup : NativeSetup smallNativeParams :=
  NativeSetup.new smallPrimitives smallNativeParams fun _ => 7

end Reinspiring
