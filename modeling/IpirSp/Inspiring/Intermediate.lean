import IpirSp.Inspiring.Collapse
import IpirSp.Inspiring.Aggregate

/-!
# The intermediate ciphertext

The first two stages of the all-online path.  `transform` turns one LWE ciphertext into an `IRCtx`:
its slots are the automorphic images of the embedded mask, scaled by `d⁻¹`.  `aggregate` sums `d` of
them with the monomials `X^k`, in NTT form for the slots and by a shift for the body.

`aggregate_transform` is the result: the two stages together compute the aggregates that
`IpirSp.Inspiring.Aggregate` computes offline, and the body vector as a polynomial.
-/

namespace Inspiring

open Negacyclic SpiralRs Loops

section Code

variable (P : RlweParams)

/-- `tau_raw`. -/
def tauRaw (a : Poly P.d) (t : ℕ) : Poly P.d := P.spiral.automorphAlloc a t

/-- `tau_ntt`, one entry. -/
def tauNtt (a : Ntt P.d P.q) (t : ℕ) : Ntt P.d P.q :=
  P.spiral.toNttAlloc (tauRaw P (P.spiral.fromNttAlloc a) t)

/-- `automorphic_image`. -/
def automorphicImage {P : RlweParams} (k : KeySwitchingMatrix P) (t : ℕ) : KeySwitchingMatrix P :=
  ⟨k.mat.map fun v => tauNtt P v t⟩

/-- `scaled_tau_ntt`. -/
def scaledTauNtt (aTilde : Poly P.d) (exponent : ℕ) : Ntt P.d P.q :=
  P.spiral.toNttAlloc fun i => tauRaw P aTilde exponent i * P.dInv % P.q

/-- `transform`. -/
def transform (ct : LweCiphertext) : Outcome (IRCtx P) :=
  if ct.a.length ≠ P.d then
    .error (.panic "intermediate::transform expects an LWE vector of length d")
  else do
    let aTilde ← aTilde P ct.a
    .ok {
      aHat := (List.range P.d).map fun slot => scaledTauNtt P aTilde (slotExponent P slot)
      bTilde := bTilde P ct.b }

/-- `monomial_ntt`. -/
def monomialNtt (k : ℕ) : Ntt P.d P.q :=
  P.spiral.toNttAlloc fun i => if (i : ℕ) = k % P.d then 1 else 0

/-- The writes of `mul_raw_by_xk`. -/
def shiftWrites (poly : Poly P.d) (k : ℕ) : List (ℕ × ℕ) :=
  (List.finRange P.d).map fun idx =>
    let reduced := poly idx % P.q
    let target := (idx : ℕ) + k % P.d
    if target < P.d then (target, reduced)
    else (target - P.d, if reduced = 0 then 0 else P.q - reduced)

/-- `mul_raw_by_xk`. -/
def mulRawByXk (poly : Poly P.d) (k : ℕ) : Poly P.d := fun i =>
  applyWrites (fun _ => 0) (shiftWrites P poly k) (i : ℕ)

/-- `add_assign_raw_mod`. -/
def addAssignRawMod (out rhs : Poly P.d) : Poly P.d := fun i => (out i + rhs i) % 2 ^ 64 % P.q

/-- The body of the loop of `aggregate`. -/
def aggregateStep (acc : IRCtx P) (item : IRCtx P × ℕ) : Outcome (IRCtx P) :=
  let (ictx, k) := item
  if ictx.aHat.length ≠ P.d then
    .error (.panic "intermediate::aggregate expects each IRCtx to have d a_hat slots")
  else
    let xk := monomialNtt P k
    .ok {
      aHat := List.zipWith (fun sum slot =>
        P.spiral.addInto sum (P.spiral.multiply (fun _ : Fin 1 => slot) fun _ => xk))
          acc.aHat ictx.aHat
      bTilde := addAssignRawMod P acc.bTilde (mulRawByXk P ictx.bTilde k) }

/-- `aggregate`. -/
def aggregate (perIndex : List (IRCtx P)) : Outcome (IRCtx P) :=
  if perIndex.length ≠ P.d then
    .error (.panic "intermediate::aggregate expects exactly d IRCtx inputs")
  else
    perIndex.zipIdx.foldlM (aggregateStep P)
      ⟨List.replicate P.d P.spiral.zeroNtt, fun _ => 0⟩

end Code

variable {P : RlweParams}

/-! ## Stage one -/

theorem ring_tauNtt {e : ℕ} (he : Odd e) (v : Ntt P.d P.q) :
    P.spiral.ring (tauNtt P v e) = tau e (P.spiral.ring v) := by
  have hle (i : Fin P.d) : P.spiral.fromNttAlloc v i ≤ P.q := (P.spiral.fromNttAlloc_lt v i).le
  unfold tauNtt tauRaw
  rw [P.spiral.ring_toNttAlloc fun i =>
    P.spiral.lt_word_of_le (P.spiral.automorphAlloc_le _ _ he hle i),
    P.spiral.ring_automorphAlloc _ _ he hle]
  rfl

theorem ring_scaledTauNtt {aTilde : Poly P.d} (hlt : ∀ i, aTilde i < P.q) {e : ℕ} (he : Odd e) :
    P.spiral.ring (scaledTauNtt P aTilde e) =
      (P.dInv : ZMod P.q) • tau e (Poly.ring P.q aTilde) := by
  unfold scaledTauNtt tauRaw
  rw [P.spiral.ring_toNttAlloc fun i => P.spiral.lt_word_of_le (Nat.mod_lt _ P.q_pos).le,
    Poly.ring_mod, ← P.spiral.ring_automorphAlloc _ _ he fun i => (hlt i).le]
  refine ext_coeff fun i => ?_
  rw [Poly.coeff_ring, coeff_smul, Poly.coeff_ring, Nat.cast_mul, mul_comm]

/-- A ciphertext that stage one accepts. -/
theorem transform_eq {ct : LweCiphertext} (hlen : ct.a.length = P.d) :
    transform P ct = .ok {
      aHat := (List.range P.d).map fun slot =>
        scaledTauNtt P (aTildeCoeffs P (vecGet ct.a)) (slotExponent P slot)
      bTilde := bTilde P ct.b } := by
  unfold transform aTilde
  rw [if_neg (not_not.mpr hlen), if_pos hlen]
  rfl

/-! ## Stage two -/

theorem ring_monomialNtt {k : ℕ} (hk : k < P.d) :
    P.spiral.ring (monomialNtt P k) = x ^ k := by
  unfold monomialNtt
  rw [P.spiral.ring_toNttAlloc fun i => by split <;> decide]
  refine ext_coeff fun i => ?_
  rw [Poly.coeff_ring, coeff_x_pow_of_lt hk, Nat.mod_eq_of_lt hk]
  by_cases hi : (i : ℕ) = k
  · simp [hi]
  · simp [hi, Ne.symm hi]

/-- Where the shift puts coefficient `idx`. -/
theorem mulRawByXk_apply (poly : Poly P.d) {k : ℕ} (hk : k < P.d) (idx : Fin P.d) :
    mulRawByXk P poly k (idx + Fin.ofNat P.d k) =
      if (idx : ℕ) + k < P.d then poly idx % P.q
      else if poly idx % P.q = 0 then 0 else P.q - poly idx % P.q := by
  have hval : ((idx + Fin.ofNat P.d k : Fin P.d) : ℕ) =
      if (idx : ℕ) + k < P.d then (idx : ℕ) + k else (idx : ℕ) + k - P.d := by
    rw [Fin.val_add, Fin.val_ofNat, Nat.mod_eq_of_lt hk]
    split
    · rename_i hlt
      exact Nat.mod_eq_of_lt hlt
    · rw [Nat.mod_eq_sub_mod (by omega), Nat.mod_eq_of_lt (by omega)]
  -- What lies at a target: the coefficient `k` places before it, negated if it wrapped.
  let gather (t : ℕ) : ℕ :=
    if k ≤ t then poly (lane P (t - k)) % P.q
    else if poly (lane P (t + P.d - k)) % P.q = 0 then 0
      else P.q - poly (lane P (t + P.d - k)) % P.q
  have hgather (i : Fin P.d) :
      gather (if (i : ℕ) + k < P.d then (i : ℕ) + k else (i : ℕ) + k - P.d) =
      if (i : ℕ) + k < P.d then poly i % P.q
      else if poly i % P.q = 0 then 0 else P.q - poly i % P.q := by
    simp only [gather]
    split
    · rw [if_pos (Nat.le_add_left _ _), Nat.add_sub_cancel, lane_fin]
    · have hi := i.2
      rw [if_neg (by omega), show (i : ℕ) + k - P.d + P.d - k = i by omega, lane_fin]
  unfold mulRawByXk
  rw [hval, applyWrites_eq _ (shiftWrites P poly k) gather]
  · exact hgather idx
  · intro w hw
    obtain ⟨i, -, rfl⟩ := List.mem_map.mp hw
    have hi := hgather i
    simp only [Nat.mod_eq_of_lt hk]
    split at hi
    · rename_i hlt
      rw [if_pos hlt]
      exact hi.symm
    · rename_i hge
      rw [if_neg hge]
      exact hi.symm
  · refine ⟨_, List.mem_map.mpr ⟨idx, List.mem_finRange idx, rfl⟩, ?_⟩
    simp only [Nat.mod_eq_of_lt hk]
    split <;> rfl

/-- **`mul_raw_by_xk` multiplies by a monomial.** -/
theorem ring_mulRawByXk (poly : Poly P.d) {k : ℕ} (hk : k < P.d) :
    Poly.ring P.q (mulRawByXk P poly k) = x ^ k * Poly.ring P.q poly := by
  rw [Poly.ring, Poly.ring, ofCoeffs_apply, ofCoeffs_apply, Finset.mul_sum,
    ← Equiv.sum_comp (Equiv.addRight (Fin.ofNat P.d k))]
  refine Finset.sum_congr rfl fun i _ => ?_
  rw [Equiv.coe_addRight, mulRawByXk_apply poly hk, mul_smul_comm, ← pow_add, Fin.val_add,
    Fin.val_ofNat, Nat.mod_eq_of_lt hk, add_comm k]
  split
  · rename_i hlt
    rw [Nat.mod_eq_of_lt hlt, ZMod.natCast_mod]
  · rename_i hge
    have hi := i.2
    rw [cast_negWord (Nat.mod_lt _ P.q_pos).le, ZMod.natCast_mod, Nat.mod_eq_sub_mod (by omega),
      Nat.mod_eq_of_lt (by omega), neg_smul, ← smul_neg]
    have hsplit : (x : NegRing P.d (ZMod P.q)) ^ ((i : ℕ) + k) = -x ^ ((i : ℕ) + k - P.d) := by
      rw [← neg_one_mul, ← x_pow_d, ← pow_add, Nat.add_sub_cancel' (by omega)]
    rw [hsplit]

theorem mulRawByXk_le (poly : Poly P.d) (k : ℕ) (i : Fin P.d) : mulRawByXk P poly k i ≤ P.q := by
  refine applyWrites_induction (p := fun w => w ≤ P.q) (fun _ => Nat.zero_le _) ?_ _
  intro w hw
  obtain ⟨idx, -, rfl⟩ := List.mem_map.mp hw
  have hlt := Nat.mod_lt (poly idx) P.q_pos
  dsimp only
  split
  · exact hlt.le
  · split
    · exact Nat.zero_le _
    · exact Nat.sub_le _ _

theorem ring_addAssignRawMod (hq : P.q < 2 ^ 62) {out rhs : Poly P.d} (hout : ∀ i, out i < P.q)
    (hrhs : ∀ i, rhs i ≤ P.q) :
    Poly.ring P.q (addAssignRawMod P out rhs) = Poly.ring P.q out + Poly.ring P.q rhs := by
  refine ext_coeff fun i => ?_
  have h1 := hout i
  have h2 := hrhs i
  rw [Poly.coeff_ring, coeff_add, Poly.coeff_ring, Poly.coeff_ring, addAssignRawMod,
    Nat.mod_eq_of_lt (by omega : out i + rhs i < 2 ^ 64), ZMod.natCast_mod, Nat.cast_add]

/-- The running state of `aggregate` after the first `n` contexts, whose slots and bodies are
`slots k` and `body k`. -/
structure AggregatedTo (slots : ℕ → ℕ → NegRing P.d (ZMod P.q)) (body : ℕ → NegRing P.d (ZMod P.q))
    (n : ℕ) (acc : IRCtx P) : Prop where
  length : acc.aHat.length = P.d
  slot : ∀ e (he : e < acc.aHat.length),
    P.spiral.ring acc.aHat[e] = ∑ k ∈ Finset.range n, x ^ k * slots k e
  body_lt : ∀ i, acc.bTilde i < P.q
  body : Poly.ring P.q acc.bTilde = ∑ k ∈ Finset.range n, x ^ k * body k

/-- **One context** is added with its monomial. -/
theorem aggregateStep_spec (hq : P.q < 2 ^ 62) {slots : ℕ → ℕ → NegRing P.d (ZMod P.q)}
    {body : ℕ → NegRing P.d (ZMod P.q)} {n : ℕ} (hn : n < P.d) {acc ictx : IRCtx P}
    (hacc : AggregatedTo slots body n acc) (hlen : ictx.aHat.length = P.d)
    (hslot : ∀ e (he : e < ictx.aHat.length), P.spiral.ring ictx.aHat[e] = slots n e)
    (hbody : Poly.ring P.q ictx.bTilde = body n) :
    ∃ next, aggregateStep P acc (ictx, n) = .ok next ∧ AggregatedTo slots body (n + 1) next := by
  refine ⟨_, if_neg (not_not.mpr hlen), ?_⟩
  constructor
  · simp [hacc.length, hlen]
  · intro e he
    have he' : e < P.d := by simpa [hacc.length, hlen] using he
    rw [List.getElem_zipWith, P.spiral.ring_addInto, P.spiral.ring_multiply,
      hacc.slot e (by rwa [hacc.length]), Finset.sum_range_succ, Finset.univ_unique,
      Finset.sum_singleton, hslot e (by rwa [hlen]), ring_monomialNtt hn, mul_comm (x ^ n)]
  · intro i
    exact Nat.mod_lt _ P.q_pos
  · rw [ring_addAssignRawMod hq hacc.body_lt (mulRawByXk_le _ _), hacc.body, ring_mulRawByXk _ hn,
      hbody, Finset.sum_range_succ]

/-- **`aggregate`** sums its contexts with the monomials `X^k`. -/
theorem aggregate_spec (hq : P.q < 2 ^ 62) (slots : ℕ → ℕ → NegRing P.d (ZMod P.q))
    (body : ℕ → NegRing P.d (ZMod P.q)) {perIndex : List (IRCtx P)} (hlen : perIndex.length = P.d)
    (hper : ∀ k (hk : k < perIndex.length), perIndex[k].aHat.length = P.d ∧
      (∀ e (he : e < perIndex[k].aHat.length), P.spiral.ring perIndex[k].aHat[e] = slots k e) ∧
      Poly.ring P.q perIndex[k].bTilde = body k) :
    ∃ agg, aggregate P perIndex = .ok agg ∧ AggregatedTo slots body P.d agg := by
  have hstart : AggregatedTo slots body 0
      (⟨List.replicate P.d P.spiral.zeroNtt, fun _ => 0⟩ : IRCtx P) := by
    constructor
    · simp
    · intro e he
      simp
    · intro i
      exact P.q_pos
    · simp [Poly.ring_zero]
  have hrun := foldlM_prefix (f := aggregateStep P)
    (fun done acc => AggregatedTo slots body done.length acc) perIndex.zipIdx _ hstart ?_
  · obtain ⟨agg, hagg, hinv⟩ := hrun
    refine ⟨agg, ?_, ?_⟩
    · rw [aggregate, if_neg (not_not.mpr hlen), hagg]
    · rwa [List.length_zipIdx, hlen] at hinv
  · intro done item rest acc hsplit hacc
    -- The item after `done` is the context of its own position.
    have hpos : done.length < perIndex.length := by
      have := congrArg List.length hsplit
      simp only [List.length_zipIdx, List.length_append, List.length_cons] at this
      omega
    have hitem : item = (perIndex[done.length], done.length) := by
      have hget : perIndex.zipIdx[done.length]? = some item := by rw [hsplit]; simp
      rw [List.getElem?_zipIdx, List.getElem?_eq_getElem hpos] at hget
      simpa using hget.symm
    obtain ⟨hlength, hslot, hbody⟩ := hper done.length hpos
    rw [hitem, List.length_append, List.length_singleton]
    exact aggregateStep_spec hq (hlen ▸ hpos) hacc hlength hslot hbody

/-- **The two stages** compute the aggregates of the embedded masks and the body polynomial. -/
theorem aggregate_transform (hq : P.q < 2 ^ 62) {batch : List LweCiphertext}
    (hlen : batch.length = P.d) (hbatch : ∀ ct ∈ batch, ct.a.length = P.d) :
    ∃ agg, (batch.mapM (transform P) >>= aggregate P) = .ok agg ∧
      agg.aHat.length = P.d ∧
      (∀ e (he : e < agg.aHat.length), P.spiral.ring agg.aHat[e] =
        aggRing (fun k => aTildeCoeffs P (vecGet ((batch.map LweCiphertext.a).getD k []))) e) ∧
      (∀ i, agg.bTilde i < P.q) ∧
      Poly.ring P.q agg.bTilde = Poly.ring P.q fun k => (batch.map LweCiphertext.b).getD k 0 := by
  let masks (k : ℕ) : Poly P.d := aTildeCoeffs P (vecGet ((batch.map LweCiphertext.a).getD k []))
  let slots (k e : ℕ) : NegRing P.d (ZMod P.q) :=
    (P.dInv : ZMod P.q) • tau (slotExponent P e) (Poly.ring P.q (masks k))
  let body (k : ℕ) : NegRing P.d (ZMod P.q) :=
    (((batch.map LweCiphertext.b).getD k 0 : ℕ) : ZMod P.q) • 1
  let context (ct : LweCiphertext) : IRCtx P :=
    ⟨(List.range P.d).map fun slot =>
      scaledTauNtt P (aTildeCoeffs P (vecGet ct.a)) (slotExponent P slot), bTilde P ct.b⟩
  have hper : ∀ k (hk : k < (batch.map context).length),
      (batch.map context)[k].aHat.length = P.d ∧
        (∀ e (he : e < (batch.map context)[k].aHat.length),
          P.spiral.ring (batch.map context)[k].aHat[e] = slots k e) ∧
        Poly.ring P.q (batch.map context)[k].bTilde = body k := by
    intro k hk
    have hk' : k < batch.length := by simpa using hk
    have hmask : masks k = aTildeCoeffs P (vecGet batch[k].a) := by
      simp [masks, hk']
    refine ⟨by simp [context], ?_, ?_⟩
    · intro e he
      have hodd : Odd (slotExponent P e) := by
        rw [slotExponent_eq]
        exact odd_aggExp e
      simp only [context, slots, List.getElem_map, List.getElem_range, hmask]
      exact ring_scaledTauNtt (fun i => aTildeCoeffs_lt _ i) hodd
    · simp only [context, body, List.getElem_map, ring_bTilde]
      simp [hk']
  obtain ⟨agg, hagg, hinv⟩ := aggregate_spec hq slots body (by simpa using hlen) hper
  rw [mapM_eq_ok fun ct hct => transform_eq (hbatch ct hct), ok_bind]
  refine ⟨agg, hagg, hinv.length, ?_, hinv.body_lt, ?_⟩
  · intro e he
    rw [hinv.slot e he, aggRing, aggregateOf, Finset.sum_range, Finset.smul_sum, ← slotExponent_eq]
    refine Finset.sum_congr rfl fun k _ => ?_
    rw [mul_smul_comm]
  · rw [hinv.body, Poly.ring, ofCoeffs_apply, Finset.sum_range]
    refine Finset.sum_congr rfl fun k _ => ?_
    rw [mul_smul_comm, mul_one]

end Inspiring
