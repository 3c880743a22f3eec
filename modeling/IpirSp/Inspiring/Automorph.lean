import IpirSp.Inspiring.Params
import IpirSp.Negacyclic.Exponents

/-!
# Automorphisms in slot order

In NTT form an automorphism is an index permutation, but the slot order belongs to `spiral-rs`, so
the code discovers the permutation: it transforms two random probes and their automorphic images
and looks every image pair up among the probe pairs.  `matchProbeSlots` and `nttAutomorphTable`
are that search; it ends in a panic when sixteen pairs of probes in a row have a collision.
`ProbesSeparate` says that they do not.

The search is sound whatever the probes are: `matchProbeSlots_eq` shows that a table it returns is
the permutation `Slots.perm` of the exponent.  `tauGPowerTables_eq` is the specification that
later modules use: the two table families are the automorphisms `5^i` and `-5^i`, in order.
-/

namespace Inspiring

open Negacyclic SpiralRs

/-- The generator of the automorphism subgroup. -/
def G : ℕ := 5

theorem odd_G : Odd G := ⟨2, rfl⟩

/-- The exponent of the conjugation. -/
def h (d : ℕ) : ℕ := 2 * d - 1

theorem odd_h {d : ℕ} (hd : 0 < d) : Odd (h d) := odd_two_mul_sub_one hd

/-- The square-and-multiply loop of `tau_g_pow`. -/
def tauGPowLoop (modulus acc base exp : ℕ) : ℕ :=
  if _hexp : exp = 0 then acc
  else
    let acc := if exp % 2 = 1 then acc * base % modulus else acc
    tauGPowLoop modulus acc (base * base % modulus) (exp / 2)
termination_by exp
decreasing_by omega

/-- `tau_g_pow`: the exponent of the `j`-th power of `τ_g`. -/
def tauGPow (j d : ℕ) : ℕ := tauGPowLoop (2 * d) 1 (G % (2 * d)) j

theorem tauGPowLoop_modEq (m acc base exp : ℕ) :
    tauGPowLoop m acc base exp ≡ acc * base ^ exp [MOD m] := by
  induction acc, base, exp using tauGPowLoop.induct m with
  | case1 acc base =>
      unfold tauGPowLoop
      simp [Nat.ModEq]
  | case2 acc base exp hne acc' ih =>
      unfold tauGPowLoop
      rw [dif_neg hne]
      refine ih.trans ?_
      have hacc : acc' ≡ acc * base ^ (exp % 2) [MOD m] := by
        rcases Nat.mod_two_eq_zero_or_one exp with h0 | h1
        · simp [acc', h0, Nat.ModEq]
        · simp [acc', h1, Nat.ModEq]
      have hbase : (base * base % m) ^ (exp / 2) ≡ (base ^ 2) ^ (exp / 2) [MOD m] := by
        rw [pow_two]
        exact (Nat.mod_modEq _ _).pow _
      refine (hacc.mul hbase).trans ?_
      rw [mul_assoc, ← pow_mul, ← pow_add, Nat.mod_add_div]

theorem tauGPowLoop_lt {m acc : ℕ} (base exp : ℕ) (hacc : acc < m) :
    tauGPowLoop m acc base exp < m := by
  induction acc, base, exp using tauGPowLoop.induct m with
  | case1 acc base =>
      unfold tauGPowLoop
      simpa using hacc
  | case2 acc base exp hne acc' ih =>
      unfold tauGPowLoop
      rw [dif_neg hne]
      refine ih ?_
      simp only [acc']
      split
      · exact Nat.mod_lt _ (by omega)
      · exact hacc

/-- `tau_g_pow` is the power of five modulo `2 * d`. -/
theorem tauGPow_eq {d : ℕ} (hd : 0 < d) (j : ℕ) : tauGPow j d = leftExp d j := by
  have hlt : tauGPow j d < 2 * d := tauGPowLoop_lt _ _ (by omega)
  have hmod := tauGPowLoop_modEq (2 * d) 1 (G % (2 * d)) j
  rw [one_mul] at hmod
  have h5 := hmod.trans ((Nat.mod_modEq G (2 * d)).pow j)
  rw [← Nat.mod_eq_of_lt hlt]
  exact h5

/-! ## Tables -/

/-- An NTT slot permutation with the exponent it belongs to.  The constructor of the source checks
that the indices are a permutation. -/
structure NttAutomorphTable (d : ℕ) where
  exponent : ℕ
  indices : Fin d → Fin d
  bijective : Function.Bijective indices

theorem NttAutomorphTable.ext {d : ℕ} {T T' : NttAutomorphTable d}
    (hexp : T.exponent = T'.exponent) (hidx : ∀ s, T.indices s = T'.indices s) : T = T' := by
  obtain ⟨e, f, hf⟩ := T
  obtain ⟨e', f', hf'⟩ := T'
  obtain rfl : e = e' := hexp
  obtain rfl : f = f' := funext hidx
  rfl

/-- `NttAutomorphTable::new_checked`. -/
def newChecked {d : ℕ} (exponent : ℕ) (indices : Fin d → Fin d) : Outcome (NttAutomorphTable d) :=
  if hb : Function.Bijective indices then .ok ⟨exponent, indices, hb⟩
  else .error (.panic
    (s!"NTT automorphism table for exponent {exponent} is not a permutation of 0..{d}; " ++
      "the packing hot loop's index masking depends on this invariant"))

/-- `match_probe_slots`: the map of probe pairs to slots, if it has no collision, read at every
image pair. -/
def matchProbeSlots {d q : ℕ} (probeA probeB autoA autoB : Ntt d q) : Option (Fin d → Fin d) :=
  if Function.Injective fun s => (probeA.word s, probeB.word s) then
    let position (idx : Fin d) : Option (Fin d) := (List.finRange d).find? fun src =>
      probeA.word src = autoA.word idx ∧ probeB.word src = autoB.word idx
    if hall : ∀ idx, (position idx).isSome then some fun idx => (position idx).get (hall idx)
    else none
  else none

section Tables

variable (P : RlweParams)

/-- One of the two probes of an attempt. -/
def probe (attempt k : ℕ) : Poly P.d := P.spiral.randomRng (.u64 (0xA7700000 + attempt)) k

/-- One attempt of the table search. -/
def probeAttempt (exponent attempt : ℕ) : Option (Fin P.d → Fin P.d) :=
  let S := P.spiral
  matchProbeSlots (S.toNttAlloc (probe P attempt 0)) (S.toNttAlloc (probe P attempt 1))
    (S.toNttAlloc (S.automorphAlloc (probe P attempt 0) exponent))
    (S.toNttAlloc (S.automorphAlloc (probe P attempt 1) exponent))

/-- `ntt_automorph_table`. -/
def nttAutomorphTable (exponent : ℕ) : Outcome (NttAutomorphTable P.d) :=
  let exponent := exponent % (2 * P.d)
  if exponent % 2 = 1 then
    match (List.range 16).findSome? (probeAttempt P exponent) with
    | some indices => newChecked exponent indices
    | none => .error (.panic "failed to build collision-free NTT automorphism table")
  else .error (.panic "automorphism exponent must be odd modulo 2d")

/-- `identity_table`. -/
def identityTable : Outcome (NttAutomorphTable P.d) := newChecked 1 fun idx => idx

/-- `compose_tables`. -/
def composeTables (first second : NttAutomorphTable P.d) (exponent : ℕ) :
    Outcome (NttAutomorphTable P.d) :=
  newChecked exponent fun idx => first.indices (second.indices idx)

/-- The loop of `tau_g_power_tables`, with the number of tables still to push. -/
def powerTablesLoop (gTable hTable : NttAutomorphTable P.d) :
    ℕ → NttAutomorphTable P.d →
      Outcome (List (NttAutomorphTable P.d) × List (NttAutomorphTable P.d))
  | 0, _ => .ok ([], [])
  | count + 1, current => do
      let right ← composeTables P current hTable (current.exponent * hTable.exponent % (2 * P.d))
      let next ← composeTables P current gTable (current.exponent * gTable.exponent % (2 * P.d))
      let (lefts, rights) ← powerTablesLoop gTable hTable count next
      .ok (current :: lefts, right :: rights)

/-- `tau_g_power_tables`: the first `count` powers of `τ_g`, and those composed with `τ_h`. -/
def tauGPowerTables (count : ℕ) :
    Outcome (List (NttAutomorphTable P.d) × List (NttAutomorphTable P.d)) := do
  let gTable ← nttAutomorphTable P (G % (2 * P.d))
  let hTable ← nttAutomorphTable P (h P.d)
  let current ← identityTable P
  powerTablesLoop P gTable hTable count current

/-- `apply_tau_ntt_alloc`, one entry. -/
def applyTauNtt {d q : ℕ} (input : Ntt d q) (table : NttAutomorphTable d) : Ntt d q :=
  ⟨fun s => input.word (table.indices s), fun s => input.lt (table.indices s)⟩

@[simp] theorem applyTauNtt_word {d q : ℕ} (input : Ntt d q) (table : NttAutomorphTable d)
    (s : Fin d) : (applyTauNtt input table).word s = input.word (table.indices s) := rfl

/-! ## Soundness of the search -/

/-- The table of the automorphism with a given odd exponent. -/
noncomputable def tauTable (e : ℕ) : NttAutomorphTable P.d :=
  if he : Odd e then ⟨e, P.spiral.slots.perm e, P.spiral.slots.perm_bijective P.d_eq he⟩
  else ⟨e, id, Function.bijective_id⟩

variable {P}

@[simp] theorem tauTable_exponent (e : ℕ) : (tauTable P e).exponent = e := by
  unfold tauTable
  split <;> rfl

theorem tauTable_indices {e : ℕ} (he : Odd e) : (tauTable P e).indices = P.spiral.slots.perm e := by
  rw [tauTable, dif_pos he]

/-- Reading through the table of an exponent is applying the automorphism. -/
theorem ring_applyTauNtt {e : ℕ} (he : Odd e) (v : Ntt P.d P.q) :
    P.spiral.ring (applyTauNtt v (tauTable P e)) = tau e (P.spiral.ring v) := by
  refine P.spiral.ring_eq_of_word fun s => ?_
  rw [P.spiral.slots.eval_tau he, P.spiral.eval_ring, applyTauNtt_word, tauTable_indices he]

theorem newChecked_eq_tauTable {e : ℕ} (he : Odd e) {indices : Fin P.d → Fin P.d}
    (hidx : ∀ s, indices s = P.spiral.slots.perm e s) :
    newChecked e indices = .ok (tauTable P e) := by
  obtain rfl : indices = P.spiral.slots.perm e := funext hidx
  rw [newChecked, dif_pos (P.spiral.slots.perm_bijective P.d_eq he), tauTable, dif_pos he]

/-- The words of an automorphic image are the words of the original, moved between slots. -/
theorem word_of_ring_eq_tau {e : ℕ} (he : Odd e) {v w : Ntt P.d P.q}
    (hvw : P.spiral.ring w = tau e (P.spiral.ring v)) (s : Fin P.d) :
    w.word s = v.word (P.spiral.slots.perm e s) := by
  have hw : w = applyTauNtt v (tauTable P e) :=
    P.spiral.ring_injective (by rw [hvw, ring_applyTauNtt he])
  rw [hw, applyTauNtt_word, tauTable_indices he]

section Match

variable {e : ℕ} {a b autoA autoB : Ntt P.d P.q}

/-- **A probe match is the slot permutation of the automorphism**, whatever the probes are. -/
theorem matchProbeSlots_eq (he : Odd e) (ha : P.spiral.ring autoA = tau e (P.spiral.ring a))
    (hb : P.spiral.ring autoB = tau e (P.spiral.ring b)) {indices : Fin P.d → Fin P.d}
    (hmatch : matchProbeSlots a b autoA autoB = some indices) (s : Fin P.d) :
    indices s = P.spiral.slots.perm e s := by
  simp only [matchProbeSlots] at hmatch
  split at hmatch
  · rename_i hinj
    split at hmatch
    · rename_i hall
      have hfun := congrFun (Option.some.inj hmatch) s
      have hfound := List.find?_some (Option.eq_some_of_isSome (hall s))
      rw [hfun] at hfound
      simp only [decide_eq_true_eq, word_of_ring_eq_tau he ha, word_of_ring_eq_tau he hb] at hfound
      exact hinj (Prod.ext hfound.1 hfound.2)
    · cases hmatch
  · cases hmatch

/-- Without a collision the match succeeds. -/
theorem matchProbeSlots_isSome (he : Odd e) (ha : P.spiral.ring autoA = tau e (P.spiral.ring a))
    (hb : P.spiral.ring autoB = tau e (P.spiral.ring b))
    (hinj : Function.Injective fun s => (a.word s, b.word s)) :
    (matchProbeSlots a b autoA autoB).isSome := by
  simp only [matchProbeSlots, if_pos hinj]
  rw [dif_pos]
  · rfl
  · intro idx
    rw [List.find?_isSome]
    refine ⟨P.spiral.slots.perm e idx, List.mem_finRange _, ?_⟩
    simp [word_of_ring_eq_tau he ha, word_of_ring_eq_tau he hb]

end Match

variable (P) in
/-- Some attempt of the table search draws probes without a collision.  The probes depend on
nothing but `P`, so every table of a parameter set is found or none is. -/
def ProbesSeparate : Prop :=
  ∃ attempt < 16, Function.Injective fun s =>
    ((P.spiral.toNttAlloc (probe P attempt 0)).word s,
      (P.spiral.toNttAlloc (probe P attempt 1)).word s)

instance : Decidable (ProbesSeparate P) := by
  unfold ProbesSeparate
  infer_instance

theorem ring_autoProbe {e : ℕ} (he : Odd e) (attempt k : ℕ) :
    P.spiral.ring (P.spiral.toNttAlloc (P.spiral.automorphAlloc (probe P attempt k) e)) =
      tau e (P.spiral.ring (P.spiral.toNttAlloc (probe P attempt k))) := by
  have hle (i : Fin P.d) : probe P attempt k i ≤ P.q := (P.spiral.randomRng_lt _ _ i).le
  rw [P.spiral.ring_toNttAlloc fun i =>
    P.spiral.lt_word_of_le (P.spiral.automorphAlloc_le _ _ he hle i),
    P.spiral.ring_automorphAlloc _ _ he hle,
    P.spiral.ring_toNttAlloc fun i => P.spiral.lt_word_of_le (hle i)]

theorem probeAttempt_eq {e attempt : ℕ} (he : Odd e) {indices : Fin P.d → Fin P.d}
    (h : probeAttempt P e attempt = some indices) (s : Fin P.d) :
    indices s = P.spiral.slots.perm e s :=
  matchProbeSlots_eq he (ring_autoProbe he attempt 0) (ring_autoProbe he attempt 1) h s

/-- **The table search**: with separating probes it finds the table of the exponent. -/
theorem nttAutomorphTable_eq (hsep : ProbesSeparate P) {e : ℕ} (he : Odd e) :
    nttAutomorphTable P e = .ok (tauTable P (e % (2 * P.d))) := by
  have hodd := odd_mod_two_mul he P.d
  obtain ⟨attempt, hlt, hinj⟩ := hsep
  have hsome := matchProbeSlots_isSome hodd (ring_autoProbe hodd attempt 0)
    (ring_autoProbe hodd attempt 1) hinj
  have hfind : ((List.range 16).findSome? (probeAttempt P (e % (2 * P.d)))).isSome := by
    rw [List.findSome?_isSome_iff]
    exact ⟨attempt, List.mem_range.mpr hlt, hsome⟩
  obtain ⟨indices, hindices⟩ := Option.isSome_iff_exists.mp hfind
  obtain ⟨found, -, hfound⟩ := List.exists_of_findSome?_eq_some hindices
  simp only [nttAutomorphTable, if_pos (Nat.odd_iff.mp hodd), hindices]
  exact newChecked_eq_tauTable hodd (probeAttempt_eq hodd hfound)

theorem identityTable_eq : identityTable P = .ok (tauTable P 1) :=
  newChecked_eq_tauTable odd_one fun s => (P.spiral.slots.perm_one s).symm

theorem composeTables_eq {e e' e'' : ℕ} (he : Odd e) (he' : Odd e') (he'' : Odd e'')
    (hmod : e * e' ≡ e'' [MOD 2 * P.d]) :
    composeTables P (tauTable P e) (tauTable P e') e'' = .ok (tauTable P e'') := by
  refine newChecked_eq_tauTable he'' fun s => ?_
  rw [tauTable_indices he, tauTable_indices he', P.spiral.slots.perm_perm he he',
    P.spiral.slots.perm_congr (he.mul he') he'' hmod]

/-- The tables of the left half from index `i` on. -/
noncomputable def leftTables (P : RlweParams) (i count : ℕ) : List (NttAutomorphTable P.d) :=
  (List.range' i count).map fun j => tauTable P (leftExp P.d j)

/-- The tables of the right half from index `i` on. -/
noncomputable def rightTables (P : RlweParams) (i count : ℕ) : List (NttAutomorphTable P.d) :=
  (List.range' i count).map fun j => tauTable P (rightExp P.d j)

/-- What the loop pushes when it has reached index `i`. -/
theorem powerTablesLoop_eq (count i : ℕ) :
    powerTablesLoop P (tauTable P (G % (2 * P.d))) (tauTable P (h P.d)) count
      (tauTable P (leftExp P.d i)) = .ok (leftTables P i count, rightTables P i count) := by
  have hG : Odd (G % (2 * P.d)) := odd_mod_two_mul odd_G P.d
  have hh : Odd (h P.d) := odd_h P.d_pos
  induction count generalizing i with
  | zero => rfl
  | succ count ih =>
      have hright : (leftExp P.d i * h P.d) % (2 * P.d) = rightExp P.d i := by
        have := leftExp_mul_neg P.d i
        rwa [Nat.ModEq, Nat.mod_eq_of_lt (rightExp_lt P.d_pos i)] at this
      have hnext : (leftExp P.d i * (G % (2 * P.d))) % (2 * P.d) = leftExp P.d (i + 1) := by
        have := leftExp_succ P.d i
        rw [Nat.ModEq, Nat.mod_eq_of_lt (leftExp_lt P.d_pos (i + 1))] at this
        rw [Nat.mul_mod_mod]
        exact this
      rw [powerTablesLoop]
      simp only [tauTable_exponent, hright, hnext]
      rw [composeTables_eq (odd_leftExp _ _) hh (odd_rightExp P.d_pos _) (by
          rw [Nat.ModEq, hright, Nat.mod_eq_of_lt (rightExp_lt P.d_pos i)]),
        composeTables_eq (odd_leftExp _ _) hG (odd_leftExp _ _) (by
          rw [Nat.ModEq, hnext, Nat.mod_eq_of_lt (leftExp_lt P.d_pos (i + 1))])]
      show (do
        let (lefts, rights) ← powerTablesLoop P (tauTable P (G % (2 * P.d))) (tauTable P (h P.d))
          count (tauTable P (leftExp P.d (i + 1)))
        Except.ok (tauTable P (leftExp P.d i) :: lefts, tauTable P (rightExp P.d i) :: rights)) = _
      rw [ih]
      rfl

/-- **The table families of the packing cascade** are the automorphisms `5^i` and `-5^i`. -/
theorem tauGPowerTables_eq (hsep : ProbesSeparate P) (count : ℕ) :
    tauGPowerTables P count = .ok (leftTables P 0 count, rightTables P 0 count) := by
  have hh : h P.d % (2 * P.d) = h P.d := Nat.mod_eq_of_lt (by have := P.d_pos; simp only [h]; omega)
  rw [tauGPowerTables, nttAutomorphTable_eq hsep (odd_mod_two_mul odd_G P.d),
    nttAutomorphTable_eq hsep (odd_h P.d_pos), identityTable_eq, Nat.mod_mod]
  have hloop := powerTablesLoop_eq (P := P) count 0
  rw [leftExp_zero P.d_pos] at hloop
  show powerTablesLoop P _ (tauTable P (h P.d % (2 * P.d))) count _ = _
  rw [hh, hloop]

/-- The panic of an exhausted table search. -/
def tableSearchPanic : Failure InspiringError :=
  .panic "failed to build collision-free NTT automorphism table"

/-- Without separating probes every table request panics. -/
theorem nttAutomorphTable_panic (hsep : ¬ProbesSeparate P) {e : ℕ} (he : Odd e) :
    nttAutomorphTable P e = .error tableSearchPanic := by
  have hnone : (List.range 16).findSome? (probeAttempt P (e % (2 * P.d))) = none := by
    rw [List.findSome?_eq_none_iff]
    intro attempt hattempt
    refine if_neg fun hinj => hsep ⟨attempt, List.mem_range.mp hattempt, hinj⟩
  simp only [nttAutomorphTable, if_pos (Nat.odd_iff.mp (odd_mod_two_mul he P.d)), hnone]
  rfl

theorem tauGPowerTables_panic (hsep : ¬ProbesSeparate P) (count : ℕ) :
    tauGPowerTables P count = .error tableSearchPanic := by
  rw [tauGPowerTables, nttAutomorphTable_panic hsep (odd_mod_two_mul odd_G P.d)]
  rfl

end Tables

/-- The probes of the small parameter set separate its slots. -/
theorem probesSeparate_smallParams : ProbesSeparate smallParams := by decide

end Inspiring
