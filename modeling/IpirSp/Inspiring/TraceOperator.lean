import IpirSp.Inspiring.Automorph
import IpirSp.MachineWord.Overflow

/-!
# The trace of the source

`trace` adds up the automorphic images of a polynomial under the exponents `5^j` and `-5^j`, in the
order of its loop, with word additions that may overflow.  `traceExponents` are those exponents;
`traceExponents_perm` says that they are the odd residues modulo `2 * d`, each of them once, and
`trace_value` that the result is the constant polynomial `d · p₀` while two words of the modulus fit
one of the machine.  Above that, `trace_eq_iff`, some polynomial has another result or none.

The modulus is arbitrary here: no transform is involved, so it may be even.
-/

namespace Inspiring

open Negacyclic SpiralRs Loops MachineWord

variable {d q : ℕ}

/-- `add_assign_raw_mod`. -/
def Trace.addAssignRawMod (o : Overflow) (q : ℕ) (out rhs : Poly d) : Outcome (Poly d) :=
  match o.addLanes out rhs with
  | some sum => .ok fun i => sum i % q
  | none => .error (.panic "attempt to add with overflow")

/-- `trace`, one entry. -/
def trace (o : Overflow) (A : Automorph d q) (p : Poly d) : Outcome (Poly d) :=
  (List.range (d / 2)).foldlM (fun out j => do
    let gj := tauGPow j d
    let left := A.alloc p gj
    let right := A.alloc p (gj * h d % (2 * d))
    let out ← Trace.addAssignRawMod o q out left
    Trace.addAssignRawMod o q out right) fun _ => 0

/-- The exponents that `trace` enumerates, in its order. -/
def traceExponents (d : ℕ) : List ℕ :=
  (List.range (d / 2)).flatMap fun j => [tauGPow j d, tauGPow j d * h d % (2 * d)]

/-- The odd residues modulo `2 * d`. -/
def oddResidues (d : ℕ) : List ℕ := (List.range d).map fun k => 2 * k + 1

/-- A constant polynomial. -/
def constantPoly [NeZero d] (c : ℕ) : Poly d := fun i => if i = 0 then c else 0

/-! ## The exponents -/

section Exponents

/-- Both halves in the order of the cascade. -/
def cascadeExponents (d : ℕ) : List ℕ :=
  (List.range (d / 2)).map (leftExp d) ++ (List.range (d / 2)).map (rightExp d)

/-- **The signed powers of five are the odd residues**, each of them once. -/
theorem cascadeExponents_perm {t : ℕ} (hd : d = 2 ^ t) (ht : 0 < t) :
    (cascadeExponents d).Perm (oddResidues d) := by
  have hsum := sum_odd_eq hd ht fun e => ({e} : Multiset ℕ)
  have hmap (f : ℕ → ℕ) (n : ℕ) :
      ∑ i ∈ Finset.range n, ({f i} : Multiset ℕ) = ((List.range n).map f : Multiset ℕ) := by
    induction n with
    | zero => rfl
    | succ n ih =>
        rw [Finset.sum_range_succ, ih, List.range_succ, List.map_append, ← Multiset.coe_add]
        rfl
  rw [hmap, hmap, hmap, Multiset.coe_add] at hsum
  exact (Multiset.coe_eq_coe.mp hsum).symm

/-- Pairs in a row are the first halves and the second halves, up to order. -/
theorem flatMap_pair_perm {α β : Type*} (f g : α → β) (l : List α) :
    (l.flatMap fun a => [f a, g a]).Perm (l.map f ++ l.map g) := by
  induction l with
  | nil => exact List.Perm.nil
  | cons a l ih =>
      rw [List.flatMap_cons, List.map_cons, List.map_cons, List.cons_append]
      refine List.Perm.cons _ ?_
      exact (ih.cons (g a)).trans List.perm_middle.symm

/-- **What the trace enumerates.** -/
theorem traceExponents_perm {t : ℕ} (hd : d = 2 ^ t) (ht : 0 < t) :
    (traceExponents d).Perm (oddResidues d) := by
  have hpos : 0 < d := hd ▸ Nat.two_pow_pos t
  have hright (j : ℕ) : leftExp d j * h d % (2 * d) = rightExp d j := by
    have hneg := leftExp_mul_neg d j
    rwa [Nat.ModEq, Nat.mod_eq_of_lt (rightExp_lt hpos j)] at hneg
  have hhalves := flatMap_pair_perm (leftExp d) (rightExp d) (List.range (d / 2))
  have hexps : traceExponents d =
      (List.range (d / 2)).flatMap fun j => [leftExp d j, rightExp d j] := by
    simp only [traceExponents, tauGPow_eq hpos, hright]
  rw [hexps]
  exact hhalves.trans (cascadeExponents_perm hd ht)

end Exponents

/-! ## The sum -/

section Sum

variable {o : Overflow} {A : Automorph d q} {p : Poly d}

/-- The loop of the trace is one loop over its exponents. -/
theorem trace_eq_foldlM (o : Overflow) (A : Automorph d q) (p : Poly d) :
    trace o A p = (traceExponents d).foldlM
      (fun out e => Trace.addAssignRawMod o q out (A.alloc p e)) fun _ => 0 := by
  have hloop (js : List ℕ) (start : Poly d) : (js.foldlM (fun out j => do
      let out ← Trace.addAssignRawMod o q out (A.alloc p (tauGPow j d))
      Trace.addAssignRawMod o q out (A.alloc p (tauGPow j d * h d % (2 * d)))) start :
        Outcome (Poly d)) =
      (js.flatMap fun j => [tauGPow j d, tauGPow j d * h d % (2 * d)]).foldlM
        (fun out e => Trace.addAssignRawMod o q out (A.alloc p e)) start := by
    induction js generalizing start with
    | nil => rfl
    | cons j js ih =>
        rw [List.foldlM_cons, List.flatMap_cons, List.foldlM_append, List.foldlM_cons]
        rcases Trace.addAssignRawMod o q start (A.alloc p (tauGPow j d)) with e | out
        · rfl
        · rw [ok_bind, ok_bind, List.foldlM_cons]
          rcases Trace.addAssignRawMod o q out (A.alloc p (tauGPow j d * h d % (2 * d)))
            with e | out
          · rfl
          · rw [ok_bind, ok_bind, List.foldlM_nil]
            exact ih out
  exact hloop _ _

/-- Below half the range of a word no sum overflows. -/
theorem addAssignRawMod_ok (o : Overflow) (hq : q ≤ 2 ^ 63) {out rhs : Poly d}
    (hout : ∀ i, out i < q) (hrhs : ∀ i, rhs i ≤ q) :
    Trace.addAssignRawMod o q out rhs = .ok fun i => (out i + rhs i) % q := by
  rw [Trace.addAssignRawMod, o.addLanes_ok fun i => by
    have h1 := hout i
    have h2 := hrhs i
    omega]

/-- **A sum that is returned is exact** where additions trap or where two words always fit. -/
theorem addAssignRawMod_of_ok {out rhs sum : Poly d} (hexact : o = .traps ∨ q ≤ 2 ^ 63)
    (hout : ∀ i, out i < q) (hrhs : ∀ i, rhs i ≤ q)
    (hrun : Trace.addAssignRawMod o q out rhs = .ok sum) : ∀ i, sum i = (out i + rhs i) % q := by
  rcases hexact with rfl | hq
  · rw [Trace.addAssignRawMod, Overflow.addLanes] at hrun
    split at hrun
    · rename_i sum' hsum
      split at hsum
      · obtain rfl := Option.some.inj hsum
        obtain rfl := Except.ok.inj hrun
        exact fun i => rfl
      · cases hsum
    · cases hrun
  · rw [addAssignRawMod_ok o hq hout hrhs] at hrun
    obtain rfl := Except.ok.inj hrun
    exact fun i => rfl

/-- In a checked build one sum that does not fit is a panic. -/
theorem addAssignRawMod_traps {out rhs : Poly d} (i : Fin d) (hlarge : 2 ^ 64 ≤ out i + rhs i) :
    Trace.addAssignRawMod .traps q out rhs = .error (.panic "attempt to add with overflow") := by
  rw [Trace.addAssignRawMod, Overflow.addLanes, if_neg fun hall => (hall i).not_ge hlarge]

/-- What a sum that is returned holds, whether or not it has wrapped. -/
theorem addAssignRawMod_apply {out rhs sum : Poly d}
    (hrun : Trace.addAssignRawMod o q out rhs = .ok sum) (i : Fin d) :
    sum i = (out i + rhs i) % 2 ^ 64 % q := by
  cases o with
  | wraps =>
      obtain rfl := Except.ok.inj hrun
      rfl
  | traps =>
      rw [Trace.addAssignRawMod, Overflow.addLanes] at hrun
      split at hrun
      · rename_i sum' hsum
        split at hsum
        · rename_i hfit
          obtain rfl := Option.some.inj hsum
          obtain rfl := Except.ok.inj hrun
          rw [Nat.mod_eq_of_lt (hfit i)]
        · cases hsum
      · cases hrun

/-- **The run**: what is returned is the start plus the images of the polynomial. -/
theorem ring_addImages (hexact : o = .traps ∨ q ≤ 2 ^ 63) (hq : 0 < q) (hp : ∀ i, p i < q)
    (exps : List ℕ) (hodd : ∀ e ∈ exps, Odd e) {start out : Poly d} (hstart : ∀ i, start i < q)
    (hrun : exps.foldlM (fun out e => Trace.addAssignRawMod o q out (A.alloc p e)) start =
      .ok out) :
    (∀ i, out i < q) ∧
      Poly.ring q out = Poly.ring q start + (exps.map fun e => tau e (Poly.ring q p)).sum := by
  induction exps generalizing start with
  | nil =>
      obtain rfl := Except.ok.inj hrun
      exact ⟨hstart, by simp⟩
  | cons e exps ih =>
      rw [List.foldlM_cons] at hrun
      obtain ⟨sum, hsum, hrun⟩ := bind_eq_ok hrun
      have hp' (i : Fin d) : p i ≤ q := (hp i).le
      have he := hodd e List.mem_cons_self
      have hvalue := addAssignRawMod_of_ok hexact hstart (A.alloc_le p e he hp') hsum
      have hlt (i : Fin d) : sum i < q := by
        rw [hvalue i]
        exact Nat.mod_lt _ hq
      have hring : Poly.ring q sum = Poly.ring q start + tau e (Poly.ring q p) := by
        rw [← A.ring_alloc p e he hp', Poly.ring, Poly.ring, Poly.ring, ← map_add]
        refine congrArg ofCoeffs (funext fun i => ?_)
        rw [hvalue i, ZMod.natCast_mod, Nat.cast_add]
        rfl
      obtain ⟨hout, hsum'⟩ := ih (fun e' he' => hodd e' (List.mem_cons_of_mem _ he')) hlt hrun
      refine ⟨hout, ?_⟩
      rw [hsum', hring, List.map_cons, List.sum_cons, add_assoc]

/-- The loop returns below half the range of a word. -/
theorem exists_addImages (hq : q ≤ 2 ^ 63) (hpos : 0 < q) (hp : ∀ i, p i < q) (exps : List ℕ)
    (hodd : ∀ e ∈ exps, Odd e) {start : Poly d} (hstart : ∀ i, start i < q) :
    ∃ out, exps.foldlM (fun out e => Trace.addAssignRawMod o q out (A.alloc p e)) start =
      .ok out := by
  induction exps generalizing start with
  | nil => exact ⟨start, rfl⟩
  | cons e exps ih =>
      have hle := A.alloc_le p e (hodd e List.mem_cons_self) fun i => (hp i).le
      rw [List.foldlM_cons, addAssignRawMod_ok o hq hstart hle, ok_bind]
      exact ih (fun e' he' => hodd e' (List.mem_cons_of_mem _ he')) fun i => Nat.mod_lt _ hpos

theorem odd_of_mem_traceExponents {t : ℕ} (hd : d = 2 ^ t) (ht : 0 < t) {e : ℕ}
    (he : e ∈ traceExponents d) : Odd e := by
  obtain ⟨k, -, rfl⟩ := List.mem_map.mp ((traceExponents_perm hd ht).mem_iff.mp he)
  exact ⟨k, rfl⟩

variable [NeZero d]

/-- Residues of a multiple of the unit are those of a constant polynomial. -/
theorem eq_constantPoly {out : Poly d} (hout : ∀ i, out i < q) {c : ℕ}
    (hring : Poly.ring q out = (c : ZMod q) • 1) : out = constantPoly (c % q) := by
  funext i
  have hcoeff := congrArg (coeff · i) hring
  simp only [Poly.coeff_ring, coeff_smul] at hcoeff
  rw [← pow_zero x, coeff_x_pow_of_lt (NeZero.pos d)] at hcoeff
  have hpos : 0 < q := (Nat.zero_le _).trans_lt (hout i)
  have hzero : (0 : ℕ) = (i : ℕ) ↔ i = 0 := by rw [Fin.ext_iff, Fin.val_zero, eq_comm]
  rw [if_congr hzero rfl rfl] at hcoeff
  unfold constantPoly
  split
  · rename_i hi
    rw [if_pos hi, mul_one, ZMod.natCast_eq_natCast_iff] at hcoeff
    rwa [Nat.ModEq, Nat.mod_eq_of_lt (hout i)] at hcoeff
  · rename_i hi
    rw [if_neg hi, mul_zero, ← Nat.cast_zero, ZMod.natCast_eq_natCast_iff] at hcoeff
    rwa [Nat.ModEq, Nat.mod_eq_of_lt (hout i), Nat.zero_mod] at hcoeff

/-- **What the trace returns is `d · p₀`.** -/
theorem trace_value {t : ℕ} (hd : d = 2 ^ t) (ht : 0 < t) (hexact : o = .traps ∨ q ≤ 2 ^ 63)
    (hp : ∀ i, p i < q) {out : Poly d} (hrun : trace o A p = .ok out) :
    out = constantPoly (d * p 0 % q) := by
  have hpos : 0 < q := (Nat.zero_le _).trans_lt (hp 0)
  rw [trace_eq_foldlM] at hrun
  obtain ⟨hlt, hring⟩ := ring_addImages hexact hpos hp _ (fun e => odd_of_mem_traceExponents hd ht)
    (fun _ => hpos) hrun
  refine eq_constantPoly hlt ?_
  have hsum : ((traceExponents d).map fun e => tau e (Poly.ring q p)).sum =
      ∑ k ∈ Finset.range d, tau (2 * k + 1) (Poly.ring q p) := by
    rw [((traceExponents_perm hd ht).map _).sum_eq, oddResidues, List.map_map, ← Multiset.sum_coe]
    rfl
  rw [hring, Poly.ring_zero, zero_add, hsum, sum_tau hd, Poly.coeff_ring, Nat.cast_mul]

/-- Below half the range of a word the trace returns. -/
theorem exists_trace {t : ℕ} (hd : d = 2 ^ t) (ht : 0 < t) (hq : q ≤ 2 ^ 63) (hp : ∀ i, p i < q) :
    ∃ out, trace o A p = .ok out := by
  have hpos : 0 < q := (Nat.zero_le _).trans_lt (hp 0)
  rw [trace_eq_foldlM]
  exact exists_addImages hq hpos hp _ (fun e => odd_of_mem_traceExponents hd ht) fun _ => hpos

/-- The automorphisms fix a constant term. -/
theorem alloc_constantPoly (A : Automorph d q) {c : ℕ} (hc : c < q) (hpos : 0 < c) {e : ℕ}
    (he : Odd e) : A.alloc (constantPoly c) e 0 = c := by
  have hle (i : Fin d) : constantPoly c i ≤ q := by
    unfold constantPoly
    split
    · exact hc.le
    · exact Nat.zero_le q
  have hconst : Poly.ring q (constantPoly (d := d) c) = (c : ZMod q) • 1 := by
    rw [Poly.ring, ofCoeffs_apply, Finset.sum_eq_single 0]
    · rw [constantPoly, if_pos rfl, Fin.val_zero, pow_zero]
    · intro i _ hi
      rw [constantPoly, if_neg hi, Nat.cast_zero, zero_smul]
    · exact fun h => absurd (Finset.mem_univ _) h
  have hring := A.ring_alloc (constantPoly c) e he hle
  rw [hconst, map_smul, map_one, ← hconst] at hring
  have hcoeff := congrArg (coeff · 0) hring
  simp only [Poly.coeff_ring] at hcoeff
  have hvalue : constantPoly (d := d) c 0 = c := if_pos rfl
  rw [hvalue, ZMod.natCast_eq_natCast_iff, Nat.ModEq, Nat.mod_eq_of_lt hc] at hcoeff
  -- a word up to `q` with a nonzero residue is that residue
  rcases (A.alloc_le _ e he hle 0).lt_or_eq with hlt | heq
  · rwa [Nat.mod_eq_of_lt hlt] at hcoeff
  · rw [heq, Nat.mod_self] at hcoeff
    omega

/-- **Above half the range of a word the sums wrap**: two images of the constant `2^63` cancel. -/
theorem trace_wraps {t : ℕ} (hd : d = 2 ^ t) (ht : 0 < t) (hq : 2 ^ 63 < q) {out : Poly d}
    (hrun : trace o A (constantPoly (2 ^ 63)) = .ok out) : out 0 = 0 := by
  have hodd (e : ℕ) (he : e ∈ traceExponents d) := odd_of_mem_traceExponents hd ht he
  refine foldlM_of_ok (fun out : Poly d => out 0 = 0) rfl (fun j hj out next hout hturn => ?_) hrun
  have hleft := alloc_constantPoly A hq (by norm_num) (hodd (tauGPow j d)
    (List.mem_flatMap.mpr ⟨j, hj, List.mem_cons_self⟩))
  have hright := alloc_constantPoly A hq (by norm_num) (hodd (tauGPow j d * h d % (2 * d))
    (List.mem_flatMap.mpr ⟨j, hj, List.mem_cons_of_mem _ List.mem_cons_self⟩))
  obtain ⟨first, hfirst, hsecond⟩ := bind_eq_ok hturn
  rw [addAssignRawMod_apply hsecond, addAssignRawMod_apply hfirst, hout, hleft, hright, zero_add,
    Nat.mod_eq_of_lt (show 2 ^ 63 < 2 ^ 64 by norm_num), Nat.mod_eq_of_lt hq]
  norm_num

/-- No power of two is a multiple of a modulus that lies between two of them. -/
theorem two_pow_mod_ne_zero (hlow : 2 ^ 63 < q) (hhigh : q < 2 ^ 64) (t : ℕ) :
    2 ^ t * 2 ^ 63 % q ≠ 0 := by
  intro hzero
  rw [← pow_add] at hzero
  obtain ⟨k, -, rfl⟩ := (Nat.dvd_prime_pow Nat.prime_two).mp (Nat.dvd_of_mod_eq_zero hzero)
  have h63 := (Nat.pow_lt_pow_iff_right (show 1 < 2 by norm_num)).mp hlow
  have h64 := (Nat.pow_lt_pow_iff_right (show 1 < 2 by norm_num)).mp hhigh
  omega

/-- **The trace has its value for every polynomial exactly up to half the range of a word.** -/
theorem trace_eq_iff {t : ℕ} (hd : d = 2 ^ t) (ht : 0 < t) (hq : 1 < q) (hword : q < 2 ^ 64) :
    (∀ p : Poly d, (∀ i, p i < q) → trace o A p = .ok (constantPoly (d * p 0 % q))) ↔
      q ≤ 2 ^ 63 := by
  constructor
  · intro hall
    by_contra hlarge
    have hlow : 2 ^ 63 < q := not_le.mp hlarge
    have hrun := hall (constantPoly (2 ^ 63)) fun i => by
      unfold constantPoly
      split
      · exact hlow
      · exact Nat.zero_lt_of_lt hq
    have hzero := trace_wraps hd ht hlow hrun
    rw [constantPoly, if_pos rfl, constantPoly, if_pos rfl] at hzero
    exact two_pow_mod_ne_zero hlow hword t (hd ▸ hzero)
  · intro hle p hp
    obtain ⟨out, hrun⟩ := exists_trace (o := o) (A := A) hd ht hle hp
    rw [hrun, trace_value hd ht (Or.inr hle) hp hrun]

end Sum

end Inspiring
