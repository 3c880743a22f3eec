import IpirSp.Inspiring.TraceOperator
import IpirSp.Reinspiring.NativeTrace
import IpirSp.SpiralRs.Automorph

/-!
# The order of the slots

`build` has its aggregates by odd exponent, slot `(g - 1) / 2` for `g`, and moves them into the
order of the cascade: the powers of five, then their negatives.  `orderSlots` is that loop, with
`std::mem::take` leaving an empty slot behind; a slot that were taken twice would come out empty the
second time.

`trace_and_slots_iff` is the fact under both packings: the exponents of the trace, and the slots of
the cascade, are the odd residues modulo `2 * d`, each of them once, and the trace is `d · p₀` while
its word sums cannot wrap.
-/

namespace Reinspiring

open Negacyclic SpiralRs Inspiring Loops MachineWord

section Code

variable {α : Type} [Inhabited α]

/-- `std::mem::take(&mut agg[i])`: the slot, and the array with a default in its place. -/
def takeSlot (agg : List α) (i : ℕ) : Result (α × List α) :=
  if i < agg.length then .ok (agg.getD i default, agg.set i default)
  else .error (.panic "index out of bounds")

/-- One of the two loops that fill `slots`, from the exponent `g` on; `index` is the slot it
takes. -/
def orderLoop (d : ℕ) (index : ℕ → ℕ) : ℕ → ℕ → List α × List α → Result (List α × List α)
  | 0, _, state => .ok state
  | count + 1, g, (slots, agg) => do
      let (slot, agg) ← takeSlot agg (index g)
      orderLoop d index count (g * 5 % (2 * d)) (slots ++ [slot], agg)

/-- The reordering in `build`: the slots, and what is left of the array. -/
def orderSlots (d : ℕ) (agg : List α) : Result (List α × List α) := do
  let state ← orderLoop d (fun g => (g - 1) / 2) (d / 2) 1 ([], agg)
  orderLoop d (fun g =>
    let e := (2 * d - g) % (2 * d)
    (e - 1) / 2) (d / 2) 1 state

end Code

/-! ## Taking slots -/

section Take

variable {α : Type} [Inhabited α]

/-- One slot is taken and put at the end. -/
def takeStep (state : List α × List α) (i : ℕ) : Result (List α × List α) := do
  let (slot, agg) ← takeSlot state.2 i
  .ok (state.1 ++ [slot], agg)

/-- A loop takes the slots of the exponents it runs through. -/
theorem orderLoop_eq (d : ℕ) (index : ℕ → ℕ) (count g : ℕ) (state : List α × List α) :
    orderLoop d index count g state =
      ((List.iterate (fun g => g * 5 % (2 * d)) g count).map index).foldlM takeStep state := by
  induction count generalizing g state with
  | zero => rfl
  | succ count ih =>
      rw [List.iterate, List.map_cons, List.foldlM_cons, orderLoop, takeStep]
      rcases takeSlot state.2 (index g) with e | ⟨slot, agg⟩
      · rfl
      · rw [ok_bind, ok_bind, ok_bind]
        exact ih _ _

/-- The array after some slots have been taken. -/
def cleared (indices : List ℕ) (agg : List α) : List α :=
  indices.foldl (fun agg i => agg.set i default) agg

@[simp] theorem length_cleared (indices : List ℕ) (agg : List α) :
    (cleared indices agg).length = agg.length := by
  induction indices generalizing agg with
  | nil => rfl
  | cons i indices ih => rw [cleared, List.foldl_cons, ← cleared, ih, List.length_set]

theorem getD_set_default (agg : List α) (i j : ℕ) :
    (agg.set i default).getD j default = if j = i then default else agg.getD j default := by
  rw [List.getD_eq_getElem?_getD, List.getElem?_set, List.getD_eq_getElem?_getD]
  by_cases hij : i = j
  · subst hij
    rw [if_pos rfl, if_pos rfl]
    split <;> rfl
  · rw [if_neg hij, if_neg (Ne.symm hij)]

theorem getD_cleared (indices : List ℕ) (agg : List α) (j : ℕ) :
    (cleared indices agg).getD j default = if j ∈ indices then default else agg.getD j default := by
  induction indices generalizing agg with
  | nil => rw [if_neg List.not_mem_nil]; rfl
  | cons i indices ih =>
      rw [cleared, List.foldl_cons, ← cleared, ih, getD_set_default]
      by_cases hmem : j ∈ indices
      · rw [if_pos hmem, if_pos (List.mem_cons_of_mem _ hmem)]
      · rw [if_neg hmem]
        refine if_congr ?_ rfl rfl
        rw [List.mem_cons, or_iff_left hmem]

/-- **Distinct slots come out as they were**, in the order of the indices. -/
theorem foldlM_takeStep {indices : List ℕ} (hnodup : indices.Nodup) {slots agg : List α}
    (hlt : ∀ i ∈ indices, i < agg.length) :
    indices.foldlM takeStep (slots, agg) =
      .ok (slots ++ indices.map (fun i => agg.getD i default), cleared indices agg) := by
  induction indices generalizing slots agg with
  | nil => rw [List.map_nil, List.append_nil]; rfl
  | cons i indices ih =>
      obtain ⟨hnew, hnodup⟩ := List.nodup_cons.mp hnodup
      have htake : takeStep (slots, agg) i =
          .ok (slots ++ [agg.getD i default], agg.set i default) := by
        rw [takeStep, takeSlot, if_pos (hlt i List.mem_cons_self), ok_bind]
      rw [List.foldlM_cons, htake, ok_bind, ih hnodup fun j hj => by
        rw [List.length_set]
        exact hlt j (List.mem_cons_of_mem _ hj)]
      -- the slots that are left are not the one taken
      have hrest : indices.map (fun j => (agg.set i default).getD j default) =
          indices.map fun j => agg.getD j default := by
        refine List.map_congr_left fun j hj => ?_
        rw [getD_set_default, if_neg]
        rintro rfl
        exact hnew hj
      rw [hrest, List.map_cons, List.append_assoc]
      rfl

/-- A permutation of all indices empties the array. -/
theorem cleared_of_perm {indices : List ℕ} {agg : List α}
    (hperm : indices.Perm (List.range agg.length)) :
    cleared indices agg = List.replicate agg.length default := by
  refine List.ext_getElem (by rw [length_cleared, List.length_replicate]) fun j hj _ => ?_
  rw [← List.getD_eq_getElem _ default hj, getD_cleared, if_pos, List.getElem_replicate]
  rw [length_cleared] at hj
  exact hperm.mem_iff.mpr (List.mem_range.mpr hj)

/-- Reading an array at all its indices. -/
theorem map_getD_range (agg : List α) :
    (List.range agg.length).map (fun i => agg.getD i default) = agg := by
  refine List.ext_getElem (by rw [List.length_map, List.length_range]) fun i hi hi' => ?_
  rw [List.getElem_map, List.getElem_range, List.getD_eq_getElem _ _ hi']

end Take

/-! ## The cascade order -/

section Order

variable {d t : ℕ} {α : Type} [Inhabited α]

/-- The slots of the cascade. -/
def cascadeSlots (d : ℕ) : List ℕ := (cascadeExponents d).map fun e => (e - 1) / 2

/-- **The slots of the cascade are all slots**, each of them once. -/
theorem cascadeSlots_perm (hd : d = 2 ^ t) (ht : 0 < t) :
    (cascadeSlots d).Perm (List.range d) := by
  have hslots : (oddResidues d).map (fun e => (e - 1) / 2) = List.range d := by
    rw [oddResidues, List.map_map]
    refine (List.map_congr_left fun k _ => ?_).trans (List.map_id _)
    show (2 * k + 1 - 1) / 2 = k
    omega
  rw [← hslots]
  exact (cascadeExponents_perm hd ht).map _

/-- The two loops take the slots of the cascade. -/
theorem orderSlots_eq_foldlM (hpos : 0 < d) (agg : List α) :
    orderSlots d agg = (cascadeSlots d).foldlM takeStep ([], agg) := by
  have hleft : (chainExponents d).map (fun g => (g - 1) / 2) =
      ((List.range (d / 2)).map (leftExp d)).map fun e => (e - 1) / 2 := by
    rw [chainExponents_eq hpos]
  have hright : (chainExponents d).map (fun g => ((2 * d - g) % (2 * d) - 1) / 2) =
      ((List.range (d / 2)).map (rightExp d)).map fun e => (e - 1) / 2 := by
    rw [chainExponents_eq hpos, List.map_map, List.map_map]
    refine List.map_congr_left fun i _ => ?_
    rw [Function.comp_apply, Function.comp_apply, neg_leftExp hpos]
  rw [orderSlots, cascadeSlots, cascadeExponents, List.map_append, List.foldlM_append, ← hleft,
    ← hright]
  simp only [orderLoop_eq]
  rfl

/-- **The reordering**: the slots come out in the order of the cascade and none is left behind. -/
theorem orderSlots_ok (hd : d = 2 ^ t) (ht : 0 < t) {agg : List α} (hlen : agg.length = d) :
    orderSlots d agg =
      .ok ((cascadeSlots d).map fun i => agg.getD i default, List.replicate d default) := by
  have hperm := cascadeSlots_perm hd ht
  have hnodup : (cascadeSlots d).Nodup := hperm.nodup_iff.mpr List.nodup_range
  have hlt (i : ℕ) (hi : i ∈ cascadeSlots d) : i < agg.length := by
    rw [hlen]
    exact List.mem_range.mp (hperm.mem_iff.mp hi)
  rw [orderSlots_eq_foldlM (hd ▸ Nat.two_pow_pos t), foldlM_takeStep hnodup hlt, List.nil_append,
    cleared_of_perm (by rwa [hlen]), hlen]

/-- **The reordering keeps every slot**: a permutation of the aggregates, by the exponents of the
cascade. -/
theorem orderSlots_perm (hd : d = 2 ^ t) (ht : 0 < t) {agg : List α} (hlen : agg.length = d) :
    ∃ slots, orderSlots d agg = .ok (slots, List.replicate d default) ∧ slots.Perm agg ∧
      slots = (cascadeExponents d).map fun e => agg.getD ((e - 1) / 2) default := by
  refine ⟨_, orderSlots_ok hd ht hlen, ?_, ?_⟩
  · have hperm := cascadeSlots_perm hd ht
    rw [← hlen] at hperm
    have hmap := hperm.map fun i => agg.getD i default
    rwa [map_getD_range, hlen] at hmap
  · rw [cascadeSlots, List.map_map]
    rfl

/-- A degree that has an odd residue in its trace is not one. -/
theorem pos_of_traceExponents_perm (hd : d = 2 ^ t)
    (hperm : (traceExponents d).Perm (oddResidues d)) : 0 < t := by
  rcases Nat.eq_zero_or_pos t with rfl | ht
  · subst hd
    have hlen := hperm.length_eq
    rw [oddResidues, List.length_map, List.length_range] at hlen
    cases hlen
  · exact ht

/-- **The trace keeps the constant term exactly up to half the range of a word.**  At every degree
and every modulus of a word, in either build: the trace of every polynomial is `d · p₀`, and the
exponents it enumerates, those of the cascade and the slots that the native packing reorders are the
odd residues modulo `2 * d`, each of them once, if and only if the modulus is at most `2^63` and the
degree at least two. -/
theorem trace_and_slots_iff {q : ℕ} [NeZero d] (hd : d = 2 ^ t) (hq : 1 < q) (hword : q < 2 ^ 64)
    (A : Automorph d q) (o : Overflow) :
    ((∀ p : Poly d, (∀ i, p i < q) → trace o A p = .ok (constantPoly (d * p 0 % q))) ∧
      (traceExponents d).Perm (oddResidues d) ∧ (cascadeExponents d).Perm (oddResidues d) ∧
      ∀ {α : Type} [Inhabited α] (agg : List α), agg.length = d → ∃ slots,
        orderSlots d agg = .ok (slots, List.replicate d default) ∧ slots.Perm agg ∧
          slots = (cascadeExponents d).map fun e => agg.getD ((e - 1) / 2) default) ↔
      q ≤ 2 ^ 63 ∧ 2 ≤ d := by
  constructor
  · rintro ⟨htrace, hperm, -⟩
    have ht := pos_of_traceExponents_perm hd hperm
    refine ⟨(trace_eq_iff hd ht hq hword).mp htrace, ?_⟩
    rw [hd]
    exact Nat.le_self_pow ht.ne' 2
  · rintro ⟨hle, hdeg⟩
    have ht : 0 < t := by
      by_contra hzero
      rw [Nat.eq_zero_of_not_pos hzero] at hd
      omega
    exact ⟨(trace_eq_iff hd ht hq hword).mpr hle, traceExponents_perm hd ht,
      cascadeExponents_perm hd ht, fun _ hlen => orderSlots_perm hd ht hlen⟩

/-- Degree four, with an even modulus, and degree two above half the range of a word. -/
theorem trace_and_slots_iff_four :
    (∀ o, trace o (.scatter (show 4 = 2 ^ 2 from rfl) (by decide) 256) ![3, 1, 4, 1] =
        .ok (constantPoly 12)) ∧
      (∃ slots, orderSlots 4 [10, 11, 12, 13] = .ok (slots, [0, 0, 0, 0]) ∧
        slots.Perm [10, 11, 12, 13]) ∧
      ∀ o, ¬∀ p : Poly 2, (∀ i, p i < 2 ^ 64 - 59) →
        trace o (.scatter (show 2 = 2 ^ 1 from rfl) (by decide) (2 ^ 64 - 59)) p =
          .ok (constantPoly (2 * p 0 % (2 ^ 64 - 59))) := by
  have hfour (o : Overflow) := (trace_and_slots_iff (d := 4) (t := 2) rfl (by decide) (by decide)
    (.scatter (show 4 = 2 ^ 2 from rfl) (by decide) 256) o).mpr ⟨by decide, by decide⟩
  obtain ⟨slots, hrun, hperm, -⟩ := (hfour .wraps).2.2.2 [10, 11, 12, 13] rfl
  refine ⟨fun o => (hfour o).1 ![3, 1, 4, 1] (by decide), ⟨slots, hrun, hperm⟩, fun o htrace => ?_⟩
  have hslots := (trace_and_slots_iff (d := 2) (t := 1) rfl (by decide) (by decide)
    (.scatter (show 2 = 2 ^ 1 from rfl) (by decide) 256) .wraps).mpr ⟨by decide, by decide⟩
  have hlarge := (trace_and_slots_iff (d := 2) (t := 1) rfl (by decide) (by decide)
    (.scatter (show 2 = 2 ^ 1 from rfl) (by decide) (2 ^ 64 - 59)) o).mp
    ⟨htrace, hslots.2.1, hslots.2.2.1, hslots.2.2.2⟩
  exact absurd hlarge.1 (by decide)

section DegreeTwo

variable {q c : ℕ} {A : Automorph 2 q}

/-- Both images of a constant at degree two. -/
theorem alloc_constantPoly_two (hc : c < q) (hpos : 0 < c) {e : ℕ} (he : e ∈ traceExponents 2) :
    A.alloc (constantPoly c) e 0 = c :=
  alloc_constantPoly A hc hpos (odd_of_mem_traceExponents (t := 1) rfl (by decide) he)

/-- The trace of a constant at degree two is one sum of two words. -/
theorem trace_two_apply (hc : c < q) (hpos : 0 < c) (hword : q < 2 ^ 64) {o : Overflow}
    {out : Poly 2} (hrun : trace o A (constantPoly c) = .ok out) :
    out 0 = (c + c) % 2 ^ 64 % q := by
  have hexps : traceExponents 2 = [tauGPow 0 2, tauGPow 0 2 * h 2 % (2 * 2)] := rfl
  rw [trace_eq_foldlM, hexps, List.foldlM_cons] at hrun
  obtain ⟨first, hfirst, hrun⟩ := bind_eq_ok hrun
  rw [List.foldlM_cons] at hrun
  obtain ⟨second, hsecond, hrun⟩ := bind_eq_ok hrun
  obtain rfl := Except.ok.inj hrun
  have hleft := alloc_constantPoly_two (A := A) hc hpos List.mem_cons_self
  have hright := alloc_constantPoly_two (A := A) hc hpos
    (List.mem_cons_of_mem _ List.mem_cons_self)
  rw [addAssignRawMod_apply hsecond, addAssignRawMod_apply hfirst, hleft, hright, zero_add,
    Nat.mod_eq_of_lt (hc.trans hword), Nat.mod_eq_of_lt hc]

/-- A checked build ends in a panic when the two words do not fit. -/
theorem trace_two_traps (hc : c < q) (hword : q < 2 ^ 64) (hlarge : 2 ^ 63 ≤ c) :
    trace .traps A (constantPoly c) = .error (.panic "attempt to add with overflow") := by
  have hfirst : Trace.addAssignRawMod .traps q (fun _ => 0)
      (A.alloc (constantPoly c) (tauGPow 0 2)) =
        .ok fun i => (0 + A.alloc (constantPoly c) (tauGPow 0 2) i) % q := by
    rw [Trace.addAssignRawMod, Overflow.addLanes_ok _ fun i => ?_]
    rw [zero_add]
    refine (A.alloc_le _ _ (odd_of_mem_traceExponents (t := 1) rfl (by decide)
      List.mem_cons_self) (fun j => ?_) i).trans_lt hword
    unfold constantPoly
    split
    · exact hc.le
    · exact Nat.zero_le q
  have hexps : traceExponents 2 = [tauGPow 0 2, tauGPow 0 2 * h 2 % (2 * 2)] := rfl
  rw [trace_eq_foldlM, hexps, List.foldlM_cons, hfirst, ok_bind, List.foldlM_cons,
    addAssignRawMod_traps 0]
  · rfl
  · rw [alloc_constantPoly_two hc (by omega) List.mem_cons_self,
      alloc_constantPoly_two hc (by omega) (List.mem_cons_of_mem _ List.mem_cons_self), zero_add,
      Nat.mod_eq_of_lt hc]
    omega

end DegreeTwo

/-- The trace of `q - 1` at degree two: a release build wraps and returns another constant, a
checked build panics. -/
theorem trace_two_wraps :
    (∃ out, trace .wraps (.scatter (show 2 = 2 ^ 1 from rfl) (by decide) (2 ^ 64 - 59))
        (constantPoly (2 ^ 64 - 60)) = .ok out ∧ out 0 = 2 ^ 64 - 120 ∧
        out ≠ constantPoly (2 * (2 ^ 64 - 60) % (2 ^ 64 - 59))) ∧
      trace .traps (.scatter (show 2 = 2 ^ 1 from rfl) (by decide) (2 ^ 64 - 59))
        (constantPoly (2 ^ 64 - 60)) = .error (.panic "attempt to add with overflow") := by
  obtain ⟨out, hrun⟩ : ∃ out, trace .wraps
      (.scatter (show 2 = 2 ^ 1 from rfl) (by decide) (2 ^ 64 - 59)) (constantPoly (2 ^ 64 - 60)) =
        .ok out := ⟨_, rfl⟩
  have hvalue : out 0 = 2 ^ 64 - 120 :=
    trace_two_apply (by norm_num) (by norm_num) (by norm_num) hrun
  refine ⟨⟨out, hrun, hvalue, fun hsame => ?_⟩,
    trace_two_traps (by norm_num) (by norm_num) (by norm_num)⟩
  rw [hsame] at hvalue
  exact absurd hvalue (by decide)

end Order

end Reinspiring
