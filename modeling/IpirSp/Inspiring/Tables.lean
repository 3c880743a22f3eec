import IpirSp.Inspiring.Intermediate

/-!
# The automorphism tables

The contract of the slot tables.  A table belongs to an exponent if its entries pass the check of
the source and reading the transform of any polynomial through it gives the transform of the
automorphic image.  `validatePermutation` is that check, a loop with one flag a slot;
`validatePermutation_iff` says that it accepts exactly the permutations.

The power tables are composed step by step from two searched tables, and `tables_correct` compares
them with the tables that the search finds for every exponent directly.
-/

namespace Inspiring

open Negacyclic SpiralRs Loops

/-! ## The check of a table -/

/-- The loop of `validate_permutation`. -/
def validateLoop (d : ℕ) : List ℕ → List Bool → Bool
  | [], _ => true
  | index :: rest, seen =>
      if index ≥ d ∨ seen.getD index false then false
      else validateLoop d rest (seen.set index true)

/-- `validate_permutation`, on the entries of a table. -/
def validatePermutation (indices : List ℕ) (d : ℕ) : Bool :=
  if indices.length ≠ d then false else validateLoop d indices (List.replicate d false)

/-- The flags say which indices have been met. -/
def Flags (d : ℕ) (seen : List Bool) (met : List ℕ) : Prop :=
  seen.length = d ∧ ∀ index < d, seen.getD index false = decide (index ∈ met)

theorem flags_start (d : ℕ) : Flags d (List.replicate d false) [] := by
  refine ⟨List.length_replicate, fun index _ => ?_⟩
  rw [List.getD_eq_getElem?_getD, List.getElem?_getD_replicate_default_eq, decide_eq_false]
  exact List.not_mem_nil

theorem Flags.set {d : ℕ} {seen : List Bool} {met : List ℕ} (h : Flags d seen met) {index : ℕ}
    (hindex : index < d) : Flags d (seen.set index true) (index :: met) := by
  refine ⟨by rw [List.length_set, h.1], fun other hother => ?_⟩
  rw [List.getD_eq_getElem?_getD, List.getElem?_set, h.1]
  by_cases heq : index = other
  · subst heq
    simp [hindex]
  · rw [if_neg heq, ← List.getD_eq_getElem?_getD, h.2 other hother]
    simp [Ne.symm heq]

/-- The loop accepts what is in range, without repetition and not met before. -/
theorem validateLoop_iff {d : ℕ} (indices : List ℕ) {seen : List Bool} {met : List ℕ}
    (hseen : Flags d seen met) : validateLoop d indices seen = true ↔
      (∀ index ∈ indices, index < d ∧ index ∉ met) ∧ indices.Nodup := by
  induction indices generalizing seen met with
  | nil => simp [validateLoop]
  | cons index rest ih =>
      rw [validateLoop]
      by_cases hlt : index < d
      · rw [hseen.2 index hlt]
        by_cases hmet : index ∈ met
        · rw [if_pos (Or.inr (decide_eq_true hmet))]
          refine iff_of_false Bool.false_ne_true fun h => ?_
          exact (h.1 index List.mem_cons_self).2 hmet
        · rw [if_neg (by simp [hlt, hmet]), ih (hseen.set hlt), List.forall_mem_cons,
            List.nodup_cons]
          simp only [List.mem_cons, not_or]
          constructor
          · rintro ⟨hrest, hnodup⟩
            exact ⟨⟨⟨hlt, hmet⟩, fun other hother =>
              ⟨(hrest other hother).1, (hrest other hother).2.2⟩⟩,
              fun hmem => (hrest index hmem).2.1 rfl, hnodup⟩
          · rintro ⟨⟨-, hrest⟩, hnew, hnodup⟩
            refine ⟨fun other hother =>
              ⟨(hrest other hother).1, ?_, (hrest other hother).2⟩, hnodup⟩
            rintro rfl
            exact hnew hother
      · rw [if_pos (Or.inl (not_lt.mp hlt))]
        refine iff_of_false Bool.false_ne_true fun h => ?_
        exact hlt (h.1 index List.mem_cons_self).1

/-- **The check accepts exactly the permutations of the slots.** -/
theorem validatePermutation_iff (indices : List ℕ) (d : ℕ) :
    validatePermutation indices d = true ↔
      indices.length = d ∧ (∀ index ∈ indices, index < d) ∧ indices.Nodup := by
  unfold validatePermutation
  split
  · rename_i hlen
    exact iff_of_false Bool.false_ne_true fun h => hlen h.1
  · rename_i hlen
    rw [validateLoop_iff indices (flags_start d), and_iff_right (not_not.mp hlen)]
    simp

/-- The stored entries of a table. -/
def NttAutomorphTable.entries {d : ℕ} (table : NttAutomorphTable d) : List ℕ :=
  List.ofFn fun s => (table.indices s : ℕ)

/-- The field of a table that says that it is a permutation is the check of the source. -/
theorem validatePermutation_entries {d : ℕ} (table : NttAutomorphTable d) :
    validatePermutation table.entries d = true := by
  refine (validatePermutation_iff _ _).mpr ⟨List.length_ofFn, fun index hindex => ?_, ?_⟩
  · obtain ⟨s, rfl⟩ := (List.mem_ofFn' _ _).mp hindex
    exact (table.indices s).2
  · exact List.nodup_ofFn.mpr (Fin.val_injective.comp table.bijective.injective)

/-! ## The contract of a table -/

section Contract

variable {P : RlweParams}

variable (P) in
/-- A table belongs to an exponent. -/
structure IsTableOf (e : ℕ) (table : NttAutomorphTable P.d) : Prop where
  exponent : table.exponent = e % (2 * P.d)
  permutation : validatePermutation table.entries P.d = true
  /-- Reading through the table is the automorphism of the source, before the transform. -/
  apply_toNtt : ∀ p : Poly P.d, (∀ i, p i ≤ P.q) →
    applyTauNtt (P.spiral.toNttAlloc p) table = P.spiral.toNttAlloc (tauRaw P p (e % (2 * P.d)))
  /-- It is the substitution `X ↦ X^e`. -/
  ring_apply : ∀ p : Poly P.d, (∀ i, p i ≤ P.q) →
    P.spiral.ring (applyTauNtt (P.spiral.toNttAlloc p) table) = tau e (Poly.ring P.q p)

/-- The table of a reduced odd exponent belongs to the exponent. -/
theorem isTableOf_tauTable {e : ℕ} (he : Odd e) : IsTableOf P e (tauTable P (e % (2 * P.d))) := by
  have hodd := odd_mod_two_mul he P.d
  have hword {p : Poly P.d} (hp : ∀ i, p i ≤ P.q) (i : Fin P.d) : p i < 2 ^ 64 :=
    P.spiral.lt_word_of_le (hp i)
  have hring (p : Poly P.d) (hp : ∀ i, p i ≤ P.q) :
      P.spiral.ring (applyTauNtt (P.spiral.toNttAlloc p) (tauTable P (e % (2 * P.d)))) =
        tau e (Poly.ring P.q p) := by
    rw [ring_applyTauNtt hodd, P.spiral.ring_toNttAlloc (hword hp), tau_mod he]
  refine ⟨tauTable_exponent _, validatePermutation_entries _, fun p hp => ?_, hring⟩
  refine P.spiral.ring_injective ?_
  rw [hring p hp, tauRaw, P.spiral.ring_toNttAlloc (hword (P.spiral.automorphAlloc_le _ _ hodd hp)),
    P.spiral.ring_automorphAlloc _ _ hodd hp, tau_mod he]

/-- A search that returned found separating probes. -/
theorem probesSeparate_of_tables {count : ℕ}
    {tables : List (NttAutomorphTable P.d) × List (NttAutomorphTable P.d)}
    (hrun : tauGPowerTables P count = .ok tables) : ProbesSeparate P := by
  by_contra hsep
  rw [tauGPowerTables_panic hsep] at hrun
  cases hrun

/-- **The tables are correct.**  Wherever the construction of the power tables returns, the table of
every `5^i` and of every `-5^i` is found and belongs to its exponent, and the composed tables are
the searched ones. -/
theorem tables_correct (P : RlweParams) {count : ℕ} {left right : List (NttAutomorphTable P.d)}
    (hrun : tauGPowerTables P count = .ok (left, right)) :
    left.length = count ∧ right.length = count ∧
      ∀ i, ∃ leftTable rightTable,
        nttAutomorphTable P (tauGPow i P.d) = .ok leftTable ∧
        nttAutomorphTable P (tauGPow i P.d * h P.d % (2 * P.d)) = .ok rightTable ∧
        IsTableOf P (5 ^ i) leftTable ∧ IsTableOf P (5 ^ i * (2 * P.d - 1)) rightTable ∧
        (i < count → left[i]? = some leftTable ∧ right[i]? = some rightTable) := by
  have hsep := probesSeparate_of_tables hrun
  rw [tauGPowerTables_eq hsep] at hrun
  obtain ⟨rfl, rfl⟩ := Prod.mk.inj (Except.ok.inj hrun)
  refine ⟨by rw [leftTables, List.length_map, List.length_range'],
    by rw [rightTables, List.length_map, List.length_range'], fun i => ?_⟩
  have hleft : nttAutomorphTable P (tauGPow i P.d) = .ok (tauTable P (leftExp P.d i)) := by
    rw [tauGPow_eq P.d_pos, nttAutomorphTable_eq hsep (odd_leftExp _ _),
      Nat.mod_eq_of_lt (leftExp_lt P.d_pos i)]
  have hexp : tauGPow i P.d * h P.d % (2 * P.d) = rightExp P.d i := by
    have hneg := leftExp_mul_neg P.d i
    rw [tauGPow_eq P.d_pos]
    rwa [Nat.ModEq, Nat.mod_eq_of_lt (rightExp_lt P.d_pos i)] at hneg
  have hright : nttAutomorphTable P (tauGPow i P.d * h P.d % (2 * P.d)) =
      .ok (tauTable P (rightExp P.d i)) := by
    rw [hexp, nttAutomorphTable_eq hsep (odd_rightExp P.d_pos _),
      Nat.mod_eq_of_lt (rightExp_lt P.d_pos i)]
  refine ⟨_, _, hleft, hright, isTableOf_tauTable (odd_five_pow i),
    isTableOf_tauTable ((odd_five_pow i).mul (odd_two_mul_sub_one P.d_pos)), fun hi => ?_⟩
  rw [leftTables, rightTables, List.getElem?_map, List.getElem?_map, List.getElem?_range' hi,
    zero_add, one_mul]
  exact ⟨rfl, rfl⟩

/-- The tables of the small parameter set. -/
theorem tables_correct_small : ∃ left right,
    tauGPowerTables smallParams 2 = .ok (left, right) ∧ left.length = 2 ∧
      ∃ table, left[1]? = some table ∧ IsTableOf smallParams 5 table := by
  have hrun := tauGPowerTables_eq probesSeparate_smallParams 2
  obtain ⟨hlength, -, hall⟩ := tables_correct smallParams hrun
  obtain ⟨table, _, _, _, htable, _, hget⟩ := hall 1
  exact ⟨_, _, hrun, hlength, table, (hget (by decide)).1, htable⟩

end Contract

end Inspiring
