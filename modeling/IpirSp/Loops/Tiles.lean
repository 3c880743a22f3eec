import IpirSp.Loops.Iterator
import IpirSp.Loops.Windows
import Mathlib.Data.List.GetD

/-!
# Tiles

An array that is filled tile by tile: the loops run over blocks of an index range and each inner
step overwrites a slice.  The rules carry an invariant that is indexed by how far a loop has come,
for a range, for a range in blocks and for a range in windows; `foldlM_blocks` says that a loop over
blocks with a loop over the block inside is the loop over the whole range.  `getD_splice` is what a
slice changes.
-/

namespace Loops

section Rules

variable {ε σ : Type}

/-- **The rule of a loop over a range.** -/
theorem foldlM_range {f : σ → ℕ → Except ε σ} (Inv : ℕ → σ → Prop) {n : ℕ} {start : σ}
    (hstart : Inv 0 start)
    (hstep : ∀ i < n, ∀ acc, Inv i acc → ∃ next, f acc i = .ok next ∧ Inv (i + 1) next) :
    ∃ out, (List.range n).foldlM f start = .ok out ∧ Inv n out := by
  induction n with
  | zero => exact ⟨start, rfl, hstart⟩
  | succ n ih =>
      obtain ⟨acc, hacc, hinv⟩ := ih fun i hi => hstep i (hi.trans (Nat.lt_succ_self n))
      obtain ⟨next, hnext, hinv'⟩ := hstep n (Nat.lt_succ_self n) acc hinv
      refine ⟨next, ?_, hinv'⟩
      rw [List.range_succ, List.foldlM_append, hacc, ok_bind, List.foldlM_cons, hnext, ok_bind]
      rfl

/-- **The rule of a loop over a list with its positions.** -/
theorem foldlM_zipIdx {α : Type} {f : σ → α × ℕ → Except ε σ} (Inv : ℕ → σ → Prop) {l : List α}
    {start : σ} (hstart : Inv 0 start)
    (hstep : ∀ i a, l[i]? = some a → ∀ acc, Inv i acc →
      ∃ next, f acc (a, i) = .ok next ∧ Inv (i + 1) next) :
    ∃ out, l.zipIdx.foldlM f start = .ok out ∧ Inv l.length out := by
  obtain ⟨out, hout, hinv⟩ := foldlM_prefix (fun done acc => Inv done.length acc) l.zipIdx start
    hstart fun done item rest acc hsplit hacc => by
      have hget : l.zipIdx[done.length]? = some item := by
        rw [hsplit, List.getElem?_append_right le_rfl, Nat.sub_self, List.getElem?_cons_zero]
      rw [List.getElem?_zipIdx, Option.map_eq_some_iff] at hget
      obtain ⟨a, ha, rfl⟩ := hget
      rw [zero_add, List.length_append, List.length_singleton]
      exact hstep _ a ha acc hacc
  rw [List.length_zipIdx] at hinv
  exact ⟨out, hout, hinv⟩

/-- **The rule of a loop over a list with its positions**, for a run that has returned. -/
theorem foldlM_zipIdx_of_ok {α : Type} {f : σ → α × ℕ → Except ε σ} (Inv : ℕ → σ → Prop)
    {l : List α} {start out : σ} (hstart : Inv 0 start)
    (hstep : ∀ i a, l[i]? = some a → ∀ acc next, Inv i acc → f acc (a, i) = .ok next →
      Inv (i + 1) next)
    (hrun : l.zipIdx.foldlM f start = .ok out) : Inv l.length out := by
  have hrest : ∀ rest i start, l.drop i = rest → i ≤ l.length → Inv i start →
      (rest.zipIdx i).foldlM f start = .ok out → Inv l.length out := by
    intro rest
    induction rest with
    | nil =>
        intro i start hdrop hi hinv hrun
        obtain rfl : i = l.length := le_antisymm hi (List.drop_eq_nil_iff.mp hdrop)
        obtain rfl := Except.ok.inj hrun
        exact hinv
    | cons a rest ih =>
        intro i start hdrop _ hinv hrun
        have hlt : i < l.length := by
          by_contra hge
          rw [List.drop_eq_nil_of_le (not_lt.mp hge)] at hdrop
          cases hdrop
        rw [List.drop_eq_getElem_cons hlt, List.cons.injEq] at hdrop
        rw [List.zipIdx_cons, List.foldlM_cons] at hrun
        obtain ⟨next, hnext, hrun⟩ := bind_eq_ok hrun
        have hget : l[i]? = some a := by rw [List.getElem?_eq_getElem hlt, hdrop.1]
        exact ih (i + 1) next hdrop.2 hlt (hstep i a hget start next hinv hnext) hrun
  exact hrest l 0 start List.drop_zero (Nat.zero_le _) hstart hrun

/-- The blocks of a range, in order, are the range. -/
theorem flatMap_blockRange {size : ℕ} (hsize : 0 < size) (n : ℕ) :
    (blockStarts n size).flatMap (blockRange n size) = List.range n := by
  have hcount (count : ℕ) : (List.range count).flatMap (fun b => blockRange n size (b * size)) =
      List.range (min (count * size) n) := by
    induction count with
    | zero => simp
    | succ count ih =>
        rw [List.range_succ, List.flatMap_append, List.flatMap_singleton, ih, blockRange,
          List.range_eq_range', List.range_eq_range', Nat.add_mul, one_mul]
        rcases le_total (count * size) n with hle | hle
        · have hend : min (count * size + size) n =
              count * size + (min (count * size + size) n - count * size) := by omega
          rw [min_eq_left hle, hend, Nat.add_sub_cancel_left, ← List.range'_append_1, zero_add]
        · rw [min_eq_right hle, min_eq_right (by omega), Nat.sub_eq_zero_of_le hle,
            List.range'_zero, List.append_nil]
  have hceil : n ≤ (n + size - 1) / size * size := by
    have hdiv := Nat.div_add_mod (n + size - 1) size
    have hmod := Nat.mod_lt (n + size - 1) hsize
    rw [mul_comm] at hdiv
    omega
  rw [blockStarts, List.flatMap_map, hcount, min_eq_right hceil]

/-- **A loop over blocks, with a loop over the block inside, is one loop.** -/
theorem foldlM_blocks {size : ℕ} (hsize : 0 < size) (n : ℕ) (f : σ → ℕ → Except ε σ) (start : σ) :
    (blockStarts n size).foldlM (fun acc base => (blockRange n size base).foldlM f acc) start =
      (List.range n).foldlM f start := by
  have hflat (bases : List ℕ) (acc : σ) :
      bases.foldlM (fun acc base => (blockRange n size base).foldlM f acc) acc =
        (bases.flatMap (blockRange n size)).foldlM f acc := by
    induction bases generalizing acc with
    | nil => rfl
    | cons base bases ih =>
        rw [List.foldlM_cons, List.flatMap_cons, List.foldlM_append]
        exact congrArg _ (funext ih)
  rw [hflat, flatMap_blockRange hsize]

/-- **The rule of a loop over blocks.** -/
theorem foldlM_blockStarts {f : σ → ℕ → Except ε σ} (Inv : ℕ → σ → Prop) {size n : ℕ}
    (hsize : 0 < size) {start : σ} (hstart : Inv 0 start)
    (hstep : ∀ base < n, ∀ acc, Inv base acc →
      ∃ next, f acc base = .ok next ∧ Inv (min (base + size) n) next) :
    ∃ out, (blockStarts n size).foldlM f start = .ok out ∧ Inv n out := by
  have hceil : n ≤ (n + size - 1) / size * size := by
    have hdiv := Nat.div_add_mod (n + size - 1) size
    have hmod := Nat.mod_lt (n + size - 1) hsize
    rw [mul_comm] at hdiv
    omega
  obtain ⟨out, hout, hinv⟩ := foldlM_range (f := fun acc b => f acc (b * size))
    (fun b => Inv (min (b * size) n)) (n := (n + size - 1) / size) (by rwa [zero_mul, Nat.zero_min])
    fun b hb acc hacc => by
      have hlt : b * size < n := by
        have hmul : (b + 1) * size ≤ (n + size - 1) / size * size := Nat.mul_le_mul_right size hb
        have hdiv := Nat.div_mul_le_self (n + size - 1) size
        rw [Nat.add_mul, one_mul] at hmul
        omega
      rw [min_eq_left hlt.le] at hacc
      rw [Nat.add_mul, one_mul]
      exact hstep _ hlt acc hacc
  refine ⟨out, ?_, by rwa [min_eq_right hceil] at hinv⟩
  rw [blockStarts, List.foldlM_map]
  exact hout

/-- **The rule of a loop over windows**, for a state that its position does not determine. -/
theorem windowLoop_inv {size : ℕ} {hsize : 0 < size} {n : ℕ} {body : ℕ → ℕ → σ → Except ε σ}
    (Inv : ℕ → σ → Prop)
    (hstep : ∀ start < n, ∀ acc, Inv start acc →
      ∃ next, body start (min (start + size) n) acc = .ok next ∧ Inv (min (start + size) n) next)
    {start : ℕ} (hstart : start ≤ n) {acc : σ} (hacc : Inv start acc) :
    ∃ out, windowLoop size hsize n body start acc = .ok out ∧ Inv n out := by
  induction hleft : n - start using Nat.strongRecOn generalizing start acc with
  | _ left ih =>
      rw [windowLoop]
      split
      · rename_i hlt
        obtain ⟨next, hnext, hinv⟩ := hstep start hlt acc hacc
        rw [hnext, ok_bind]
        exact ih _ (by omega) (min_le_right _ _) hinv rfl
      · rename_i hdone
        obtain rfl : start = n := by omega
        exact ⟨acc, rfl, hacc⟩

end Rules

/-! ## Slices -/

section Slices

variable {α : Type}

/-- A list with a slice overwritten. -/
def splice (l : List α) (start : ℕ) (values : List α) : List α :=
  l.take start ++ values ++ l.drop (start + values.length)

variable {l values : List α} {start : ℕ}

theorem length_splice (hfit : start + values.length ≤ l.length) :
    (splice l start values).length = l.length := by
  rw [splice, List.length_append, List.length_append, List.length_take, List.length_drop]
  omega

/-- **What a slice changes.** -/
theorem getD_splice (hfit : start + values.length ≤ l.length) (k : ℕ) (d : α) :
    (splice l start values).getD k d =
      if start ≤ k ∧ k < start + values.length then values.getD (k - start) d else l.getD k d := by
  have htake : (l.take start).length = start := by
    rw [List.length_take]
    omega
  have hhead : (l.take start ++ values).length = start + values.length := by
    rw [List.length_append, htake]
  rw [splice]
  split
  · rename_i hin
    rw [List.getD_append _ _ _ _ (by omega), List.getD_append_right _ _ _ _ (by omega), htake]
  · rename_i hout
    by_cases hlow : k < start
    · rw [List.getD_append _ _ _ _ (by omega), List.getD_append _ _ _ _ (by omega),
        List.getD_eq_getElem _ _ (by omega), List.getD_eq_getElem _ _ (by omega), List.getElem_take]
    · rw [List.getD_append_right _ _ _ _ (by omega), hhead, List.getD_eq_getElem?_getD,
        List.getD_eq_getElem?_getD, List.getElem?_drop]
      congr 2
      omega

/-- A slice of a line of a matrix contains a cell if the cell is on the line and in the slice. -/
theorem mem_slice_iff {width a b line line' i : ℕ} (hb : b ≤ width) (hi : i < width) :
    (line * width + a ≤ line' * width + i ∧ line' * width + i < line * width + b) ↔
      line' = line ∧ a ≤ i ∧ i < b := by
  constructor
  · rintro ⟨hlow, hhigh⟩
    rcases lt_trichotomy line' line with hlt | rfl | hlt
    · have hmul : (line' + 1) * width ≤ line * width := Nat.mul_le_mul_right width hlt
      rw [Nat.add_mul, one_mul] at hmul
      omega
    · exact ⟨rfl, by omega, by omega⟩
    · have hmul : (line + 1) * width ≤ line' * width := Nat.mul_le_mul_right width hlt
      rw [Nat.add_mul, one_mul] at hmul
      omega
  · rintro ⟨rfl, hlow, hhigh⟩
    omega

end Slices

section Runs

variable {ε σ α : Type} {next : σ → Except ε (Option α × σ)}

/-- A run is two runs. -/
theorem Emits.split {s u : σ} {values values' : List α} (h : Emits next s (values ++ values') u) :
    ∃ t, Emits next s values t ∧ Emits next t values' u := by
  induction values generalizing s with
  | nil => exact ⟨s, .nil s, h⟩
  | cons value values ih =>
      cases h with
      | cons hnext hrest =>
          obtain ⟨t, hfirst, hlast⟩ := ih hrest
          exact ⟨t, .cons hnext hfirst, hlast⟩

end Runs

end Loops
