import IpirSp.MachineWord.Dot
import IpirSp.Reinspiring.LiftNtt
import IpirSp.Reinspiring.Matrix

/-!
# Compact matrices and their products

The compiled blocks are stored side by side as centred signed entries, in 32-bit words if all fit,
bit-packed if they are small and the host has the kernel for it, and in 64-bit words otherwise.
Over a power of two a product is the low word of a wrapping sum; over an odd modulus the narrow
form sums four 16-bit limbs exactly and the wide form uses one 128-bit sum.

`fromBlocks_spec` says that a stored entry is the compiled one, and `multiply_spec` that every
storage form computes the product modulo `q`.
-/

namespace Reinspiring

open SpiralRs Inspiring Loops MachineWord

/-- The stored entries. -/
inductive Words
  | narrow (entry : ℕ → ℕ → ℤ)
  | packed (bits : ℕ) (code : ℕ → ℕ → ℕ)
  | wide (entry : ℕ → ℕ → ℤ)

/-- The entry that a kernel reads. -/
def Words.value : Words → ℕ → ℕ → ℤ
  | narrow entry, r, c | wide entry, r, c => entry r c
  | packed bits code, r, c => readPacked bits (code r c)

/-- What holds of a storage form when it is chosen. -/
def Words.Fits (rows cols q : ℕ) : Words → Prop
  | narrow entry => ∀ r < rows, ∀ c < cols, -2 ^ 31 ≤ entry r c ∧ entry r c < 2 ^ 31
  | packed _ _ => IsPowerOfTwo q
  | wide entry => ∀ r < rows, ∀ c < cols, |entry r c| ≤ (q / 2 : ℕ)

/-- A stored matrix, with what its constructor checks. -/
structure NativeMatrix where
  rows : ℕ
  cols : ℕ
  q : ℕ
  words : Words
  rows_pos : 0 < rows
  cols_le : cols ≤ 32768
  two_le_q : 2 ≤ q
  q_le : q ≤ 2 ^ 56
  fits : words.Fits rows cols q

/-- The checks of `from_blocks` on one block, with the columns counted so far. -/
def checkBlock (rows q cols : ℕ) (b : PackingMatrix) : Result ℕ :=
  if b.rows ≠ rows ∨ b.q ≠ q ∨ b.cols = 0 then invalidParams "native matrix block mismatch"
  else if cols + b.cols > 32768 then invalidParams "native matrix too wide"
  else if ∃ r < b.rows, ∃ c < b.cols, b.entry r c ≥ q then
    invalidParams "noncanonical native matrix"
  else .ok (cols + b.cols)

/-- The centred entries of blocks that stand side by side. -/
def centeredEntry (blocks : List PackingMatrix) (q r c : ℕ) : ℤ :=
  centered (PackingMatrix.concatEntry blocks r c) q

/-- The storage form for the entries. -/
def chooseWords (supportsPacked : Bool) (rows cols q : ℕ) (entry : ℕ → ℕ → ℤ) : Words :=
  let all (bound : ℤ) : Prop := ∀ r < rows, ∀ c < cols, -bound ≤ entry r c ∧ entry r c < bound
  let packed28 := IsPowerOfTwo q ∧ rows % 4 = 0 ∧ supportsPacked ∧ all (2 ^ 27)
  if packed28 ∧ cols % 8 = 0 then
    let bits := if all (2 ^ 26) then 27 else 28
    .packed bits fun r c => (entry r c % 2 ^ bits).toNat
  else if all (2 ^ 31) then .narrow entry
  else .wide entry

/-- The columns of checked blocks. -/
theorem checkBlocks_ok {rows q : ℕ} (blocks : List PackingMatrix) {start cols : ℕ}
    (hstart : start ≤ 32768) (h : blocks.foldlM (checkBlock rows q) start = .ok cols) :
    cols ≤ 32768 ∧ cols = start + (blocks.map PackingMatrix.cols).sum ∧
      ∀ b ∈ blocks, b.rows = rows ∧ b.q = q ∧ b.cols ≠ 0 ∧
        ∀ r < b.rows, ∀ c < b.cols, b.entry r c < q := by
  induction blocks generalizing start with
  | nil =>
      cases h
      exact ⟨hstart, by simp, by simp⟩
  | cons b blocks ih =>
      rw [List.foldlM_cons] at h
      obtain ⟨next, hnext, hrest⟩ := bind_eq_ok h
      unfold checkBlock at hnext
      split at hnext; · cases hnext
      rename_i hshape
      split at hnext; · cases hnext
      split at hnext; · cases hnext
      rename_i hentries
      push Not at hshape hentries
      cases hnext
      obtain ⟨hle, hsum, hblocks⟩ := ih (by omega) hrest
      refine ⟨hle, ?_, ?_⟩
      · rw [hsum, List.map_cons, List.sum_cons, add_assoc]
      · intro b' hb'
        rcases List.mem_cons.mp hb' with rfl | hb'
        · exact ⟨hshape.1, hshape.2.1, hshape.2.2, hentries⟩
        · exact hblocks b' hb'

/-- A column of the concatenation is a column of one block. -/
theorem exists_block_column (blocks : List PackingMatrix) {c : ℕ}
    (hc : c < (blocks.map PackingMatrix.cols).sum) :
    ∃ b ∈ blocks, ∃ c' < b.cols, ∀ r, PackingMatrix.concatEntry blocks r c = b.entry r c' := by
  induction blocks generalizing c with
  | nil => simp at hc
  | cons b blocks ih =>
      rw [List.map_cons, List.sum_cons] at hc
      by_cases hlt : c < b.cols
      · exact ⟨b, List.mem_cons_self, c, hlt, fun r => if_pos hlt⟩
      · obtain ⟨b', hb', c', hc', hcol⟩ := ih (c := c - b.cols) (by omega)
        exact ⟨b', List.mem_cons_of_mem _ hb', c', hc', fun r => (if_neg hlt).trans (hcol r)⟩

theorem concatEntry_lt {rows q : ℕ} {blocks : List PackingMatrix} {cols : ℕ}
    (h : blocks.foldlM (checkBlock rows q) 0 = .ok cols) {r c : ℕ} (hr : r < rows) (hc : c < cols) :
    PackingMatrix.concatEntry blocks r c < q := by
  obtain ⟨-, hcols, hblocks⟩ := checkBlocks_ok blocks (by decide) h
  obtain ⟨b, hb, c', hc', hcol⟩ := exists_block_column blocks (by omega : c < _)
  obtain ⟨hrows, -, -, hentry⟩ := hblocks b hb
  rw [hcol]
  exact hentry r (hrows ▸ hr) c' hc'

theorem chooseWords_fits (supportsPacked : Bool) {rows cols q : ℕ} {entry : ℕ → ℕ → ℤ}
    (h : ∀ r < rows, ∀ c < cols, |entry r c| ≤ (q / 2 : ℕ)) :
    (chooseWords supportsPacked rows cols q entry).Fits rows cols q := by
  unfold chooseWords
  dsimp only
  split
  · rename_i hpacked
    exact hpacked.1.1
  · split
    · rename_i hnarrow
      exact hnarrow
    · exact h

/-- **A stored entry is the entry**, whatever the storage form. -/
theorem chooseWords_value (supportsPacked : Bool) {rows cols q : ℕ} {entry : ℕ → ℕ → ℤ} {r c : ℕ}
    (hr : r < rows) (hc : c < cols) :
    (chooseWords supportsPacked rows cols q entry).value r c = entry r c := by
  unfold chooseWords
  dsimp only
  split
  · rename_i hpacked
    obtain ⟨⟨-, -, -, h28⟩, -⟩ := hpacked
    rw [Words.value]
    split
    · rename_i h27
      exact readPacked_mask (by decide) (by decide) (h27 r hr c hc).1 (h27 r hr c hc).2
    · exact readPacked_mask (by decide) (by decide) (h28 r hr c hc).1 (h28 r hr c hc).2
  · split <;> rfl

/-- `NativeMatrix::from_blocks`. -/
def NativeMatrix.fromBlocks (supportsPacked : Bool) (blocks : List PackingMatrix) :
    Result NativeMatrix :=
  match blocks with
  | [] => invalidParams "empty native matrix blocks"
  | first :: rest =>
      let rows := first.rows
      let q := first.q
      if hshape : ¬(2 ≤ q ∧ q ≤ 2 ^ 56) ∨ rows = 0 then invalidParams "invalid native matrix"
      else
        match hcols : (first :: rest).foldlM (checkBlock rows q) 0 with
        | .error e => .error e
        | .ok cols => .ok {
            rows, cols, q
            words := chooseWords supportsPacked rows cols q (centeredEntry (first :: rest) q)
            rows_pos := Nat.pos_of_ne_zero (not_or.mp hshape).2
            cols_le := (checkBlocks_ok _ (by decide) hcols).1
            two_le_q := (not_not.mp (not_or.mp hshape).1).1
            q_le := (not_not.mp (not_or.mp hshape).1).2
            fits := chooseWords_fits supportsPacked fun _ hr _ hc =>
              abs_centered_le (concatEntry_lt hcols hr hc) }

/-- `NativeMatrix::from_compiled`. -/
def NativeMatrix.fromCompiled (supportsPacked : Bool) (m : PackingMatrix) : Result NativeMatrix :=
  NativeMatrix.fromBlocks supportsPacked [m]

/-- **A stored matrix holds the compiled blocks**, side by side. -/
theorem NativeMatrix.fromBlocks_spec {supportsPacked : Bool} {first : PackingMatrix}
    {rest : List PackingMatrix} {M : NativeMatrix}
    (h : NativeMatrix.fromBlocks supportsPacked (first :: rest) = .ok M) :
    M.rows = first.rows ∧ M.q = first.q ∧
      M.cols = ((first :: rest).map PackingMatrix.cols).sum ∧
      ∀ r < M.rows, ∀ c < M.cols, ((M.words.value r c : ℤ) : ZMod M.q) =
        (PackingMatrix.concatEntry (first :: rest) r c : ℕ) := by
  unfold NativeMatrix.fromBlocks at h
  dsimp only at h
  split at h; · cases h
  split at h
  · cases h
  · rename_i cols hcols
    cases h
    obtain ⟨-, hsum, -⟩ := checkBlocks_ok _ (by decide) hcols
    refine ⟨rfl, rfl, hsum.trans (zero_add _), fun r hr c hc => ?_⟩
    dsimp only
    rw [chooseWords_value supportsPacked hr hc]
    exact cast_centered _ _

/-- Blocks of one shape that pass the checks. -/
theorem foldlM_checkBlock_ok {rows q : ℕ} (blocks : List PackingMatrix) (start : ℕ)
    (hblocks : ∀ b ∈ blocks, b.rows = rows ∧ b.q = q ∧ b.cols ≠ 0 ∧
      ∀ r < b.rows, ∀ c < b.cols, b.entry r c < q)
    (hwide : start + (blocks.map PackingMatrix.cols).sum ≤ 32768) :
    ∃ cols, blocks.foldlM (checkBlock rows q) start = .ok cols := by
  induction blocks generalizing start with
  | nil => exact ⟨start, rfl⟩
  | cons b blocks ih =>
      obtain ⟨hrows, hq, hcols, hentry⟩ := hblocks b List.mem_cons_self
      rw [List.map_cons, List.sum_cons] at hwide
      have hblock : checkBlock rows q start b = .ok (start + b.cols) := by
        have hnoncanonical : ¬∃ r < b.rows, ∃ c < b.cols, b.entry r c ≥ q := by
          rintro ⟨r, hr, c, hc, hge⟩
          exact absurd (hentry r hr c hc) (not_lt.mpr hge)
        rw [checkBlock, if_neg (by simp [hrows, hq, hcols]), if_neg (by omega),
          if_neg hnoncanonical]
      rw [List.foldlM_cons, hblock, ok_bind]
      exact ih _ (fun b' hb' => hblocks b' (List.mem_cons_of_mem _ hb')) (by omega)

/-- **Reduced blocks of one shape and admitted total width are stored.** -/
theorem NativeMatrix.fromBlocks_ok (supportsPacked : Bool) {rows q : ℕ}
    {blocks : List PackingMatrix} (hne : blocks ≠ []) (hq : 2 ≤ q) (hle : q ≤ 2 ^ 56)
    (hrows : rows ≠ 0)
    (hblocks : ∀ b ∈ blocks, b.rows = rows ∧ b.q = q ∧ b.cols ≠ 0 ∧
      ∀ r < b.rows, ∀ c < b.cols, b.entry r c < q)
    (hwide : (blocks.map PackingMatrix.cols).sum ≤ 32768) :
    ∃ M, NativeMatrix.fromBlocks supportsPacked blocks = .ok M := by
  cases blocks with
  | nil => exact absurd rfl hne
  | cons first rest =>
      obtain ⟨hfirst, hfirstQ, -, -⟩ := hblocks first List.mem_cons_self
      obtain ⟨cols, hcols⟩ := foldlM_checkBlock_ok (first :: rest) 0 hblocks (by omega)
      unfold NativeMatrix.fromBlocks
      dsimp only
      rw [dif_neg (by omega)]
      split
      · next e herr =>
        rw [hfirst, hfirstQ, hcols] at herr
        cases herr
      · exact ⟨_, rfl⟩

/-- A reduced matrix of admitted size is stored. -/
theorem NativeMatrix.fromCompiled_ok (supportsPacked : Bool) {m : PackingMatrix} (hq : 2 ≤ m.q)
    (hle : m.q ≤ 2 ^ 56) (hrows : m.rows ≠ 0) (hcols : m.cols ≠ 0) (hwide : m.cols ≤ 32768)
    (hentry : ∀ r < m.rows, ∀ c < m.cols, m.entry r c < m.q) :
    ∃ M, NativeMatrix.fromCompiled supportsPacked m = .ok M := by
  refine NativeMatrix.fromBlocks_ok supportsPacked (List.cons_ne_nil m []) hq hle hrows ?_ ?_
  · intro b hb
    obtain rfl := List.mem_singleton.mp hb
    exact ⟨rfl, rfl, hcols, hentry⟩
  · simpa using hwide

/-! ## Products -/

section Products

/-- The word that a kernel leaves for row `r`. -/
def NativeMatrix.dotWord (M : NativeMatrix) (r : ℕ) (y : List ℕ) : ℕ :=
  match M.words with
  | .packed bits code => wrappingDot (fun c => readPacked bits (code r c)) y
  | .narrow entry => wrappingDot (entry r) y
  | .wide entry => wrappingDot (entry r) y

/-- `multiply_odd`, one row. -/
def NativeMatrix.multiplyOdd (M : NativeMatrix) (y : List ℕ) : Result (ℕ → ℕ) :=
  match M.words with
  | .packed _ _ => .error (.panic "packed storage requires power-of-two modulus")
  | .narrow entry =>
      .ok fun r =>
        let limbs := (List.range 4).map fun j => y.map (limb j)
        let sum := limbs.zipIdx.foldl
          (fun (s : ℤ) part => s + toInt (wrappingDot (entry r) part.1) * 2 ^ (part.2 * 16)) 0
        (sum % (M.q : ℤ)).toNat
  | .wide entry => .ok fun r => (exactDot (entry r) y % (M.q : ℤ)).toNat

/-- `NativeMatrix::multiply`. -/
def NativeMatrix.multiply (M : NativeMatrix) (y : List ℕ) : Result (ℕ → ℕ) :=
  if y.length ≠ M.cols ∨ ∃ v ∈ y, v ≥ M.q then lweShape "invalid native matrix operand"
  else if ¬IsPowerOfTwo M.q then M.multiplyOdd y
  else .ok fun r => M.dotWord r y &&& (M.q - 1)

variable (M : NativeMatrix)

theorem NativeMatrix.dotWord_eq (r : ℕ) (y : List ℕ) :
    M.dotWord r y = wrappingDot (M.words.value r) y := by
  unfold NativeMatrix.dotWord
  split <;> rename_i hwords <;> rw [hwords] <;> rfl

theorem NativeMatrix.q_pos : 0 < M.q := by have := M.two_le_q; omega

/-- **A limb sum of narrow entries** stays in the range of a signed word. -/
theorem abs_exactDot_limb_lt {row : ℕ → ℤ} {y : List ℕ} (hlen : y.length ≤ 32768)
    (hrow : ∀ c < y.length, -2 ^ 31 ≤ row c ∧ row c < 2 ^ 31) (j : ℕ) :
    |exactDot row (y.map (limb j))| < (W64 / 2 : ℕ) := by
  have hbound := abs_exactDot_le row (y.map (limb j)) (A := 2 ^ 31) (B := 65535)
    (fun c hc => ?_) (fun v hv => ?_)
  · rw [List.length_map] at hbound
    have hcols : (y.length : ℤ) ≤ 32768 := by exact_mod_cast hlen
    have hhalf : ((W64 / 2 : ℕ) : ℤ) = 9223372036854775808 := rfl
    rw [hhalf]
    omega
  · rw [List.length_map] at hc
    obtain ⟨hlo, hhi⟩ := hrow c hc
    exact abs_le.mpr ⟨hlo, hhi.le⟩
  · obtain ⟨w, -, rfl⟩ := List.mem_map.mp hv
    exact_mod_cast limb_le j w

/-- The narrow form sums its four limbs exactly. -/
theorem narrow_sum_eq {row : ℕ → ℤ} {y : List ℕ} (hlen : y.length ≤ 32768)
    (hrow : ∀ c < y.length, -2 ^ 31 ≤ row c ∧ row c < 2 ^ 31) (hy : ∀ v ∈ y, v < W64) :
    (((List.range 4).map fun j => y.map (limb j)).zipIdx.foldl
      (fun (s : ℤ) part => s + toInt (wrappingDot row part.1) * 2 ^ (part.2 * 16)) 0) =
      exactDot row y := by
  have hlimb (j : ℕ) :
      toInt (wrappingDot row (y.map (limb j))) = exactDot row (y.map (limb j)) := by
    obtain ⟨hlo, hhi⟩ := abs_lt.mp (abs_exactDot_limb_lt hlen hrow j)
    exact toInt_wrappingDot hlo.le hhi
  rw [← sum_exactDot_limb row hy]
  simp only [List.range_succ, List.range_zero, List.nil_append, List.map_cons, List.map_nil,
    List.cons_append, List.zipIdx_cons, List.zipIdx_nil, List.foldl_cons,
    List.foldl_nil, hlimb, Finset.sum_range_succ, Finset.sum_range_zero]

/-- `to_compiled`. -/
def NativeMatrix.toCompiled : PackingMatrix where
  rows := M.rows
  cols := M.cols
  entry r c := (M.words.value r c % (M.q : ℤ)).toNat
  q := M.q

/-- **The product is exact modulo `q`**, in every storage form and over every modulus. -/
theorem NativeMatrix.multiply_spec {y : List ℕ} (hlen : y.length = M.cols)
    (hy : ∀ v ∈ y, v < M.q) : ∃ out, M.multiply y = .ok out ∧ ∀ r < M.rows, out r < M.q ∧
      ((out r : ℕ) : ZMod M.q) =
        ∑ c ∈ Finset.range M.cols, ((M.words.value r c : ℤ) : ZMod M.q) * (y.getD c 0 : ℕ) := by
  have hcheck : ¬(y.length ≠ M.cols ∨ ∃ v ∈ y, v ≥ M.q) := by
    rintro (hne | ⟨v, hv, hge⟩)
    · exact hne hlen
    · exact absurd (hy v hv) (not_lt.mpr hge)
  have hword : M.q ≤ W64 := M.q_le.trans (by decide)
  have hexact (row : ℕ → ℤ) : ((exactDot row y % (M.q : ℤ)).toNat : ZMod M.q) =
      ∑ c ∈ Finset.range M.cols, ((row c : ℤ) : ZMod M.q) * (y.getD c 0 : ℕ) := by
    rw [cast_toNat_emod M.q_pos, exactDot_eq_sum, hlen]
    push_cast
    rfl
  rw [NativeMatrix.multiply, if_neg hcheck]
  by_cases hpow : IsPowerOfTwo M.q
  · rw [if_neg (not_not.mpr hpow)]
    refine ⟨_, rfl, fun r _ => ⟨mask_lt hpow _, ?_⟩⟩
    rw [cast_mask hpow, M.dotWord_eq, cast_wrappingDot (hpow.dvd_W64 hword), hlen]
  · rw [if_pos hpow, NativeMatrix.multiplyOdd]
    have hfits := M.fits
    split
    · rename_i hwords
      rw [hwords] at hfits
      exact absurd hfits hpow
    · rename_i entry hwords
      rw [hwords] at hfits
      refine ⟨_, rfl, fun r hr => ⟨toNat_emod_lt M.q_pos _, ?_⟩⟩
      dsimp only
      rw [narrow_sum_eq (hlen.le.trans M.cols_le) (fun c hc => hfits r hr c (hlen ▸ hc))
        fun v hv => (hy v hv).trans_le hword, hexact, hwords]
      rfl
    · rename_i entry hwords
      refine ⟨_, rfl, fun r _ => ⟨toNat_emod_lt M.q_pos _, ?_⟩⟩
      rw [hexact, hwords]
      rfl

/-- **Products depend only on the entries modulo `q`**, not on the storage form. -/
theorem NativeMatrix.multiply_congr {M M' : NativeMatrix} (hrows : M'.rows = M.rows)
    (hcols : M'.cols = M.cols) (hq : M'.q = M.q)
    (hvalue : ∀ r < M.rows, ∀ c < M.cols,
      ((M'.words.value r c : ℤ) : ZMod M.q) = (M.words.value r c : ℤ)) (y : List ℕ) :
    (∃ e, M.multiply y = .error e ∧ M'.multiply y = .error e) ∨
      ∃ out out', M.multiply y = .ok out ∧ M'.multiply y = .ok out' ∧
        ∀ r < M.rows, out' r = out r := by
  by_cases hcheck : y.length ≠ M.cols ∨ ∃ v ∈ y, v ≥ M.q
  · refine Or.inl ⟨_, if_pos hcheck, ?_⟩
    rw [NativeMatrix.multiply, hcols, hq, if_pos hcheck]
    rfl
  · push Not at hcheck
    obtain ⟨hlen, hy⟩ := hcheck
    obtain ⟨out, hout, hspec⟩ := M.multiply_spec hlen hy
    obtain ⟨out', hout', hspec'⟩ := M'.multiply_spec (hlen.trans hcols.symm) fun v hv =>
      hq ▸ hy v hv
    refine Or.inr ⟨out, out', hout, hout', fun r hr => ?_⟩
    obtain ⟨hlt, hsum⟩ := hspec r hr
    obtain ⟨hlt', hsum'⟩ := hspec' r (hrows ▸ hr)
    rw [hq] at hlt' hsum'
    rw [hcols] at hsum'
    have hcast : ((out' r : ℕ) : ZMod M.q) = out r := by
      rw [hsum, hsum']
      refine Finset.sum_congr rfl fun c hc => ?_
      rw [hvalue r hr c (Finset.mem_range.mp hc)]
    rw [ZMod.natCast_eq_natCast_iff] at hcast
    exact Nat.ModEq.eq_of_lt_of_lt hcast hlt' hlt

end Products

end Reinspiring
