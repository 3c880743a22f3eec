import IpirSp.MachineWord.Vector

/-!
# Byte dot products in 32-bit lanes

`dpbusd` multiplies the bytes of two registers, unsigned with signed, and adds the products of four
neighbours to each 32-bit lane.  A kernel that cuts one operand into signed digits keeps a register
for every digit (`Overflow.accumulate`), flushes the registers before a lane can overflow, and adds
the lanes to words of 64 bits with the weights of the digits (`flush`).

`Overflow.accumulate_ok` says that the lanes are exact for `16384` turns, whatever a lane does when
it overflows.  A word that has collected `ofInt z` of an integer `z` stays exact modulo `2^64` under
`flush`: `flush_ofInt`.
-/

namespace MachineWord

/-- The 32-bit lanes of a vector register, as signed integers. -/
abbrev SignedLanes (n : ℕ) := Fin n → ℤ

/-- `as u8 as i8`. -/
def asI8 (x : ℕ) : ℤ := if x % 256 < 128 then ((x % 256 : ℕ) : ℤ) else ((x % 256 : ℕ) : ℤ) - 256

/-- `wrapping_shl`. -/
def wrappingShl (x shift : ℕ) : ℕ := x <<< (shift % 64) % W64

/-- The lanes of a result. -/
def Overflow.fitLanes {n : ℕ} (o : Overflow) (result : SignedLanes n) : Option (SignedLanes n) :=
  match o with
  | wraps => some fun j => (result j).bmod (2 ^ 32)
  | traps => if ∀ j, -2 ^ 31 ≤ result j ∧ result j < 2 ^ 31 then some result else none

/-- `dpbusd_epi32`: each lane takes the products of its four bytes. -/
def Overflow.dpbusd {n : ℕ} (o : Overflow) (acc : SignedLanes n) (a : ℕ → ℕ) (y : ℕ → ℤ) :
    Option (SignedLanes n) :=
  o.fitLanes fun j => acc j + ∑ k : Fin 4, (a (4 * j + k) : ℤ) * y (4 * j + k)

/-- `reduce_add_epi32`. -/
def Overflow.reduceAdd {n : ℕ} (o : Overflow) (acc : SignedLanes n) : Option ℤ := do
  let sum ← o.fitLanes fun _ : Fin 1 => ∑ j, acc j
  return sum 0

/-- A register for each `y`, with the products of the tiles that start at `starts`. -/
def Overflow.accumulate (o : Overflow) (n : ℕ) (tile : ℕ → ℕ → ℕ) (ys : List (ℕ → ℕ → ℤ))
    (starts : List ℕ) : Option (List (SignedLanes n)) :=
  starts.foldlM
    (fun accs i => (accs.zip ys).mapM fun (acc, y) => o.dpbusd acc (tile i) (y i))
    (ys.map fun _ _ => 0)

/-- Add the low word of digit `j` to `x`, and the high word if there is one. -/
def flushDigit (base x : ℕ) (low : ℤ) (high : Option ℤ) (j : ℕ) : ℕ :=
  let shift := base + 8 * j
  let x := wrappingAdd x (wrappingShl (ofInt low) shift)
  match high with
  | some high => wrappingAdd x (wrappingShl (ofInt high) (shift + 8))
  | none => x

/-- Add the words of all digits, at their weights. -/
def flush (base : ℕ) (words : List (ℤ × Option ℤ)) (x : ℕ) : ℕ :=
  words.zipIdx.foldl (fun x (word, j) => flushDigit base x word.1 word.2 j) x

/-! ## Lanes -/

/-- An operation that did not trap hands its value on. -/
theorem some_bind {α β : Type} (a : α) (f : α → Option β) : (some a >>= f) = f a := rfl

theorem Overflow.fitLanes_ok (o : Overflow) {n : ℕ} {result : SignedLanes n}
    (h : ∀ j, |result j| < 2 ^ 31) : o.fitLanes result = some result := by
  have hfit (j : Fin n) : -2 ^ 31 ≤ result j ∧ result j < 2 ^ 31 := by
    obtain ⟨hlo, hhi⟩ := abs_lt.mp (h j)
    exact ⟨hlo.le, hhi⟩
  cases o with
  | wraps =>
      refine congrArg some (funext fun j => ?_)
      obtain ⟨hlo, hhi⟩ := hfit j
      exact Int.bmod_eq_of_le (by norm_num; linarith) (by norm_num; linarith)
  | traps => exact if_pos hfit

theorem Overflow.reduceAdd_ok (o : Overflow) {n : ℕ} {acc : SignedLanes n}
    (h : |∑ j, acc j| < 2 ^ 31) : o.reduceAdd acc = some (∑ j, acc j) := by
  rw [reduceAdd, o.fitLanes_ok fun _ => h]
  rfl

/-- What the tiles add to a lane. -/
def laneDot (n : ℕ) (tile : ℕ → ℕ → ℕ) (y : ℕ → ℕ → ℤ) (starts : List ℕ) : SignedLanes n :=
  fun j => (starts.map fun i => ∑ k : Fin 4, (tile i (4 * j + k) : ℤ) * y i (4 * j + k)).sum

/-- The operands of a register are bytes. -/
structure IsBytes (tile : ℕ → ℕ → ℕ) (y : ℕ → ℕ → ℤ) : Prop where
  tile_le : ∀ i b, tile i b ≤ 255
  abs_le : ∀ i b, |y i b| ≤ 128

variable {n : ℕ} {tile : ℕ → ℕ → ℕ}

/-- **The magnitude of a lane.** -/
theorem abs_laneDot_le {y : ℕ → ℕ → ℤ} (h : IsBytes tile y) (starts : List ℕ) (j : Fin n) :
    |laneDot n tile y starts j| ≤ starts.length * (4 * (255 * 128)) := by
  have hbyte (i b : ℕ) : |(tile i b : ℤ) * y i b| ≤ 255 * 128 := by
    rw [abs_mul, Nat.abs_cast]
    exact mul_le_mul (by exact_mod_cast h.tile_le i b) (h.abs_le i b) (abs_nonneg _) (by norm_num)
  have hturn (i : ℕ) : |∑ k : Fin 4, (tile i (4 * j + k) : ℤ) * y i (4 * j + k)| ≤
      4 * (255 * 128) := by
    refine (Finset.abs_sum_le_sum_abs _ _).trans ?_
    exact (Finset.sum_le_card_nsmul _ _ _ fun k _ => hbyte i _).trans_eq (by simp)
  unfold laneDot
  induction starts with
  | nil => simp
  | cons i starts ih =>
      rw [List.map_cons, List.sum_cons, List.length_cons, Nat.cast_succ, add_mul, one_mul, add_comm]
      exact (abs_add_le _ _).trans (add_le_add ih (hturn i))

theorem mapM_zip_map {α β : Type} {f : α → β} {f' : α → β} {g : β × α → Option β} {l : List α}
    (h : ∀ a ∈ l, g (f a, a) = some (f' a)) : ((l.map f).zip l).mapM g = some (l.map f') := by
  induction l with
  | nil => rfl
  | cons a l ih =>
      rw [List.map_cons, List.zip_cons_cons, List.mapM_cons, h a List.mem_cons_self,
        ih fun b hb => h b (List.mem_cons_of_mem _ hb)]
      rfl

/-- **The registers are exact** for as many turns as their lanes have room for. -/
theorem Overflow.accumulate_ok (o : Overflow) {ys : List (ℕ → ℕ → ℤ)}
    (hbytes : ∀ y ∈ ys, IsBytes tile y) (starts : List ℕ) (hcount : starts.length ≤ 16384) :
    o.accumulate n tile ys starts = some (ys.map fun y => laneDot n tile y starts) := by
  unfold accumulate
  induction starts using List.reverseRecOn with
  | nil => rfl
  | append_singleton starts i ih =>
      rw [List.length_append, List.length_singleton] at hcount
      rw [List.foldlM_append, ih (by omega), some_bind, List.foldlM_cons]
      refine Eq.trans (bind_pure _) (mapM_zip_map fun y hy => ?_)
      have hnext (j : Fin n) : laneDot n tile y starts j +
          ∑ k : Fin 4, (tile i (4 * j + k) : ℤ) * y i (4 * j + k) =
            laneDot n tile y (starts ++ [i]) j := by
        rw [laneDot, laneDot, List.map_append, List.sum_append, List.map_singleton,
          List.sum_singleton]
      have hroom (j : Fin n) : |laneDot n tile y (starts ++ [i]) j| < 2 ^ 31 := by
        refine (abs_laneDot_le (hbytes y hy) _ j).trans_lt ?_
        rw [List.length_append, List.length_singleton]
        have hle : ((starts.length + 1 : ℕ) : ℤ) ≤ 16384 := by exact_mod_cast hcount
        linarith
      unfold dpbusd
      simp only [hnext]
      exact o.fitLanes_ok hroom

/-! ## Words -/

/-- The integer with the digits `zs` from bit `base` on. -/
def weighted (base : ℕ) : List ℤ → ℤ
  | [] => 0
  | z :: zs => z * 2 ^ base + weighted (base + 8) zs

theorem wrappingAdd_ofInt (a b : ℤ) : wrappingAdd (ofInt a) (ofInt b) = ofInt (a + b) := by
  refine word_ext (Nat.mod_lt _ W64_pos) (ofInt_lt _) ?_
  rw [cast_wrappingAdd dvd_rfl, cast_ofInt dvd_rfl, cast_ofInt dvd_rfl, cast_ofInt dvd_rfl,
    Int.cast_add]

theorem wrappingShl_ofInt (z : ℤ) {shift : ℕ} (hshift : shift < 64) :
    wrappingShl (ofInt z) shift = ofInt (z * 2 ^ shift) := by
  refine word_ext (Nat.mod_lt _ W64_pos) (ofInt_lt _) ?_
  rw [wrappingShl, cast_mod_W64 dvd_rfl, Nat.mod_eq_of_lt hshift, Nat.shiftLeft_eq, Nat.cast_mul,
    cast_ofInt dvd_rfl, cast_ofInt dvd_rfl]
  push_cast
  rfl

theorem flushDigit_ofInt {base j : ℕ} (hroom : base + 8 * j + 8 < 64) (a low : ℤ)
    (high : Option ℤ) :
    flushDigit base (ofInt a) low high j =
      ofInt (a + low * 2 ^ (base + 8 * j) + high.getD 0 * 2 ^ (base + 8 * j + 8)) := by
  cases high with
  | none =>
      rw [flushDigit, wrappingShl_ofInt _ (by omega), wrappingAdd_ofInt, Option.getD_none, zero_mul,
        add_zero]
  | some high =>
      rw [flushDigit, wrappingShl_ofInt _ (by omega), wrappingShl_ofInt _ (by omega),
        wrappingAdd_ofInt, wrappingAdd_ofInt, Option.getD_some]

/-- **A flush adds the weighted digits.** -/
theorem flush_ofInt {base : ℕ} {words : List (ℤ × Option ℤ)} (hroom : base + 8 * words.length < 64)
    (a : ℤ) :
    flush base words (ofInt a) = ofInt (a + weighted base (words.map Prod.fst) +
      weighted (base + 8) (words.map fun w => w.2.getD 0)) := by
  have hrun : ∀ (words : List (ℤ × Option ℤ)) (start : ℕ) (a : ℤ),
      base + 8 * (start + words.length) < 64 →
      (words.zipIdx start).foldl (fun x (word, j) => flushDigit base x word.1 word.2 j) (ofInt a) =
        ofInt (a + weighted (base + 8 * start) (words.map Prod.fst) +
          weighted (base + 8 * start + 8) (words.map fun w => w.2.getD 0)) := by
    intro words
    induction words with
    | nil =>
        intro start a _
        rw [List.map_nil, List.map_nil, weighted, weighted, add_zero, add_zero]
        rfl
    | cons w words ih =>
        intro start a hroom
        rw [List.length_cons] at hroom
        have hnext : base + 8 * (start + 1) = base + 8 * start + 8 := by ring
        rw [List.zipIdx_cons, List.foldl_cons]
        show List.foldl _ (flushDigit base (ofInt a) w.1 w.2 start) _ = _
        rw [flushDigit_ofInt (by omega), ih _ _ (by omega), hnext, List.map_cons, List.map_cons,
          weighted, weighted]
        refine congrArg ofInt ?_
        ring
  have hflush := hrun words 0 a (by omega)
  rwa [Nat.mul_zero, Nat.add_zero] at hflush

/-- A flush of the low words and the high words of all digits. -/
theorem flush_zip {base : ℕ} {lows : List ℤ} {highs : List (Option ℤ)}
    (hlen : highs.length = lows.length) (hroom : base + 8 * lows.length < 64) (a : ℤ) :
    flush base (lows.zip highs) (ofInt a) = ofInt (a + weighted base lows +
      weighted (base + 8) (highs.map fun high => high.getD 0)) := by
  have hhighs : (lows.zip highs).map (fun w => w.2.getD 0) = highs.map fun high => high.getD 0 := by
    conv_rhs => rw [← List.map_snd_zip hlen.le, List.map_map]
    rfl
  rw [flush_ofInt (by rw [List.length_zip, hlen, min_self]; exact hroom), hhighs,
    List.map_fst_zip hlen.ge]

/-- Weighted digits of sums. -/
theorem weighted_sum {ι α : Type} (base : ℕ) (s : Finset ι) (c : ι → ℤ) (ds : List α)
    (z : α → ι → ℤ) :
    weighted base (ds.map fun d => ∑ i ∈ s, c i * z d i) =
      ∑ i ∈ s, c i * weighted base (ds.map fun d => z d i) := by
  induction ds generalizing base with
  | nil => simp [weighted]
  | cons d ds ih =>
      simp only [List.map_cons, weighted]
      rw [ih, Finset.sum_mul, ← Finset.sum_add_distrib]
      exact Finset.sum_congr rfl fun i _ => by ring

theorem weighted_append (base : ℕ) (zs ws : List ℤ) :
    weighted base (zs ++ ws) = weighted base zs + weighted (base + 8 * zs.length) ws := by
  induction zs generalizing base with
  | nil => rw [List.nil_append, weighted, zero_add, List.length_nil, Nat.mul_zero, Nat.add_zero]
  | cons z zs ih =>
      have hnext : base + 8 + 8 * zs.length = base + 8 * (zs.length + 1) := by ring
      rw [List.cons_append, weighted, weighted, ih, List.length_cons, hnext, add_assoc]

theorem weighted_eq_zero (base : ℕ) {zs : List ℤ} (h : ∀ z ∈ zs, z = 0) : weighted base zs = 0 := by
  induction zs generalizing base with
  | nil => rfl
  | cons z zs ih =>
      rw [weighted, h z List.mem_cons_self, ih _ fun w hw => h w (List.mem_cons_of_mem _ hw),
        zero_mul, zero_add]

theorem weighted_eq_sum (base : ℕ) (zs : List ℤ) :
    weighted base zs = 2 ^ base * ∑ k ∈ Finset.range zs.length, zs.getD k 0 * 256 ^ k := by
  induction zs generalizing base with
  | nil => simp [weighted]
  | cons z zs ih =>
      have hshift : ∑ k ∈ Finset.range zs.length, zs.getD k 0 * (256 : ℤ) ^ (k + 1) =
          256 * ∑ k ∈ Finset.range zs.length, zs.getD k 0 * 256 ^ k := by
        rw [Finset.mul_sum]
        exact Finset.sum_congr rfl fun k _ => by ring
      rw [weighted, ih, List.length_cons, Finset.sum_range_succ']
      simp only [List.getD_cons_succ, List.getD_cons_zero, pow_zero, mul_one]
      rw [hshift]
      ring

/-- Digits one place higher. -/
theorem weighted_add_eight (base : ℕ) (zs : List ℤ) :
    weighted (base + 8) zs = 256 * weighted base zs := by
  induction zs generalizing base with
  | nil => simp [weighted]
  | cons z zs ih =>
      rw [weighted, weighted, ih]
      ring

/-- A scalar loop adds its products. -/
theorem foldl_wrappingMul_ofInt (x b : ℕ → ℕ) (rows : List ℕ) (a : ℤ) :
    rows.foldl (fun s i => wrappingAdd s (wrappingMul (x i) (b i))) (ofInt a) =
      ofInt (a + (rows.map fun i => (x i : ℤ) * b i).sum) := by
  induction rows generalizing a with
  | nil => rw [List.map_nil, List.sum_nil, add_zero, List.foldl_nil]
  | cons i rows ih =>
      have hproduct : wrappingMul (x i) (b i) = ofInt ((x i : ℤ) * b i) := by
        refine word_ext (Nat.mod_lt _ W64_pos) (ofInt_lt _) ?_
        rw [cast_wrappingMul dvd_rfl, cast_ofInt dvd_rfl]
        push_cast
        rfl
      rw [List.foldl_cons, hproduct, wrappingAdd_ofInt, ih, List.map_cons, List.sum_cons, add_assoc]

/-- A scalar loop over a range. -/
theorem foldl_wrappingMul_Ico (x b : ℕ → ℕ) (start stop : ℕ) (a : ℤ) :
    (List.range' start (stop - start)).foldl (fun s i => wrappingAdd s (wrappingMul (x i) (b i)))
        (ofInt a) = ofInt (a + ∑ i ∈ Finset.Ico start stop, (x i : ℤ) * b i) := by
  rw [foldl_wrappingMul_ofInt, List.range'_eq_map_range, List.map_map, Finset.sum_Ico_eq_sum_range]
  rfl

/-- The lanes of a register together. -/
theorem sum_laneDot (tile : ℕ → ℕ → ℕ) (y : ℕ → ℕ → ℤ) (starts : List ℕ) :
    ∑ j, laneDot n tile y starts j =
      (starts.map fun i => ∑ b ∈ Finset.range (n * 4), (tile i b : ℤ) * y i b).sum := by
  unfold laneDot
  induction starts with
  | nil => simp
  | cons i starts ih =>
      simp only [List.map_cons, List.sum_cons]
      rw [Finset.sum_add_distrib, ih, ← sum_range_blocks, Finset.sum_range]
      refine congrArg (· + _) (Finset.sum_congr rfl fun j _ => ?_)
      rw [Finset.sum_range, mul_comm (j : ℕ) 4]

end MachineWord
