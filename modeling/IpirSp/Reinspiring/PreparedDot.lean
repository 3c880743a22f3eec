import IpirSp.Loops.Iterator
import IpirSp.Reinspiring.PreparedQuery

/-!
# The products of a prepared query

Every path computes the product of a column with the query modulo `q`: the words or the digits, the
column or its tile in a band, with or without the extensions of the host.  The paths over digits
flush their lanes after windows of `65536` rows, before a lane can overflow, so the products do not
depend on what a lane does then.
-/

namespace Reinspiring

open Loops MachineWord Inspiring

/-! ## Steps of a window -/

section Steps

variable {start stop step : ℕ}

theorem stepStarts_eq (hstep : 0 < step) {count : ℕ} (hcount : stop - start = count * step) :
    stepStarts start stop step = (List.range count).map fun t => start + t * step := by
  rw [stepStarts, hcount, blockStarts_mul count hstep, List.map_map]
  rfl

theorem length_stepStarts_le {size : ℕ} (hstep : 0 < step) (hle : stop ≤ start + size * step) :
    (stepStarts start stop step).length ≤ size := by
  rw [stepStarts, blockStarts, List.length_map, List.length_map, List.length_range,
    Nat.div_le_iff_le_mul hstep]
  omega

/-- **The steps of a window visit its rows.** -/
theorem sum_stepStarts (hstep : 0 < step) (hdvd : step ∣ stop - start) (f : ℕ → ℤ) :
    ((stepStarts start stop step).map fun i => ∑ b ∈ Finset.range step, f (i + b)).sum =
      ∑ r ∈ Finset.Ico start stop, f r := by
  obtain ⟨count, hcount⟩ := hdvd
  rw [mul_comm] at hcount
  rw [stepStarts_eq hstep hcount, List.map_map, Finset.sum_Ico_eq_sum_range, hcount,
    ← sum_range_blocks]
  show ∑ t ∈ Finset.range count, ∑ b ∈ Finset.range step, f (start + t * step + b) = _
  refine Finset.sum_congr rfl fun t _ => Finset.sum_congr rfl fun b _ => ?_
  rw [add_assoc]

theorem dvd_of_mem_stepStarts (hstep : 0 < step) (hstart : step ∣ start)
    (hdvd : step ∣ stop - start) {i : ℕ} (hi : i ∈ stepStarts start stop step) : step ∣ i := by
  obtain ⟨count, hcount⟩ := hdvd
  rw [mul_comm] at hcount
  rw [stepStarts_eq hstep hcount] at hi
  obtain ⟨t, -, rfl⟩ := List.mem_map.mp hi
  exact hstart.add (Dvd.intro_left t rfl)

end Steps

/-! ## The words of the digits -/

section Planes

variable {q : ℕ} {words : List ℕ} {digits : List (List ℤ)} {skip : ℕ}

/-- The word that the digits of row `r` make. -/
def planeWord (base : ℕ) (digits : List (List ℤ)) (r : ℕ) : ℤ :=
  weighted base (digits.map fun d => d.getD r 0)

/-- The dot products with all digits, at their weights. -/
theorem weighted_dots (base : ℕ) (digits : List (List ℤ)) (rows : Finset ℕ) (x : ℕ → ℤ) :
    weighted base (digits.map fun d => ∑ r ∈ rows, x r * d.getD r 0) =
      ∑ r ∈ rows, x r * planeWord base digits r :=
  weighted_sum base rows x digits fun d r => d.getD r 0

theorem DigitPlanes.ne_nil (h : DigitPlanes q words digits skip) : digits ≠ [] := by
  rintro rfl
  exact absurd h.pos (by decide)

/-- **The top digit may be left out** one place higher. -/
theorem DigitPlanes.cast_dropLast (h : DigitPlanes q words digits skip) (r : ℕ) :
    ((planeWord (8 * skip + 8) digits.dropLast r : ℤ) : ZMod q) =
      256 * (planeWord (8 * skip) digits r : ℤ) := by
  have hne := h.ne_nil
  have hsplit := List.dropLast_append_getLast hne
  have hlen : 8 * skip + 8 + 8 * digits.dropLast.length = 8 * skip + 8 * digits.length := by
    have hpos := h.pos
    rw [List.length_dropLast]
    omega
  have hfull : planeWord (8 * skip + 8) digits r = planeWord (8 * skip + 8) digits.dropLast r +
      (digits.getLast hne).getD r 0 * 2 ^ (8 * skip + 8 * digits.length) := by
    rw [← hlen]
    unfold planeWord
    conv_lhs => rw [← hsplit, List.map_append, weighted_append, List.length_map]
    rw [List.map_singleton, weighted, weighted, add_zero]
  have hzero : ((2 : ZMod q)) ^ (8 * skip + 8 * digits.length) = 0 := by
    have hcast := (ZMod.natCast_eq_zero_iff _ _).mpr h.dvd
    push_cast at hcast
    exact hcast
  have hshift : planeWord (8 * skip + 8) digits r = 256 * planeWord (8 * skip) digits r :=
    weighted_add_eight _ _
  rw [hfull] at hshift
  have hcast := congrArg (Int.cast : ℤ → ZMod q) hshift
  push_cast at hcast
  rwa [hzero, mul_zero, add_zero] at hcast

theorem DigitPlanes.cast_planeWord (h : DigitPlanes q words digits skip) {r : ℕ}
    (hr : r < words.length) : ((planeWord (8 * skip) digits r : ℤ) : ZMod q) = words.getD r 0 :=
  h.value r hr

theorem DigitPlanes.limbCount_ok (h : DigitPlanes q words digits skip) :
    limbCount digits = .ok () := by
  have hroom := h.room
  exact if_pos ⟨h.pos, by omega⟩

end Planes

/-! ## Columns of digits -/

section Columns

variable {q : ℕ} {words : List ℕ} {digits : List (List ℤ)} {skip : ℕ} (lanes : Overflow)

/-- The registers of a window of a column, added up. -/
theorem reduce_window {y : ℕ → ℕ → ℤ} {d : List ℤ} (hy : y = fun i b => d.getD (0 + i + b) 0)
    (hd : ∀ i, |d.getD i 0| ≤ 128) {x : ℕ → ℕ} (hx : ∀ r, x r ≤ 255) {start stop : ℕ}
    (hle : stop ≤ start + 65536) (hdvd : 64 ∣ stop - start) :
    lanes.reduceAdd (laneDot 16 (fun i b => x (i + b)) y (stepStarts start stop 64)) =
      some (∑ r ∈ Finset.Ico start stop, (x r : ℤ) * d.getD r 0) := by
  have hsum : ∑ j, laneDot 16 (fun i b => x (i + b)) y (stepStarts start stop 64) j =
      ∑ r ∈ Finset.Ico start stop, (x r : ℤ) * d.getD r 0 := by
    rw [sum_laneDot, ← sum_stepStarts (by decide : 0 < 64) hdvd, hy]
    simp only [zero_add]
  have hterm : ∀ r ∈ Finset.Ico start stop, |(x r : ℤ) * d.getD r 0| ≤ 255 * 128 := by
    intro r _
    rw [abs_mul, Nat.abs_cast]
    exact mul_le_mul (by exact_mod_cast hx r) (hd r) (abs_nonneg _) (by norm_num)
  have hcount : ((stop - start : ℕ) : ℤ) ≤ 65536 := by
    exact_mod_cast (by omega : stop - start ≤ 65536)
  rw [← hsum]
  refine lanes.reduceAdd_ok ?_
  rw [hsum]
  refine (Finset.abs_sum_le_sum_abs _ _).trans_lt
    ((Finset.sum_le_card_nsmul _ _ _ hterm).trans_lt ?_)
  rw [Nat.card_Ico, nsmul_eq_mul]
  linarith

theorem mapM_map_some {α β γ : Type} {f : α → β} {g : β → Option γ} {g' : α → γ} {l : List α}
    (h : ∀ a ∈ l, g (f a) = some (g' a)) : (l.map f).mapM g = some (l.map g') := by
  induction l with
  | nil => rfl
  | cons a l ih =>
      rw [List.map_cons, List.mapM_cons, h a List.mem_cons_self,
        ih fun b hb => h b (List.mem_cons_of_mem _ hb)]
      rfl

/-- **A window of a column** adds its rows, and no lane overflows. -/
theorem dotWindow_ok (h : DigitPlanes q words digits skip) (a : List UInt16) {start stop : ℕ}
    (hle : stop ≤ start + 65536) (hdvd : 64 ∣ stop - start) (z : ℤ) :
    dotWindow lanes a digits 0 (8 * skip) start stop (ofInt z) =
      some (ofInt (z + ∑ r ∈ Finset.Ico start stop,
        ((a.getD r 0).toNat : ℤ) * planeWord (8 * skip) digits r)) := by
  have hword (r : ℕ) : (a.getD r 0).toNat < 65536 := (a.getD r 0).toNat_lt
  have hlo (r : ℕ) : (a.getD r 0).toNat % 256 ≤ 255 := by omega
  have hhi (r : ℕ) : (a.getD r 0).toNat / 256 ≤ 255 := by have := hword r; omega
  have hcount : (stepStarts start stop 64).length ≤ 16384 :=
    (length_stepStarts_le (by decide) (by omega : stop ≤ start + 1024 * 64)).trans (by decide)
  have hlane (x : ℕ → ℕ) (hx : ∀ r, x r ≤ 255) :
      lanes.accumulate 16 (fun i b => x (i + b)) (digits.map fun d i b => d.getD (0 + i + b) 0)
          (stepStarts start stop 64) =
        some (digits.map fun d =>
          laneDot 16 (fun i b => x (i + b)) (fun i b => d.getD (0 + i + b) 0)
          (stepStarts start stop 64)) := by
    rw [lanes.accumulate_ok _ _ hcount, List.map_map]
    · rfl
    · intro y hy
      obtain ⟨d, hd, rfl⟩ := List.mem_map.mp hy
      exact ⟨fun i b => hx (i + b), fun i b => h.abs_le d hd _⟩
  have hreduce (x : ℕ → ℕ) (hx : ∀ r, x r ≤ 255) :
      (digits.map fun d => laneDot 16 (fun i b => x (i + b)) (fun i b => d.getD (0 + i + b) 0)
        (stepStarts start stop 64)).mapM lanes.reduceAdd =
      some (digits.map fun d => ∑ r ∈ Finset.Ico start stop, (x r : ℤ) * d.getD r 0) :=
    mapM_map_some fun d hd => reduce_window lanes rfl (h.abs_le d hd) hx hle hdvd
  have hroom : 8 * skip + 8 * (digits.map fun d => ∑ r ∈ Finset.Ico start stop,
      (((a.getD r 0).toNat % 256 : ℕ) : ℤ) * d.getD r 0).length < 64 := by
    have hdigits := h.room
    rw [List.length_map]
    omega
  unfold dotWindow
  dsimp only
  rw [hlane (fun r => (a.getD r 0).toNat % 256) hlo, some_bind,
    hlane (fun r => (a.getD r 0).toNat / 256) hhi, some_bind,
    hreduce (fun r => (a.getD r 0).toNat % 256) hlo, some_bind,
    hreduce (fun r => (a.getD r 0).toNat / 256) hhi, some_bind]
  refine congrArg some ((flush_zip (by simp) hroom z).trans (congrArg ofInt ?_))
  rw [List.map_map, List.map_map, weighted_add_eight]
  show z + weighted (8 * skip) (digits.map fun d => ∑ r ∈ Finset.Ico start stop,
      (((a.getD r 0).toNat % 256 : ℕ) : ℤ) * d.getD r 0) + 256 * weighted (8 * skip)
      (digits.map fun d => ∑ r ∈ Finset.Ico start stop,
        (((a.getD r 0).toNat / 256 : ℕ) : ℤ) * d.getD r 0) = _
  rw [weighted_dots, weighted_dots, Finset.mul_sum, add_assoc, ← Finset.sum_add_distrib]
  refine congrArg (z + ·) (Finset.sum_congr rfl fun r _ => ?_)
  have hsplit : ((a.getD r 0).toNat : ℤ) =
      (((a.getD r 0).toNat % 256 : ℕ) : ℤ) + 256 * (((a.getD r 0).toNat / 256 : ℕ) : ℤ) := by omega
  rw [hsplit]
  ring

/-- **The product of a column of words with the digits.** -/
theorem u16DotVnni_eq (h : DigitPlanes q words digits skip) (hq : q ∣ W64) {a : List UInt16}
    (hlen : a.length = words.length) :
    ∃ s, u16DotVnni lanes a words digits 0 (8 * skip) = .ok s ∧ (s : ZMod q) =
      ∑ r ∈ Finset.range words.length, ((a.getD r 0).toNat : ZMod q) * (words.getD r 0 : ℕ) := by
  let value (stop : ℕ) : ℕ := ofInt (0 + ∑ r ∈ Finset.Ico 0 stop,
    ((a.getD r 0).toNat : ℤ) * planeWord (8 * skip) digits r)
  have hstop : a.length / 64 * 64 ≤ a.length := Nat.div_mul_le_self _ _
  have hloop : windowLoop 65536 (by decide) (a.length / 64 * 64)
      (fun start stop result =>
        laneResult (dotWindow lanes a digits 0 (8 * skip) start stop result)) 0 0 =
      (.ok (value (a.length / 64 * 64)) : Result ℕ) := by
    show windowLoop 65536 _ _ _ 0 (value 0) = _
    refine windowLoop_aligned value (fun start hlt hstart => ?_) (Nat.zero_le _)
      (Or.inl (dvd_zero _))
    have hdvd : 64 ∣ min (start + 65536) (a.length / 64 * 64) - start := by omega
    show laneResult (dotWindow lanes a digits 0 (8 * skip) start _ (ofInt _)) = _
    rw [dotWindow_ok lanes h a (min_le_left _ _) hdvd, add_assoc,
      Finset.sum_Ico_consecutive _ (Nat.zero_le _) (by omega)]
    rfl
  refine ⟨ofInt (0 + ∑ r ∈ Finset.Ico 0 (a.length / 64 * 64),
      ((a.getD r 0).toNat : ℤ) * planeWord (8 * skip) digits r +
    ∑ r ∈ Finset.Ico (a.length / 64 * 64) a.length,
      ((a.getD r 0).toNat : ℤ) * (wordAt words r : ℕ)), ?_, ?_⟩
  · unfold u16DotVnni
    dsimp only
    rw [hloop, ok_bind, foldl_wrappingMul_Ico]
    rfl
  · rw [cast_ofInt hq, ← hlen, zero_add]
    push_cast
    rw [← Nat.Ico_zero_eq_range, ← Finset.sum_Ico_consecutive _ (Nat.zero_le _) hstop]
    refine congrArg (· + _) (Finset.sum_congr rfl fun r hr => ?_)
    rw [h.cast_planeWord (hlen ▸ (Finset.mem_Ico.mp hr).2.trans_le hstop)]

end Columns

/-! ## Bands of digits -/

section Bands

variable {q : ℕ} {words : List ℕ} {digits : List (List ℤ)} {skip : ℕ} (lanes : Overflow)
  {lo : ℕ → ℕ → ℕ} {hi : Option (ℕ → ℕ → ℕ)}

/-- The byte of a tile for a column and a row. -/
def laneValue (tile : ℕ → ℕ → ℕ) (col r : ℕ) : ℕ := tile (r / 4 * 4) (4 * col + r % 4)

/-- What row `r` adds to the word of a column. -/
def bandTerm (lo : ℕ → ℕ → ℕ) (hi : Option (ℕ → ℕ → ℕ)) (digits : List (List ℤ)) (base col r : ℕ) :
    ℤ :=
  laneValue lo col r * planeWord base digits r +
    match hi with
    | some hi => laneValue hi col r * planeWord (base + 8) digits.dropLast r
    | none => 0

/-- A register of a window adds the rows of its columns. -/
theorem laneDot_rows {start stop : ℕ} (hstart : 4 ∣ start) (hdvd : 4 ∣ stop - start)
    (tile : ℕ → ℕ → ℕ) (d : List ℤ) (col : Fin 16) :
    laneDot 16 tile (fun row b => d.getD (row + b % 4) 0) (stepStarts start stop 4) col =
      ∑ r ∈ Finset.Ico start stop, (laneValue tile col r : ℤ) * d.getD r 0 := by
  rw [← sum_stepStarts (by decide : 0 < 4) hdvd]
  refine congrArg List.sum (List.map_congr_left fun i hi => ?_)
  have hrow := dvd_of_mem_stepStarts (by decide) hstart hdvd hi
  rw [Finset.sum_range]
  refine Finset.sum_congr rfl fun k _ => ?_
  have htile : (i + k) / 4 * 4 = i := by omega
  have hbyte : (i + k) % 4 = k := by omega
  have hdigit : (4 * (col : ℕ) + k) % 4 = k := by omega
  dsimp only
  rw [laneValue, htile, hbyte, hdigit]

include lanes

/-- The registers of a window. -/
theorem accumulate_band {start stop : ℕ} (hstart : 4 ∣ start) (hdvd : 4 ∣ stop - start)
    (hle : stop ≤ start + 65536) {tile : ℕ → ℕ → ℕ} (htile : ∀ row b, tile row b ≤ 255)
    {ds : List (List ℤ)} (hds : ∀ d ∈ ds, ∀ i, |d.getD i 0| ≤ 128) :
    lanes.accumulate 16 tile (ds.map fun d row b => d.getD (row + b % 4) 0)
        (stepStarts start stop 4) =
      some (ds.map fun d (col : Fin 16) =>
        ∑ r ∈ Finset.Ico start stop, (laneValue tile col r : ℤ) * d.getD r 0) := by
  have hcount : (stepStarts start stop 4).length ≤ 16384 :=
    length_stepStarts_le (by decide) (by omega)
  rw [lanes.accumulate_ok _ _ hcount, List.map_map]
  · exact congrArg some (List.map_congr_left fun d _ =>
      funext fun col => laneDot_rows hstart hdvd tile d col)
  · intro y hy
    obtain ⟨d, hd, rfl⟩ := List.mem_map.mp hy
    exact ⟨htile, fun row b => hds d hd _⟩

/-- **A window of a band** adds its rows to every column, and no lane overflows. -/
theorem bandWindow_ok (h : DigitPlanes q words digits skip) (hlo : ∀ row b, lo row b ≤ 255)
    (hhi : ∀ tile ∈ hi, ∀ row b, tile row b ≤ 255) {start stop : ℕ} (hstart : 4 ∣ start)
    (hdvd : 4 ∣ stop - start) (hle : stop ≤ start + 65536) (z : Fin 16 → ℤ) :
    bandWindow lanes lo hi digits (8 * skip) start stop (fun col => ofInt (z col)) =
      some fun col => ofInt (z col +
        ∑ r ∈ Finset.Ico start stop, bandTerm lo hi digits (8 * skip) col r) := by
  have hroom := h.room
  have hpos := h.pos
  have hlow := accumulate_band lanes hstart hdvd hle hlo h.abs_le
  have hflush (col : Fin 16) {highs : List (Option (SignedLanes 16))}
      (hlen : highs.length = digits.length) :
      flush (8 * skip) (((digits.map fun d (col : Fin 16) => ∑ r ∈ Finset.Ico start stop,
          (laneValue lo col r : ℤ) * d.getD r 0).zip highs).map fun (l, h) =>
            (l col, h.map (· col))) (ofInt (z col)) =
        ofInt (z col + ∑ r ∈ Finset.Ico start stop,
            (laneValue lo col r : ℤ) * planeWord (8 * skip) digits r +
          weighted (8 * skip + 8) (highs.map fun h => (h.map (· col)).getD 0)) := by
    have hzip (low : List (Fin 16 → ℤ)) : (low.zip highs).map (fun (l, h) =>
        (l col, h.map (· col))) = (low.map (· col)).zip (highs.map (Option.map (· col))) := by
      rw [List.zip_map]
      rfl
    rw [hzip, flush_zip (by simp [hlen]) (by simp; omega), List.map_map, List.map_map,
      ← weighted_dots]
    rfl
  unfold bandWindow
  dsimp only
  rw [hlow, some_bind]
  cases hi with
  | none =>
      dsimp only
      rw [some_bind]
      refine congrArg some (funext fun col => ?_)
      have hzero : weighted (8 * skip + 8) (((digits.map fun d (col : Fin 16) =>
          ∑ r ∈ Finset.Ico start stop, (laneValue lo col r : ℤ) * d.getD r 0).map
            fun _ => (none : Option (SignedLanes 16))).map fun h => (h.map (· col)).getD 0) =
              0 := by
        refine weighted_eq_zero _ fun z hz => ?_
        obtain ⟨h, hh, rfl⟩ := List.mem_map.mp hz
        obtain ⟨d, -, rfl⟩ := List.mem_map.mp hh
        rfl
      rw [hflush col (by simp), hzero, add_zero]
      simp only [bandTerm, add_zero]
  | some hi =>
      have habs : ∀ d ∈ digits.dropLast, ∀ i, |d.getD i 0| ≤ 128 :=
        fun d hd => h.abs_le d (List.mem_of_mem_dropLast hd)
      have hhigh := accumulate_band lanes hstart hdvd hle (hhi hi rfl) habs
      dsimp only
      rw [List.map_dropLast] at hhigh
      rw [hhigh, Option.map_eq_map, Option.map_some, some_bind]
      refine congrArg some (funext fun col => ?_)
      rw [hflush col (by simp; omega), List.map_append, weighted_append, List.map_map, List.map_map]
      show ofInt (z col + _ + (weighted (8 * skip + 8) (digits.dropLast.map fun d =>
        ∑ r ∈ Finset.Ico start stop, (laneValue hi col r : ℤ) * d.getD r 0) + weighted _ [0])) = _
      rw [weighted_dots, weighted, zero_mul, weighted, add_zero, add_zero, add_assoc,
        ← Finset.sum_add_distrib]
      rfl

/-- **A band of digits**: the words of all columns after the last window. -/
theorem bandVnni_ok (h : DigitPlanes q words digits skip) (hlo : ∀ row b, lo row b ≤ 255)
    (hhi : ∀ tile ∈ hi, ∀ row b, tile row b ≤ 255) {rows : ℕ} (hrows : 4 ∣ rows) (mask : ℕ) :
    bandVnni lanes rows lo hi digits (8 * skip) mask = .ok fun col : Fin 16 =>
      ofInt (0 + ∑ r ∈ Finset.Ico 0 rows, bandTerm lo hi digits (8 * skip) col r) &&& mask := by
  let value (stop : ℕ) : Lanes 16 := fun col =>
    ofInt (0 + ∑ r ∈ Finset.Ico 0 stop, bandTerm lo hi digits (8 * skip) col r)
  have hloop : windowLoop 65536 (by decide) rows
      (fun start stop out => laneResult (bandWindow lanes lo hi digits (8 * skip) start stop out)) 0
      (zeroLanes 16) = (.ok (value rows) : Result (Lanes 16)) := by
    show windowLoop 65536 _ _ _ 0 (value 0) = _
    refine windowLoop_aligned value (fun start hlt hstart => ?_) (Nat.zero_le _)
      (Or.inl (dvd_zero _))
    have hquad : 4 ∣ start := dvd_trans (by decide) hstart
    have hdvd : 4 ∣ min (start + 65536) rows - start := by omega
    show laneResult (bandWindow lanes lo hi digits (8 * skip) start _ fun col => ofInt _) = _
    rw [bandWindow_ok lanes h hlo hhi hquad hdvd (min_le_left _ _)]
    refine congrArg Except.ok (funext fun col => ?_)
    rw [add_assoc, Finset.sum_Ico_consecutive _ (Nat.zero_le _) (by omega)]
  unfold bandVnni
  rw [h.limbCount_ok, ok_bind, hloop, ok_bind]
  rfl

/-- The element of a column that the planes of a band hold. -/
def bandValue (lo : ℕ → ℕ → ℕ) (hi : Option (ℕ → ℕ → ℕ)) (col r : ℕ) : ℕ :=
  laneValue lo col r + match hi with
    | some hi => 256 * laneValue hi col r
    | none => 0

omit lanes in
/-- A masked word with a known residue. -/
theorem mask_eq_of_cast (hq : IsPowerOfTwo q) {s n : ℕ} (h : (s : ZMod q) = n) :
    s &&& (q - 1) = n % q := by
  rw [and_sub_one_eq_mod hq]
  exact (ZMod.natCast_eq_natCast_iff' s n q).mp h

omit lanes in
/-- What a row adds, modulo `q`. -/
theorem cast_bandTerm (h : DigitPlanes q words digits skip) {r : ℕ} (hr : r < words.length)
    (col : ℕ) :
    ((bandTerm lo hi digits (8 * skip) col r : ℤ) : ZMod q) =
      (bandValue lo hi col r : ZMod q) * (words.getD r 0 : ℕ) := by
  cases hi with
  | none =>
      rw [bandTerm, bandValue, add_zero, add_zero, Int.cast_mul, Int.cast_natCast,
        h.cast_planeWord hr]
  | some hi =>
      rw [bandTerm, bandValue, Int.cast_add, Int.cast_mul, Int.cast_mul, h.cast_dropLast,
        h.cast_planeWord hr]
      push_cast
      ring

/-- The product of a column with the query. -/
def columnProduct (q : ℕ) (x : ℕ → ℕ) (words : List ℕ) : ℕ :=
  (∑ r ∈ Finset.range words.length, x r * words.getD r 0) % q

/-- **A band of digits computes its columns.** -/
theorem bandVnni_eq (h : DigitPlanes q words digits skip) (hq : IsPowerOfTwo q) (hle : q ≤ W64)
    (hlo : ∀ row b, lo row b ≤ 255) (hhi : ∀ tile ∈ hi, ∀ row b, tile row b ≤ 255)
    (hrows : 4 ∣ words.length) :
    bandVnni lanes words.length lo hi digits (8 * skip) (q - 1) =
      .ok fun col : Fin 16 => columnProduct q (bandValue lo hi col) words := by
  rw [bandVnni_ok lanes h hlo hhi hrows]
  refine congrArg Except.ok (funext fun col => mask_eq_of_cast hq ?_)
  rw [cast_ofInt (hq.dvd_W64 hle), zero_add, Nat.Ico_zero_eq_range]
  push_cast
  exact Finset.sum_congr rfl fun r hr => cast_bandTerm h (Finset.mem_range.mp hr) col

omit lanes in
/-- **The portable loop computes the columns of a band.** -/
theorem bandPortable_eq (hq : IsPowerOfTwo q) (hle : q ≤ W64) {value : ℕ → ℕ → ℕ}
    (hrows : 4 ∣ words.length) (col : Fin 16) :
    bandPortable words.length value words (q - 1) col =
      columnProduct q (laneValue value col) words := by
  obtain ⟨count, hcount⟩ := hrows
  have hrun : ∀ count, ((List.range count).map (· * 4)).foldl
      (fun (out : Lanes 16) row => fun col => (List.range 4).foldl
        (fun s k => wrappingAdd s (wrappingMul (value row (col * 4 + k)) (wordAt words (row + k))))
        (out col)) (zeroLanes 16) col =
      ofInt (∑ r ∈ Finset.range (count * 4),
        (laneValue value col r : ℤ) * (wordAt words r : ℕ)) := by
    intro count
    induction count with
    | zero => rfl
    | succ count ih =>
        have hsucc : List.range (count + 1) = List.range count ++ [count] := List.range_succ
        rw [hsucc, List.map_append, List.map_singleton, List.foldl_append, List.foldl_cons,
          List.foldl_nil, ih, foldl_wrappingMul_ofInt, Nat.succ_mul, Finset.sum_range_add]
        refine congrArg ofInt (congrArg (_ + ·) ?_)
        show ∑ k ∈ Finset.range 4, ((value (count * 4) (col * 4 + k) : ℕ) : ℤ) *
          (wordAt words (count * 4 + k) : ℕ) = _
        refine Finset.sum_congr rfl fun k hk => ?_
        have hk4 := Finset.mem_range.mp hk
        have hrow : (count * 4 + k) / 4 * 4 = count * 4 := by omega
        have hbyte : (count * 4 + k) % 4 = k := by omega
        rw [laneValue, hrow, hbyte, mul_comm 4]
  unfold bandPortable
  rw [hcount, mul_comm 4, blockStarts_mul count (by decide)]
  show List.foldl _ (zeroLanes 16) _ col &&& (q - 1) = _
  rw [hrun]
  refine mask_eq_of_cast hq ?_
  rw [cast_ofInt (hq.dvd_W64 hle), hcount, mul_comm 4]
  push_cast
  rfl

end Bands

/-! ## Tiles -/

section Tiles

/-- The element that an index of an interleaved band of bytes comes from. -/
theorem scratch_u8 (band : List UInt8) {rows : ℕ} (hrows : 4 ∣ rows) {i : ℕ} (hi : i < rows * 16) :
    (scratch (rows * 16) (u8Writes band rows)).getD i 0 =
      band.getD (i % 64 / 4 * rows + i / 64 * 4 + i % 4) 0 := by
  obtain ⟨count, rfl⟩ := hrows
  rw [scratch, List.getD_eq_getElem _ _ (by simpa using hi), List.getElem_map, List.getElem_range]
  refine applyWrites_eq _ _
    (fun i => band.getD (i % 64 / 4 * (4 * count) + i / 64 * 4 + i % 4) 0) (fun w hw => ?_) i ?_
  · obtain ⟨row, hrow, hw⟩ := List.mem_flatMap.mp hw
    obtain ⟨col, hcol, hw⟩ := List.mem_flatMap.mp hw
    obtain ⟨k, hk, rfl⟩ := List.mem_map.mp hw
    rw [mul_comm 4, blockStarts_mul count (by decide)] at hrow
    obtain ⟨t, -, rfl⟩ := List.mem_map.mp hrow
    rw [List.mem_range] at hcol hk
    have hcolumn : (t * 4 * 16 + col * 4 + k) % 64 / 4 = col := by omega
    have htile : (t * 4 * 16 + col * 4 + k) / 64 * 4 = t * 4 := by omega
    have hbyte : (t * 4 * 16 + col * 4 + k) % 4 = k := by omega
    dsimp only
    rw [hcolumn, htile, hbyte]
  · have hindex : i / 64 * 4 * 16 + i % 64 / 4 * 4 + i % 4 = i := by omega
    refine ⟨(i / 64 * 4 * 16 + i % 64 / 4 * 4 + i % 4,
      band.getD (i % 64 / 4 * (4 * count) + i / 64 * 4 + i % 4) 0), ?_, hindex⟩
    refine List.mem_flatMap.mpr ⟨i / 64 * 4, ?_, List.mem_flatMap.mpr ⟨i % 64 / 4, ?_,
      List.mem_map.mpr ⟨i % 4, ?_, rfl⟩⟩⟩
    · rw [mul_comm 4, blockStarts_mul count (by decide)]
      exact List.mem_map.mpr ⟨i / 64, List.mem_range.mpr (by omega), rfl⟩
    · exact List.mem_range.mpr (by omega)
    · exact List.mem_range.mpr (by omega)

/-- Two bytes in a word. -/
theorem or_shiftLeft_eight {a : ℕ} (ha : a < 256) (b : ℕ) : a ||| b <<< 8 = a + 256 * b := by
  rw [Nat.or_comm, ← Nat.shiftLeft_add_eq_or_of_lt ha, Nat.shiftLeft_eq]
  omega

/-- Either byte of a word of two. -/
theorem byte_of_pair {a b : ℕ} (ha : a < 256) (hb : b < 256) (s : ℕ) (hs : s < 2) :
    ((a + 256 * b) >>> (s * 8)) &&& 255 = if s = 0 then a else b := by
  have hmask (w : ℕ) : w &&& 255 = w % 256 := Nat.and_two_pow_sub_one_eq_mod w 8
  rw [hmask, Nat.shiftRight_eq_div_pow]
  interval_cases s
  · rw [if_pos rfl]
    omega
  · rw [if_neg one_ne_zero]
    omega

/-- The word of the low bytes of two elements. -/
theorem toNat_lowPair (x y : UInt16) :
    ((x &&& (255 : UInt16)) ||| ((y &&& (255 : UInt16)) <<< (8 : UInt16))).toNat =
      x.toNat % 256 + 256 * (y.toNat % 256) := by
  have hmask (w : ℕ) : w &&& 255 = w % 256 := Nat.and_two_pow_sub_one_eq_mod w 8
  have hlow : x.toNat % 256 < 256 := Nat.mod_lt _ (by decide)
  have hfits : (y.toNat % 256) <<< 8 < 65536 := by
    rw [Nat.shiftLeft_eq]
    omega
  rw [UInt16.toNat_or, UInt16.toNat_and, UInt16.toNat_shiftLeft, UInt16.toNat_and]
  show x.toNat &&& 255 ||| (y.toNat &&& 255) <<< 8 % 65536 = _
  rw [hmask, hmask, Nat.mod_eq_of_lt hfits, or_shiftLeft_eight hlow]

/-- The word of the high bytes of two elements. -/
theorem toNat_highPair (x y : UInt16) :
    ((x >>> (8 : UInt16)) ||| (y &&& (0xff00 : UInt16))).toNat =
      x.toNat / 256 + 256 * (y.toNat / 256) := by
  have hx : x.toNat < 65536 := x.toNat_lt
  have hy : y.toNat < 65536 := y.toNat_lt
  have hhigh : y.toNat &&& 65280 = (y.toNat / 256) <<< 8 := by
    have hshift : 65280 = 255 <<< 8 := rfl
    have hdiv : y.toNat / 256 = y.toNat >>> 8 := (Nat.shiftRight_eq_div_pow _ 8).symm
    have hall : 255 = 2 ^ 8 - 1 := rfl
    refine Nat.eq_of_testBit_eq fun k => ?_
    rw [hshift, hdiv, Nat.testBit_and, Nat.testBit_shiftLeft, Nat.testBit_shiftLeft,
      Nat.testBit_shiftRight, hall, Nat.testBit_two_pow_sub_one]
    by_cases hk : 8 ≤ k
    · have hindex : 8 + (k - 8) = k := by omega
      rw [decide_eq_true hk, Bool.true_and, Bool.true_and, hindex]
      by_cases hlast : k < 16
      · rw [decide_eq_true (by omega), Bool.and_true]
      · have hnone : y.toNat.testBit k = false := Nat.testBit_lt_two_pow
          (hy.trans_le (Nat.pow_le_pow_right two_pos (by omega : 16 ≤ k)))
        rw [hnone, Bool.false_and]
    · rw [decide_eq_false hk, Bool.false_and, Bool.false_and, Bool.and_false]
  rw [UInt16.toNat_or, UInt16.toNat_and, UInt16.toNat_shiftRight]
  show x.toNat >>> 8 ||| y.toNat &&& 65280 = _
  rw [hhigh, Nat.shiftRight_eq_div_pow, or_shiftLeft_eight (by omega)]

/-- The word that an index of an interleaved band of words holds. -/
def pairAt (band : List UInt16) (rows i : ℕ) : UInt16 :=
  let row := i / 64 * 4
  let x := band.getD (i % 32 / 2 * rows + row + 2 * (i % 2)) 0
  let y := band.getD (i % 32 / 2 * rows + row + 2 * (i % 2) + 1) 0
  if i % 64 < 32 then (x &&& (255 : UInt16)) ||| ((y &&& (255 : UInt16)) <<< (8 : UInt16))
  else (x >>> (8 : UInt16)) ||| (y &&& (0xff00 : UInt16))

/-- The words of an interleaved band. -/
theorem scratch_u16 (band : List UInt16) {rows : ℕ} (hrows : 4 ∣ rows) {i : ℕ}
    (hi : i < rows * 16) :
    (scratch (rows * 16) (u16Writes band rows)).getD i 0 = pairAt band rows i := by
  obtain ⟨count, rfl⟩ := hrows
  have hstarts : blockStarts (4 * count) 4 = (List.range count).map (· * 4) := by
    rw [mul_comm 4, blockStarts_mul count (by decide)]
  rw [scratch, List.getD_eq_getElem _ _ (by simpa using hi), List.getElem_map, List.getElem_range]
  refine applyWrites_eq _ _ (pairAt band (4 * count)) (fun w hw => ?_) i ?_
  · obtain ⟨row, hrow, hw⟩ := List.mem_flatMap.mp hw
    obtain ⟨col, hcol, hw⟩ := List.mem_flatMap.mp hw
    obtain ⟨pair, hpair, hw⟩ := List.mem_flatMap.mp hw
    rw [hstarts] at hrow
    obtain ⟨t, -, rfl⟩ := List.mem_map.mp hrow
    rw [List.mem_range] at hcol hpair
    rcases List.mem_pair.mp hw with rfl | rfl
    · have hplane : (t * 4 * 16 + col * 2 + pair) % 64 < 32 := by omega
      have htile : (t * 4 * 16 + col * 2 + pair) / 64 * 4 = t * 4 := by omega
      have hcolumn : (t * 4 * 16 + col * 2 + pair) % 32 / 2 = col := by omega
      have hbyte : (t * 4 * 16 + col * 2 + pair) % 2 = pair := by omega
      rw [pairAt, if_pos hplane, htile, hcolumn, hbyte]
    · have hplane : ¬(t * 4 * 16 + 32 + col * 2 + pair) % 64 < 32 := by omega
      have htile : (t * 4 * 16 + 32 + col * 2 + pair) / 64 * 4 = t * 4 := by omega
      have hcolumn : (t * 4 * 16 + 32 + col * 2 + pair) % 32 / 2 = col := by omega
      have hbyte : (t * 4 * 16 + 32 + col * 2 + pair) % 2 = pair := by omega
      rw [pairAt, if_neg hplane, htile, hcolumn, hbyte]
  · have hrow : i / 64 * 4 ∈ blockStarts (4 * count) 4 := by
      rw [hstarts]
      exact List.mem_map.mpr ⟨i / 64, List.mem_range.mpr (by omega), rfl⟩
    have hcol : i % 32 / 2 ∈ List.range 16 := List.mem_range.mpr (by omega)
    have hpair : i % 2 ∈ List.range 2 := List.mem_range.mpr (Nat.mod_lt _ two_pos)
    by_cases hplane : i % 64 < 32
    · have hindex : i / 64 * 4 * 16 + i % 32 / 2 * 2 + i % 2 = i := by omega
      exact ⟨_, List.mem_flatMap.mpr ⟨_, hrow, List.mem_flatMap.mpr ⟨_, hcol,
        List.mem_flatMap.mpr ⟨_, hpair, List.mem_cons_self⟩⟩⟩, hindex⟩
    · have hindex : i / 64 * 4 * 16 + 32 + i % 32 / 2 * 2 + i % 2 = i := by omega
      exact ⟨_, List.mem_flatMap.mpr ⟨_, hrow, List.mem_flatMap.mpr ⟨_, hcol,
        List.mem_flatMap.mpr ⟨_, hpair, List.mem_cons_of_mem _ List.mem_cons_self⟩⟩⟩, hindex⟩

/-- The element of column `col` at row `r` of a band. -/
def bandElement {α : Type} [Zero α] (band : List α) (rows col r : ℕ) :
    α := band.getD (col * rows + r) 0

/-- **The tiles of a band of bytes** hold its elements. -/
theorem laneValue_u8 (band : List UInt8) {rows : ℕ} (hrows : 4 ∣ rows) (col : Fin 16) {r : ℕ}
    (hr : r < rows) :
    laneValue (fun row b =>
      ((scratch (rows * 16) (u8Writes band rows)).getD (row * 16 + b) 0).toNat)
      col r = (bandElement band rows col r).toNat := by
  have hcolumn : (r / 4 * 4 * 16 + (4 * col + r % 4)) % 64 / 4 = col := by omega
  have htile : (r / 4 * 4 * 16 + (4 * col + r % 4)) / 64 * 4 = r / 4 * 4 := by omega
  have hbyte : (r / 4 * 4 * 16 + (4 * (col : ℕ) + r % 4)) % 4 = r % 4 := by omega
  have hrow : (col : ℕ) * rows + r / 4 * 4 + r % 4 = col * rows + r := by omega
  rw [laneValue, scratch_u8 band hrows (by omega), hcolumn, htile, hbyte, hrow]
  rfl

/-- **The tiles of a band of words** hold the bytes of its elements. -/
theorem laneValue_u16 (band : List UInt16) {rows : ℕ} (hrows : 4 ∣ rows) (col : Fin 16) {r : ℕ}
    (hr : r < rows) :
    laneValue (fun row b => tileByte (scratch (rows * 16) (u16Writes band rows)) (row * 16) b)
        col r = (bandElement band rows col r).toNat % 256 ∧
      laneValue (fun row b =>
        tileByte (scratch (rows * 16) (u16Writes band rows)) (row * 16 + 32) b)
        col r = (bandElement band rows col r).toNat / 256 := by
  have hselect (s : ℕ) (hs : s = r % 2) :
      (if s = 0 then band.getD (col * rows + r / 4 * 4 + 2 * (r % 4 / 2)) 0
        else band.getD (col * rows + r / 4 * 4 + 2 * (r % 4 / 2) + 1) 0) =
      bandElement band rows col r := by
    split
    · have hrow : (col : ℕ) * rows + r / 4 * 4 + 2 * (r % 4 / 2) = col * rows + r := by omega
      rw [hrow]
      rfl
    · have hrow : (col : ℕ) * rows + r / 4 * 4 + 2 * (r % 4 / 2) + 1 = col * rows + r := by omega
      rw [hrow]
      rfl
  have hbit : (4 * (col : ℕ) + r % 4) % 2 = r % 2 := by omega
  constructor
  · have hplane : (r / 4 * 4 * 16 + (4 * (col : ℕ) + r % 4) / 2) % 64 < 32 := by omega
    have htile : (r / 4 * 4 * 16 + (4 * (col : ℕ) + r % 4) / 2) / 64 * 4 = r / 4 * 4 := by omega
    have hcolumn : (r / 4 * 4 * 16 + (4 * (col : ℕ) + r % 4) / 2) % 32 / 2 = col := by omega
    have hpair : (r / 4 * 4 * 16 + (4 * (col : ℕ) + r % 4) / 2) % 2 = r % 4 / 2 := by omega
    rw [laneValue, tileByte, scratch_u16 band hrows (by omega), pairAt, if_pos hplane,
      htile, hcolumn,
      hpair, toNat_lowPair, byte_of_pair (Nat.mod_lt _ (by decide)) (Nat.mod_lt _ (by decide)) _
        (Nat.mod_lt _ two_pos), hbit, ← hselect (r % 2) rfl]
    split <;> rfl
  · have hplane : ¬(r / 4 * 4 * 16 + 32 + (4 * (col : ℕ) + r % 4) / 2) % 64 < 32 := by omega
    have htile : (r / 4 * 4 * 16 + 32 + (4 * (col : ℕ) + r % 4) / 2) / 64 * 4 = r / 4 * 4 := by
      omega
    have hcolumn : (r / 4 * 4 * 16 + 32 + (4 * (col : ℕ) + r % 4) / 2) % 32 / 2 = col := by omega
    have hpair : (r / 4 * 4 * 16 + 32 + (4 * (col : ℕ) + r % 4) / 2) % 2 = r % 4 / 2 := by omega
    have hbyte (w : UInt16) : w.toNat / 256 < 256 := by
      have hlt : w.toNat < 65536 := w.toNat_lt
      omega
    rw [laneValue, tileByte, scratch_u16 band hrows (by omega), pairAt, if_neg hplane,
      htile, hcolumn,
      hpair, toNat_highPair, byte_of_pair (hbyte _) (hbyte _) _ (Nat.mod_lt _ two_pos), hbit,
      ← hselect (r % 2) rfl]
    split <;> rfl

end Tiles

/-! ## Bands of a database -/

section Database

variable {α : Type} [Zero α] {rows count : ℕ}

/-- Band `i` of a database. -/
def bandAt (db : List α) (rows i : ℕ) : List α := (db.drop (i * (rows * 16))).take (rows * 16)

omit [Zero α] in
theorem length_bandAt {db : List α} (hlen : db.length = count * (rows * 16)) {i : ℕ}
    (hi : i < count) : (bandAt db rows i).length = rows * 16 := by
  have hroom : (i + 1) * (rows * 16) ≤ count * (rows * 16) := Nat.mul_le_mul_right _ hi
  rw [Nat.add_mul, one_mul] at hroom
  rw [bandAt, List.length_take, List.length_drop]
  omega

/-- **The bands of an interleaved database.** -/
theorem interleaveBands_ok (writes : List α → ℕ → List (ℕ × α)) (hrows : 0 < rows ∧ rows % 4 = 0)
    {db : List α} (hlen : db.length = count * (rows * 16)) :
    interleaveBands writes db rows =
      .ok ((List.range count).flatMap fun i =>
        scratch (rows * 16) (writes (bandAt db rows i) rows)) := by
  have hsize : 0 < rows * 16 := by omega
  have hcheck : 0 < rows ∧ rows % 4 = 0 ∧ db.length % (rows * 16) = 0 :=
    ⟨hrows.1, hrows.2, by rw [hlen]; exact Nat.mul_mod_left _ _⟩
  rw [interleaveBands, if_neg (not_not.mpr hcheck), chunks_exact hsize hlen]
  refine congrArg Except.ok ?_
  rw [List.flatMap_def, List.flatMap_def, List.map_map]
  refine congrArg List.flatten (List.map_congr_left fun i hi => ?_)
  show scratch (bandAt db rows i).length _ = _
  rw [length_bandAt hlen (List.mem_range.mp hi)]
  rfl

theorem length_of_interleaveBands {writes : List α → ℕ → List (ℕ × α)} {db tiles : List α}
    (h : interleaveBands writes db rows = .ok tiles) : tiles.length = db.length := by
  unfold interleaveBands at h
  split at h; · cases h
  rename_i hcheck
  obtain rfl := Except.ok.inj h
  have hsize : 0 < rows * 16 := by omega
  conv_rhs => rw [← flatten_chunks hsize db]
  rw [List.length_flatMap, List.length_flatten]
  refine congrArg List.sum (List.map_congr_left fun band _ => ?_)
  rw [scratch, List.length_map, List.length_range]

omit [Zero α] in
/-- **The products of all bands** are the products of all columns. -/
theorem multiplyBands_ok {Q : PreparedU16Query} (hQ : Q.words.length = rows)
    (hrows : 0 < rows ∧ rows % 4 = 0) {tile : ℕ → List α} (htile : ∀ i, (tile i).length = rows * 16)
    {band : List α → Result (Lanes 16)} {value : ℕ → ℕ}
    (hband : ∀ i < count, band (tile i) = .ok fun col => value (i * 16 + col)) :
    multiplyBands Q ((List.range count).flatMap tile) (count * 16) band =
      .ok ((List.range (count * 16)).map value) := by
  have hsize : 0 < rows * 16 := by omega
  have hlen : ((List.range count).flatMap tile).length = count * (rows * 16) := by
    simp [List.length_flatMap, htile]
  have htotal : ((List.range count).flatMap tile).length = rows * (count * 16) := by
    rw [hlen]
    ring
  have hcheck : 0 < rows ∧ rows % 4 = 0 ∧ count * 16 % 16 = 0 :=
    ⟨hrows.1, hrows.2, Nat.mul_mod_left _ _⟩
  have hchunks : chunks (rows * 16) ((List.range count).flatMap tile) =
      (List.range count).map tile := by
    rw [chunks_exact hsize hlen]
    exact List.map_congr_left fun i hi => take_drop_flatMap htile (List.mem_range.mp hi)
  have hvalues : (List.range (count * 16)).map value =
      (List.range count).flatMap fun i => List.ofFn fun col : Fin 16 => value (i * 16 + col) := by
    rw [← flatten_chunks (by decide : 0 < 16) ((List.range (count * 16)).map value),
      chunks_exact (by decide : 0 < 16) (by rw [List.length_map, List.length_range]),
      List.flatMap_def]
    refine congrArg List.flatten (List.map_congr_left fun i hi => ?_)
    have hroom : (i + 1) * 16 ≤ count * 16 := Nat.mul_le_mul_right _ (List.mem_range.mp hi)
    refine List.ext_getElem ?_ fun col hcol hcol' => ?_
    · rw [List.length_take, List.length_drop, List.length_map, List.length_range, List.length_ofFn]
      omega
    · rw [List.getElem_take, List.getElem_drop, List.getElem_map, List.getElem_range,
        List.getElem_ofFn]
  have hbands : (List.range count).mapM (band ∘ tile) = .ok ((List.range count).map
      fun i (col : Fin 16) => value (i * 16 + col)) :=
    mapM_eq_ok fun i hi => hband i (List.mem_range.mp hi)
  unfold multiplyBands
  dsimp only
  rw [hQ, if_neg (not_not.mpr hcheck), if_neg (not_not.mpr htotal), hchunks, List.mapM_map, hbands,
    ok_bind, hvalues, List.flatMap_def, List.flatMap_def, List.map_map]
  rfl

/-- An element of a band is an element of the database. -/
theorem bandElement_bandAt (db : List α) (i : ℕ) (col : Fin 16) {r : ℕ} (hr : r < rows) :
    bandElement (bandAt db rows i) rows col r = db.getD ((i * 16 + col) * rows + r) 0 := by
  have hinside : (col : ℕ) * rows + r < rows * 16 := by
    have hnext : ((col : ℕ) + 1) * rows ≤ 16 * rows := Nat.mul_le_mul_right _ col.isLt
    rw [Nat.add_mul, one_mul, mul_comm 16] at hnext
    omega
  have hindex : i * (rows * 16) + (col * rows + r) = (i * 16 + col) * rows + r := by ring
  rw [bandElement, bandAt, List.getD_eq_getElem?_getD, List.getElem?_take_of_lt hinside,
    List.getElem?_drop, hindex, ← List.getD_eq_getElem?_getD]

end Database

/-! ## All paths -/

section Paths

variable {q : ℕ} {words : List ℕ} {Q : PreparedU16Query} (host : Host) (lanes : Overflow)

/-- What a prepared query holds of its words. -/
structure PreparedU16Query.Prepares (Q : PreparedU16Query) (q : ℕ) (words : List ℕ) : Prop where
  isPowerOfTwo : IsPowerOfTwo q
  le : q ≤ 2 ^ 56
  lt : ∀ x ∈ words, x < q
  words_eq : Q.words = words
  mask_eq : Q.mask = q - 1
  digits : Q.digits = [] ∨ DigitPlanes q words Q.digits Q.skip

/-- **Preparing a query** succeeds for canonical words of an admitted modulus only. -/
theorem prepares_of_new (h : PreparedU16Query.new host words q = .ok Q) : Q.Prepares q words := by
  unfold PreparedU16Query.new at h
  split at h; · cases h
  rename_i hcheck
  push Not at hcheck
  obtain ⟨hpow, ⟨htwo, hle⟩, hlt⟩ := hcheck
  cases h
  refine ⟨hpow, hle, hlt, rfl, rfl, ?_⟩
  show (if host.supportsInterleaved then byteDigits words q else ([], 0)).1 = [] ∨
    DigitPlanes q words (if host.supportsInterleaved then byteDigits words q else ([], 0)).1
      (if host.supportsInterleaved then byteDigits words q else ([], 0)).2
  split
  · exact Or.inr (digitPlanes_byteDigits hpow htwo hle words)
  · exact Or.inl rfl

theorem PreparedU16Query.Prepares.le_W64 (h : Q.Prepares q words) :
    q ≤ W64 := h.le.trans (by decide)

/-- The words of a query are machine words. -/
theorem PreparedU16Query.Prepares.wordAt_lt (h : Q.Prepares q words) (r : ℕ) :
    wordAt words r < W64 := by
  unfold wordAt
  rw [List.getD_eq_getElem?_getD]
  rcases hget : words[r]? with _ | v
  · exact W64_pos
  · exact (h.lt v (List.mem_of_getElem? hget)).trans_le h.le_W64

/-- The product of a dispatched kernel. -/
theorem PreparedU16Query.Prepares.dispatch_eq (h : Q.Prepares q words) {x : ℕ → ℕ}
    (hx : ∀ r, x r < W64) :
    dispatch host x (wordAt words) words.length &&& (q - 1) = columnProduct q x words := by
  refine mask_eq_of_cast h.isPowerOfTwo ?_
  have hdvd := h.isPowerOfTwo.dvd_W64 h.le_W64
  have hcast := congrArg (ZMod.castHom hdvd (ZMod q))
    (cast_dispatch (n := words.length) (fun i _ => hx i) (fun i _ => h.wordAt_lt i) host)
  rw [map_natCast, map_sum] at hcast
  rw [hcast]
  push_cast
  refine Finset.sum_congr rfl fun r _ => ?_
  rw [map_mul, map_natCast, map_natCast]
  rfl

/-- **The product of a column of bytes.** -/
theorem PreparedU16Query.Prepares.dotU8_eq (h : Q.Prepares q words) {column : List UInt8}
    (hlen : column.length = words.length) :
    Q.dotU8 host column = .ok (columnProduct q (fun r => (column.getD r 0).toNat) words) := by
  have hword (r : ℕ) : (column.getD r 0).toNat < W64 :=
    (column.getD r 0).toNat_lt.trans (by decide)
  rw [PreparedU16Query.dotU8, h.words_eq, if_neg (not_not.mpr hlen), h.mask_eq,
    ← h.dispatch_eq host hword, ← hlen]
  rfl

/-- **The product of a column of words.** -/
theorem PreparedU16Query.Prepares.dot_eq (h : Q.Prepares q words) {column : List UInt16}
    (hlen : column.length = words.length) :
    Q.dot host lanes column = .ok (columnProduct q (fun r => (column.getD r 0).toNat) words) := by
  have hword (r : ℕ) : (column.getD r 0).toNat < W64 :=
    (column.getD r 0).toNat_lt.trans (by decide)
  rw [PreparedU16Query.dot, h.words_eq, if_neg (not_not.mpr hlen), PreparedU16Query.dotRange,
    h.words_eq, List.drop_zero, hlen, List.take_length, h.mask_eq]
  rcases h.digits with hnone | hplanes
  · rw [if_neg (not_not.mpr hnone), ← h.dispatch_eq host hword, ← hlen]
    rfl
  · obtain ⟨s, hs, hcast⟩ := u16DotVnni_eq lanes hplanes
      (h.isPowerOfTwo.dvd_W64 h.le_W64) hlen
    rw [if_pos hplanes.ne_nil, hplanes.limbCount_ok, ok_bind, hs, ok_bind]
    refine congrArg Except.ok (mask_eq_of_cast h.isPowerOfTwo (hcast.trans ?_))
    push_cast
    rfl

/-- **The products of an interleaved database of bytes.** -/
theorem PreparedU16Query.Prepares.multiplyInterleavedU8_eq (h : Q.Prepares q words) {count : ℕ}
    (hrows : 0 < words.length ∧ words.length % 4 = 0) {db tiles : List UInt8}
    (hlen : db.length = count * (words.length * 16))
    (htiles : interleaveU8Columns db words.length = .ok tiles) :
    Q.multiplyInterleavedU8 lanes tiles (count * 16) = .ok ((List.range (count * 16)).map fun c =>
      columnProduct q (fun r => (db.getD (c * words.length + r) 0).toNat) words) := by
  have hdvd : 4 ∣ words.length := Nat.dvd_of_mod_eq_zero hrows.2
  rw [interleaveU8Columns, interleaveBands_ok u8Writes hrows hlen] at htiles
  obtain rfl := Except.ok.inj htiles
  unfold PreparedU16Query.multiplyInterleavedU8
  rw [h.words_eq, h.mask_eq]
  refine multiplyBands_ok (congrArg List.length h.words_eq) hrows
    (fun i => by rw [scratch, List.length_map, List.length_range]) fun i hi => ?_
  have hcolumn (col : Fin 16) :
        columnProduct q (laneValue (fun row b => ((scratch (words.length * 16)
        (u8Writes (bandAt db words.length i) words.length)).getD (row * 16 + b) 0).toNat) col)
          words =
      columnProduct q (fun r => (db.getD ((i * 16 + col) * words.length + r) 0).toNat) words := by
    refine congrArg (· % q) (Finset.sum_congr rfl fun r hr => ?_)
    have hr' := Finset.mem_range.mp hr
    rw [laneValue_u8 _ hdvd col hr', bandElement_bandAt db i col hr']
  rcases h.digits with hnone | hplanes
  · rw [if_neg (not_not.mpr hnone)]
    refine congrArg Except.ok (funext fun col => ?_)
    rw [bandPortable_eq h.isPowerOfTwo h.le_W64 hdvd]
    exact hcolumn col
  · have hband : (scratch (words.length * 16)
        (u8Writes (bandAt db words.length i) words.length)).length / 16 = words.length := by
      rw [scratch, List.length_map, List.length_range]
      omega
    rw [if_pos hplanes.ne_nil, hband, bandVnni_eq lanes hplanes h.isPowerOfTwo h.le_W64
      (fun row b => Nat.le_of_lt_succ (UInt8.toNat_lt _)) (fun tile htile => by cases htile) hdvd]
    exact congrArg Except.ok (funext hcolumn)

/-- **The products of an interleaved database of words.** -/
theorem PreparedU16Query.Prepares.multiplyInterleaved_eq (h : Q.Prepares q words) {count : ℕ}
    (hrows : 0 < words.length ∧ words.length % 4 = 0) {db tiles : List UInt16}
    (hlen : db.length = count * (words.length * 16))
    (htiles : interleaveColumns db words.length = .ok tiles) :
    Q.multiplyInterleaved lanes tiles (count * 16) = .ok ((List.range (count * 16)).map fun c =>
      columnProduct q (fun r => (db.getD (c * words.length + r) 0).toNat) words) := by
  have hdvd : 4 ∣ words.length := Nat.dvd_of_mod_eq_zero hrows.2
  have hbyte (band : List UInt16) (word lane : ℕ) : tileByte band word lane ≤ 255 :=
    Nat.and_le_right
  rw [interleaveColumns, interleaveBands_ok u16Writes hrows hlen] at htiles
  obtain rfl := Except.ok.inj htiles
  unfold PreparedU16Query.multiplyInterleaved
  rw [h.words_eq, h.mask_eq]
  refine multiplyBands_ok (congrArg List.length h.words_eq) hrows
    (fun i => by rw [scratch, List.length_map, List.length_range]) fun i hi => ?_
  have helement (col : Fin 16) {r : ℕ} (hr : r < words.length) :
      laneValue (fun row b => tileByte (scratch (words.length * 16)
          (u16Writes (bandAt db words.length i) words.length)) (row * 16) b) col r +
        256 * laneValue (fun row b => tileByte (scratch (words.length * 16)
          (u16Writes (bandAt db words.length i) words.length)) (row * 16 + 32) b) col r =
      (db.getD ((i * 16 + col) * words.length + r) 0).toNat := by
    obtain ⟨hlow, hhigh⟩ := laneValue_u16 (bandAt db words.length i) hdvd col hr
    rw [hlow, hhigh, bandElement_bandAt db i col hr, Nat.mod_add_div]
  rcases h.digits with hnone | hplanes
  · rw [if_neg (not_not.mpr hnone)]
    refine congrArg Except.ok (funext fun col => ?_)
    rw [bandPortable_eq h.isPowerOfTwo h.le_W64 hdvd]
    refine congrArg (· % q) (Finset.sum_congr rfl fun r hr => ?_)
    refine congrArg (· * words.getD r 0) (Eq.trans ?_ (helement col (Finset.mem_range.mp hr)))
    exact or_shiftLeft_eight (Nat.lt_succ_of_le (hbyte _ _ _)) _
  · have hband : (scratch (words.length * 16)
        (u16Writes (bandAt db words.length i) words.length)).length / 16 = words.length := by
      rw [scratch, List.length_map, List.length_range]
      omega
    rw [if_pos hplanes.ne_nil, hband, bandVnni_eq lanes hplanes h.isPowerOfTwo h.le_W64
      (fun row b => hbyte _ _ _)
      (fun tile htile row b => by
        obtain rfl := Option.some.inj htile
        exact hbyte _ _ _) hdvd]
    refine congrArg Except.ok (funext fun col => ?_)
    refine congrArg (· % q) (Finset.sum_congr rfl fun r hr => ?_)
    exact congrArg (· * words.getD r 0) (helement col (Finset.mem_range.mp hr))

end Paths

end Reinspiring
