import IpirSp.Fft.BitReversal
import IpirSp.Loops.Writes

/-!
# The iterative radix-two transform

`transform` is the textbook in-place loop: bit reversal, then rounds of butterflies over blocks of
length `2, 4, …, n`.  The entries are machine data and the butterfly is a parameter; what it has
to do is `IsButterfly`: on good data it adds and subtracts `ω^e` times its second argument, as seen
by a map `ρ` into a commutative ring.

The invariant `RoundInv` says that after `s` rounds the blocks of length `2^s` are the transforms of
the strided subsequences of the input, the block of index `β` that with offset `rev r β`.
`round_step` is one round, and `transform_spec` the whole loop: entry `k` is
`∑ t, ω^(k·t) · ρ (a t)`.
-/

namespace Fft

open Loops

section Code

variable {α : Type} (butterfly : ℕ → α → α → α × α)

/-- The butterflies of a round: block starts and offsets. -/
def roundPairs (n len : ℕ) : List (ℕ × ℕ) :=
  (blockStarts n len).flatMap fun block => (List.range (len / 2)).map fun k => (block, k)

/-- One round over blocks of length `len`. -/
def round (n len : ℕ) (a : ℕ → α) : ℕ → α :=
  applyPairs (fun p : ℕ × ℕ => p.1 + p.2) (fun p => p.1 + p.2 + len / 2)
    (fun p => butterfly (n / len * p.2)) a (roundPairs n len)

/-- The rounds from block length `len` on. -/
def rounds (n len : ℕ) (a : ℕ → α) : ℕ → α :=
  if _h : 0 < len ∧ len ≤ n then rounds n (len * 2) (round butterfly n len a) else a
termination_by n + 1 - len
decreasing_by omega

/-- The in-place transform of length `n`. -/
def transform (n : ℕ) (a : ℕ → α) : ℕ → α := rounds butterfly n 2 (bitReverse n a)

end Code

section Pairs

/-- The cells of the butterflies of a round of whole blocks. -/
theorem mem_roundPairs {count half : ℕ} (hhalf : 0 < half) {p : ℕ × ℕ} :
    p ∈ roundPairs (count * (half * 2)) (half * 2) ↔
      ∃ β < count, ∃ k < half, p = (β * (half * 2), k) := by
  rw [roundPairs, blockStarts_mul _ (by omega), Nat.mul_div_cancel _ two_pos, List.mem_flatMap]
  constructor
  · rintro ⟨block, hblock, hp⟩
    obtain ⟨β, hβ, rfl⟩ := List.mem_map.mp hblock
    obtain ⟨k, hk, rfl⟩ := List.mem_map.mp hp
    exact ⟨β, List.mem_range.mp hβ, k, List.mem_range.mp hk, rfl⟩
  · rintro ⟨β, hβ, k, hk, rfl⟩
    exact ⟨_, List.mem_map.mpr ⟨β, List.mem_range.mpr hβ, rfl⟩,
      List.mem_map.mpr ⟨k, List.mem_range.mpr hk, rfl⟩⟩

/-- A cell determines its block and its place in it. -/
theorem cell_inj {len β β' c c' : ℕ} (hc : c < len) (hc' : c' < len)
    (h : β * len + c = β' * len + c') : β = β' ∧ c = c' := by
  constructor
  · rw [← flat_div (r := β) hc, h, flat_div hc']
  · rw [← flat_mod (r := β) hc, h, flat_mod hc']

/-- **Different butterflies of a round have different cells.** -/
theorem pairwise_roundPairs (count : ℕ) {half : ℕ} (hhalf : 0 < half) :
    (roundPairs (count * (half * 2)) (half * 2)).Pairwise
      (DisjointCells (fun p : ℕ × ℕ => p.1 + p.2) fun p => p.1 + p.2 + half * 2 / 2) := by
  rw [Nat.mul_div_cancel _ two_pos]
  have hnodup : (roundPairs (count * (half * 2)) (half * 2)).Nodup := by
    rw [roundPairs, blockStarts_mul _ (by omega), Nat.mul_div_cancel _ two_pos, List.nodup_flatMap]
    constructor
    · intro block _
      exact List.Nodup.map (fun _ _ h => congrArg Prod.snd h) List.nodup_range
    · rw [List.pairwise_map]
      refine List.Pairwise.imp ?_ List.nodup_range
      intro β β' hne x hx hx'
      obtain ⟨k, -, rfl⟩ := List.mem_map.mp hx
      obtain ⟨k', -, hk'⟩ := List.mem_map.mp hx'
      exact hne (Nat.eq_of_mul_eq_mul_right (by omega) (congrArg Prod.fst hk').symm)
  refine List.Pairwise.imp_of_mem ?_ hnodup
  intro p p' hp hp' hne
  obtain ⟨β, -, k, hk, rfl⟩ := (mem_roundPairs hhalf).mp hp
  obtain ⟨β', -, k', hk', rfl⟩ := (mem_roundPairs hhalf).mp hp'
  have hcell (c c' : ℕ) (hc : c < half * 2) (hc' : c' < half * 2)
      (h : β * (half * 2) + c = β' * (half * 2) + c') : β = β' ∧ c = c' := cell_inj hc hc' h
  simp only [DisjointCells, ne_eq, add_assoc]
  refine ⟨fun h => ?_, fun h => ?_, fun h => ?_, fun h => ?_⟩
  · obtain ⟨rfl, rfl⟩ := hcell _ _ (by omega) (by omega) h
    exact hne rfl
  · have := (hcell _ _ (by omega) (by omega) h).2
    omega
  · have := (hcell _ _ (by omega) (by omega) h).2
    omega
  · obtain ⟨rfl, h'⟩ := hcell _ _ (by omega) (by omega) h
    obtain rfl : k = k' := by omega
    exact hne rfl

end Pairs

section Spec

variable {α A : Type} [CommRing A] (ρ : α → A) (good : α → Prop) (ω : A)

/-- A butterfly with twiddles `ω^e`, on good data. -/
structure IsButterfly (butterfly : ℕ → α → α → α × α) : Prop where
  good_fst : ∀ e u v, good u → good v → good (butterfly e u v).1
  good_snd : ∀ e u v, good u → good v → good (butterfly e u v).2
  map_fst : ∀ e u v, good u → good v → ρ (butterfly e u v).1 = ρ u + ω ^ e * ρ v
  map_snd : ∀ e u v, good u → good v → ρ (butterfly e u v).2 = ρ u - ω ^ e * ρ v

/-- A butterfly that takes good data to data that is `good'`, for the twiddles below `bound`.
Magnitudes that double in a round are of this kind. -/
structure IsGrowing (good' : α → Prop) (bound : ℕ) (butterfly : ℕ → α → α → α × α) : Prop where
  good_fst : ∀ e < bound, ∀ u v, good u → good v → good' (butterfly e u v).1
  good_snd : ∀ e < bound, ∀ u v, good u → good v → good' (butterfly e u v).2
  map_fst : ∀ e < bound, ∀ u v, good u → good v → ρ (butterfly e u v).1 = ρ u + ω ^ e * ρ v
  map_snd : ∀ e < bound, ∀ u v, good u → good v → ρ (butterfly e u v).2 = ρ u - ω ^ e * ρ v

/-- The blocks of length `2^s` of `b` are transforms of subsequences of `a` of stride `2^r`. -/
def RoundInv (s r : ℕ) (a b : ℕ → α) : Prop :=
  ∀ β < 2 ^ r, ∀ k < 2 ^ s, good (b (β * 2 ^ s + k)) ∧ ρ (b (β * 2 ^ s + k)) =
    ∑ t ∈ Finset.range (2 ^ s), ω ^ (2 ^ r * k * t) * ρ (a (rev r β + 2 ^ r * t))

variable {ρ good ω}

theorem IsButterfly.isGrowing {butterfly : ℕ → α → α → α × α}
    (hbf : IsButterfly ρ good ω butterfly) (bound : ℕ) :
    IsGrowing ρ good ω good bound butterfly where
  good_fst e _ := hbf.good_fst e
  good_snd e _ := hbf.good_snd e
  map_fst e _ := hbf.map_fst e
  map_snd e _ := hbf.map_snd e

/-- A sum over an even range, by parity. -/
theorem sum_range_mul_two (f : ℕ → A) (n : ℕ) :
    ∑ t ∈ Finset.range (n * 2), f t =
      ∑ t ∈ Finset.range n, f (2 * t) + ∑ t ∈ Finset.range n, f (2 * t + 1) := by
  induction n with
  | zero => simp
  | succ n ih =>
      rw [Nat.succ_mul, Finset.sum_range_succ, Finset.sum_range_succ, ih, Finset.sum_range_succ,
        Finset.sum_range_succ, mul_comm n 2]
      ring

/-- The even block of a pair: the transform of the even entries of the subsequence. -/
theorem RoundInv.even {s r : ℕ} {a b : ℕ → α} (hb : RoundInv ρ good ω s (r + 1) a b) {β k : ℕ}
    (hβ : β < 2 ^ r) (hk : k < 2 ^ s) :
    good (b (β * (2 ^ s * 2) + k)) ∧
      ρ (b (β * (2 ^ s * 2) + k)) = ∑ t ∈ Finset.range (2 ^ s),
        ω ^ (2 ^ r * k * (2 * t)) * ρ (a (rev r β + 2 ^ r * (2 * t))) := by
  have hrev : rev (r + 1) (2 * β) = rev r β := rev_two_mul r β
  obtain ⟨hgood, hval⟩ := hb (2 * β) (by rw [pow_succ]; omega) k hk
  rw [show 2 * β * 2 ^ s + k = β * (2 ^ s * 2) + k by ring] at hgood hval
  refine ⟨hgood, hval.trans (Finset.sum_congr rfl fun t _ => ?_)⟩
  rw [hrev, pow_succ]
  ring_nf

/-- The odd block of a pair, behind its twiddle: the transform of the odd entries. -/
theorem RoundInv.odd {s r : ℕ} {a b : ℕ → α} (hb : RoundInv ρ good ω s (r + 1) a b) {β k : ℕ}
    (hβ : β < 2 ^ r) (hk : k < 2 ^ s) :
    good (b (β * (2 ^ s * 2) + k + 2 ^ s)) ∧
      ω ^ (2 ^ r * k) * ρ (b (β * (2 ^ s * 2) + k + 2 ^ s)) = ∑ t ∈ Finset.range (2 ^ s),
        ω ^ (2 ^ r * k * (2 * t + 1)) * ρ (a (rev r β + 2 ^ r * (2 * t + 1))) := by
  have hrev : rev (r + 1) (2 * β + 1) = rev r β + 2 ^ r := rev_two_mul_add_one r β
  obtain ⟨hgood, hval⟩ := hb (2 * β + 1) (by rw [pow_succ]; omega) k hk
  rw [show (2 * β + 1) * 2 ^ s + k = β * (2 ^ s * 2) + k + 2 ^ s by ring] at hgood hval
  refine ⟨hgood, ?_⟩
  rw [hval, Finset.mul_sum]
  refine Finset.sum_congr rfl fun t _ => ?_
  rw [hrev, ← mul_assoc, ← pow_add, pow_succ]
  ring_nf

/-- What a round writes to the two cells of a butterfly. -/
theorem round_cells (butterfly : ℕ → α → α → α × α) {s r : ℕ} (b : ℕ → α) {β k : ℕ}
    (hβ : β < 2 ^ r) (hk : k < 2 ^ s) :
    round butterfly (2 ^ r * (2 ^ s * 2)) (2 ^ s * 2) b (β * (2 ^ s * 2) + k) =
        (butterfly (2 ^ r * k) (b (β * (2 ^ s * 2) + k)) (b (β * (2 ^ s * 2) + k + 2 ^ s))).1 ∧
      round butterfly (2 ^ r * (2 ^ s * 2)) (2 ^ s * 2) b (β * (2 ^ s * 2) + k + 2 ^ s) =
        (butterfly (2 ^ r * k) (b (β * (2 ^ s * 2) + k)) (b (β * (2 ^ s * 2) + k + 2 ^ s))).2 := by
  have hpos : 0 < 2 ^ s := Nat.two_pow_pos s
  have hcancel : 2 ^ r * (2 ^ s * 2) / (2 ^ s * 2) = 2 ^ r := Nat.mul_div_cancel _ (by omega)
  have hhalf : 2 ^ s * 2 / 2 = 2 ^ s := Nat.mul_div_cancel _ two_pos
  have hpair := applyPairs_cells
    (f := fun p : ℕ × ℕ => butterfly (2 ^ r * (2 ^ s * 2) / (2 ^ s * 2) * p.2))
    (pairwise_roundPairs (2 ^ r) hpos)
    (fun p _ => by simp only [ne_eq, Nat.left_eq_add]; omega) b
    ((mem_roundPairs hpos).mpr ⟨β, hβ, k, hk, rfl⟩)
  simp only [hcancel, hhalf] at hpair
  simpa only [round, hcancel, hhalf] using hpair

/-- In the second half of a block the twiddle changes its sign, and every odd power with it. -/
theorem pow_second_half {s r : ℕ} (hω : ω ^ 2 ^ (s + r) = -1) (k n : ℕ) :
    ω ^ (2 ^ r * (k + 2 ^ s) * n) = ω ^ (2 ^ r * k * n) * (-1) ^ n := by
  have hsign : ω ^ (2 ^ r * 2 ^ s) = -1 := by rw [← pow_add, add_comm, hω]
  rw [show 2 ^ r * (k + 2 ^ s) * n = 2 ^ r * k * n + 2 ^ r * 2 ^ s * n by ring, pow_add,
    pow_mul ω (2 ^ r * 2 ^ s), hsign]

/-- **One round** doubles the length of the blocks. -/
theorem round_step {butterfly : ℕ → α → α → α × α} {good' : α → Prop} {s r : ℕ}
    (hbf : IsGrowing ρ good ω good' (2 ^ (s + r)) butterfly)
    (hω : ω ^ 2 ^ (s + r) = -1) {a b : ℕ → α} (hb : RoundInv ρ good ω s (r + 1) a b) :
    RoundInv ρ good' ω (s + 1) r a (round butterfly (2 ^ r * (2 ^ s * 2)) (2 ^ s * 2) b) := by
  have htwiddle (k : ℕ) (hk : k < 2 ^ s) : 2 ^ r * k < 2 ^ (s + r) := by
    rw [add_comm s r, pow_add]
    exact Nat.mul_lt_mul_of_pos_left hk (Nat.two_pow_pos r)
  intro β hβ k hk
  rw [pow_succ 2 s] at hk ⊢
  rw [sum_range_mul_two]
  rcases Nat.lt_or_ge k (2 ^ s) with hlow | hhigh
  · -- The first half of the new block.
    obtain ⟨hgoodE, hvalE⟩ := hb.even hβ hlow
    obtain ⟨hgoodO, hvalO⟩ := hb.odd hβ hlow
    rw [(round_cells butterfly b hβ hlow).1]
    refine ⟨hbf.good_fst _ (htwiddle k hlow) _ _ hgoodE hgoodO, ?_⟩
    rw [hbf.map_fst _ (htwiddle k hlow) _ _ hgoodE hgoodO, hvalE, hvalO]
  · -- The second half: the twiddle changes its sign.
    obtain ⟨k', rfl⟩ := Nat.exists_eq_add_of_le' hhigh
    have hk' : k' < 2 ^ s := by omega
    obtain ⟨hgoodE, hvalE⟩ := hb.even hβ hk'
    obtain ⟨hgoodO, hvalO⟩ := hb.odd hβ hk'
    rw [← add_assoc, (round_cells butterfly b hβ hk').2]
    refine ⟨hbf.good_snd _ (htwiddle k' hk') _ _ hgoodE hgoodO, ?_⟩
    rw [hbf.map_snd _ (htwiddle k' hk') _ _ hgoodE hgoodO, hvalE, hvalO, sub_eq_add_neg,
      ← Finset.sum_neg_distrib]
    congr 1
    · refine Finset.sum_congr rfl fun t _ => ?_
      rw [pow_second_half hω, (even_two_mul t).neg_one_pow, mul_one]
    · refine Finset.sum_congr rfl fun t _ => ?_
      rw [pow_second_half hω, (odd_two_mul_add_one t).neg_one_pow, mul_neg_one, neg_mul]

/-- **The rounds** turn the invariant for the first block length into the one for the last, with
what is good depending on the round. -/
theorem rounds_grow {butterfly : ℕ → α → α → α × α} (good : ℕ → α → Prop) {m : ℕ}
    (hω : ω ^ 2 ^ m = -1) {s r : ℕ}
    (hbf : ∀ s', s ≤ s' → s' ≤ m → IsGrowing ρ (good s') ω (good (s' + 1)) (2 ^ m) butterfly)
    (hsr : s + r = m + 1) {a b : ℕ → α} (hb : RoundInv ρ (good s) ω s r a b) :
    RoundInv ρ (good (m + 1)) ω (m + 1) 0 a (rounds butterfly (2 ^ (m + 1)) (2 ^ s * 2) b) := by
  induction r generalizing s b with
  | zero =>
      obtain rfl : s = m + 1 := by omega
      have hpos : 0 < 2 ^ (m + 1) := Nat.two_pow_pos _
      rwa [rounds, dif_neg (by omega)]
  | succ r ih =>
      have hm : m = s + r := by omega
      have hlen : 2 ^ (m + 1) = 2 ^ r * (2 ^ s * 2) := by
        rw [hm, pow_succ, pow_add]
        ring
      have hpos : 0 < 2 ^ r := Nat.two_pow_pos r
      have hle : 2 ^ s * 2 ≤ 2 ^ (m + 1) := by
        rw [hlen]
        exact Nat.le_mul_of_pos_left _ hpos
      rw [rounds, dif_pos ⟨by have := Nat.two_pow_pos s; omega, hle⟩]
      have hstep := round_step (hm ▸ hbf s le_rfl (by omega)) (hm ▸ hω) hb
      rw [← hlen] at hstep
      rw [← pow_succ 2 s] at hstep ⊢
      exact ih (fun s' hs' hm' => hbf s' (by omega) hm') (by omega) hstep

/-- The rounds, with one kind of good data. -/
theorem rounds_spec {butterfly : ℕ → α → α → α × α} (hbf : IsButterfly ρ good ω butterfly)
    {m : ℕ} (hω : ω ^ 2 ^ m = -1) {s r : ℕ} (hsr : s + r = m + 1) {a b : ℕ → α}
    (hb : RoundInv ρ good ω s r a b) :
    RoundInv ρ good ω (m + 1) 0 a (rounds butterfly (2 ^ (m + 1)) (2 ^ s * 2) b) :=
  rounds_grow (fun _ => good) hω (fun _ _ _ => hbf.isGrowing _) hsr hb

/-- After the bit reversal every entry is a block. -/
theorem roundInv_bitReverse {m : ℕ} {a : ℕ → α} (ha : ∀ t < 2 ^ (m + 1), good (a t)) :
    RoundInv ρ good ω 0 (m + 1) a (bitReverse (2 ^ (m + 1)) a) := by
  intro β hβ k hk
  obtain rfl : k = 0 := by simpa using hk
  rw [pow_zero, mul_one, add_zero, bitReverse_apply (Nat.succ_pos m) a hβ, Finset.sum_range_one]
  exact ⟨ha _ (rev_lt _ _), by simp⟩

/-- What the invariant says after the last round. -/
theorem RoundInv.entry {m : ℕ} {a b : ℕ → α} (h : RoundInv ρ good ω m 0 a b) {k : ℕ}
    (hk : k < 2 ^ m) :
    good (b k) ∧ ρ (b k) = ∑ t ∈ Finset.range (2 ^ m), ω ^ (k * t) * ρ (a t) := by
  have hend := h 0 (by simp) k hk
  simpa only [pow_zero, one_mul, zero_mul, zero_add, rev_zero] using hend

/-- **The transform**: entry `k` is `∑ t, ω^(k·t) · a t`, and good inputs give good outputs. -/
theorem transform_spec {butterfly : ℕ → α → α → α × α} (hbf : IsButterfly ρ good ω butterfly)
    {m : ℕ} (hω : ω ^ 2 ^ m = -1) {a : ℕ → α} (ha : ∀ t < 2 ^ (m + 1), good (a t)) {k : ℕ}
    (hk : k < 2 ^ (m + 1)) :
    good (transform butterfly (2 ^ (m + 1)) a k) ∧ ρ (transform butterfly (2 ^ (m + 1)) a k) =
      ∑ t ∈ Finset.range (2 ^ (m + 1)), ω ^ (k * t) * ρ (a t) := by
  have hend := rounds_spec hbf hω (zero_add (m + 1)) (roundInv_bitReverse ha)
  rw [pow_zero, one_mul] at hend
  exact hend.entry hk

end Spec

end Fft
