import IpirSp.Gadget.Balanced
import IpirSp.Inspiring.KeySwitching

/-!
# Ranges of the signed digits

The digit loop of `signed_gadget_invert_alloc` takes the balanced digits of an integer and keeps
what remains above them as the top digit, all stored modulo `q`.  `signedDigits_eq` says so, and the
ranges are then those of the balanced digits: `signedDigits_isSigned` for one coefficient and
`signedGadgetInvert_exact` for a polynomial.
-/

namespace Inspiring

open Negacyclic SpiralRs

/-- The stored digits of `x`: canonical residues that recompose, short below the top and at most the
base there. -/
structure IsSigned (g : GadgetParams) (q x : ℕ) (digits : List ℕ) : Prop where
  length_eq : digits.length = g.ell
  lt : ∀ w ∈ digits, w < q
  sum_modEq : ∑ k ∈ Finset.range g.ell, digits.getD k 0 * g.z ^ k ≡ x [MOD q]
  low : ∀ k, k + 1 < g.ell → -((g.z / 2 : ℕ) : ℤ) ≤ (digits.getD k 0 : ℤ).bmod q ∧
    (digits.getD k 0 : ℤ).bmod q < (g.z / 2 : ℕ)
  top_le : digits.getD (g.ell - 1) 0 ≤ g.z

/-- The integers that the digit loop stores modulo `q`. -/
def signedInts (g : GadgetParams) (n x : ℕ) : List ℤ :=
  Gadget.digits g.z n x ++ [Gadget.remainder g.z n x]

section Loop

variable {g : GadgetParams} {q : ℕ}

theorem two_dvd_of_bitsPer_pos (hbits : 0 < g.bitsPer) : (2 : ℤ) ∣ (g.z : ℤ) := by
  exact_mod_cast dvd_pow_self 2 hbits.ne'

/-- The branch of the digit loop. -/
theorem digit_eq (hbits : 0 < g.bitsPer) (x : ℕ) :
    Gadget.digit g.z x =
      if x % g.z ≥ g.z / 2 then (x % g.z : ℕ) - (g.z : ℤ) else (x % g.z : ℕ) := by
  have hz : 0 < g.z := Nat.two_pow_pos _
  have heven := two_dvd_of_bitsPer_pos hbits
  have hlt := Nat.mod_lt x hz
  have hdiv := Nat.mod_add_div x g.z
  have hx : (x : ℤ) = (x % g.z : ℕ) + g.z * (x / g.z : ℕ) := by exact_mod_cast hdiv.symm
  have hshift : ((x : ℤ) + g.z / 2) % g.z = ((x % g.z : ℕ) + (g.z : ℤ) / 2) % g.z := by
    rw [hx, add_right_comm, Int.add_mul_emod_self_left]
  rw [Gadget.digit, hshift]
  split
  · have hwrap : (((x % g.z : ℕ) : ℤ) + g.z / 2) % g.z =
        ((x % g.z : ℕ) + (g.z : ℤ) / 2 - g.z) % g.z := by
      rw [Int.sub_emod_right]
    rw [hwrap, Int.emod_eq_of_lt (by omega) (by omega)]
    omega
  · rw [Int.emod_eq_of_lt (by omega) (by omega)]
    omega

/-- What the loop goes on with. -/
theorem rest_eq (hbits : 0 < g.bitsPer) (x : ℕ) :
    Gadget.rest g.z x = ((x / g.z + if x % g.z ≥ g.z / 2 then 1 else 0 : ℕ) : ℤ) := by
  have hz : (0 : ℤ) < g.z := by exact_mod_cast Nat.two_pow_pos _
  have hsplit := Gadget.digit_add_rest g.z x
  have hx : (x : ℤ) = (x % g.z : ℕ) + g.z * (x / g.z : ℕ) := by
    exact_mod_cast (Nat.mod_add_div x g.z).symm
  rw [digit_eq hbits] at hsplit
  refine mul_left_cancel₀ hz.ne' ?_
  split at hsplit
  · rw [if_pos ‹_›]
    push_cast at hsplit hx ⊢
    linarith
  · rw [if_neg ‹_›]
    push_cast at hsplit hx ⊢
    linarith

/-- **The digit loop** stores balanced digits and what remains above them. -/
theorem signedDigits_eq (hbits : 0 < g.bitsPer) (hhalf : g.z / 2 ≤ q) (n x : ℕ) :
    signedDigits g q n x = (signedInts g n x).map fun v => (v % (q : ℤ)).toNat := by
  have hz : 0 < g.z := Nat.two_pow_pos _
  induction n generalizing x with
  | zero =>
      have htop : (if x ≥ q then x % q else x) = x % q := by
        split
        · rfl
        · exact (Nat.mod_eq_of_lt (not_le.mp ‹_›)).symm
      rw [signedDigits, htop]
      show [x % q] = [((x : ℤ) % (q : ℤ)).toNat]
      rw [← Int.natCast_mod, Int.toNat_natCast]
  | succ n ih =>
      have hlt := Nat.mod_lt x hz
      have heven := two_dvd_of_bitsPer_pos hbits
      have hints : signedInts g (n + 1) x =
          Gadget.digit g.z x :: signedInts g n (x / g.z + if x % g.z ≥ g.z / 2 then 1 else 0) := by
        rw [signedInts, signedInts, Gadget.digits, Gadget.remainder, rest_eq hbits]
        rfl
      rw [hints, List.map_cons, ← ih, digit_eq hbits]
      simp only [signedDigits, low_bits, high_bits]
      by_cases hlow : x % g.z ≥ g.z / 2
      · rw [if_pos hlow, if_pos hlow, if_pos hlow]
        refine congrArg (· :: _) ?_
        rw [← Int.add_emod_right, Int.emod_eq_of_lt (by omega) (by omega)]
        omega
      · rw [if_neg hlow, if_neg hlow, if_neg hlow, add_zero]
        refine congrArg (· :: _) ?_
        rw [Int.emod_eq_of_lt (by omega) (by omega), Int.toNat_natCast]

/-- What the loop leaves for the top digit is at most the base. -/
theorem remainder_le_z (hbits : 0 < g.bitsPer) {n x : ℕ} (hx : x ≤ g.z ^ (n + 1)) :
    0 ≤ Gadget.remainder g.z n x ∧ Gadget.remainder g.z n x ≤ g.z := by
  refine Gadget.remainder_bounds (by exact_mod_cast Nat.two_pow_pos _)
    (two_dvd_of_bitsPer_pos hbits) n (Int.natCast_nonneg x) ?_
  rw [pow_succ] at hx
  exact_mod_cast hx

/-- **One coefficient**: the stored digits recompose and are short. -/
theorem signedDigits_isSigned (hodd : q % 2 = 1) (hbits : 0 < g.bitsPer) (hell : 0 < g.ell)
    (hcoverage : q ≤ g.z ^ g.ell) (hhalf : g.z / 2 ≤ q) {x : ℕ} (hx : x < q) :
    IsSigned g q x (signedDigits g q (g.ell - 1) x) := by
  obtain ⟨n, hn⟩ : ∃ n, g.ell = n + 1 := ⟨g.ell - 1, by omega⟩
  rw [hn, Nat.add_sub_cancel]
  have hq : (0 : ℤ) < q := by omega
  have heven := two_dvd_of_bitsPer_pos hbits
  have hdigits := signedDigits_eq hbits hhalf n x
  have hlength := length_signedDigits g q n x
  refine ⟨hlength.trans hn.symm, signedDigits_lt (by omega) hhalf n x, ?_, ?_, ?_⟩
  · have hsum := sum_signedDigits hhalf (dvd_pow_self 2 hbits.ne') n x
    rw [hn, ← ZMod.natCast_eq_natCast_iff]
    push_cast
    exact hsum
  · intro k hk
    have hk' : k < (Gadget.digits g.z n x).length := by
      rw [Gadget.length_digits]
      omega
    have hbounds := Gadget.digits_bounds (by exact_mod_cast Nat.two_pow_pos _) heven n x _
      (List.getElem_mem hk')
    have hget : (signedDigits g q n x).getD k 0 =
        ((Gadget.digits g.z n x)[k] % (q : ℤ)).toNat := by
      rw [List.getD_eq_getElem _ _ (by omega), List.getElem_of_eq hdigits, List.getElem_map]
      exact congrArg (fun v : ℤ => (v % (q : ℤ)).toNat) (List.getElem_append_left hk')
    rw [hget, Int.toNat_of_nonneg (Int.emod_nonneg _ hq.ne'), Int.emod_bmod]
    exact_mod_cast Gadget.bmod_bounds heven hodd hbounds.1 hbounds.2
  · rw [hn, Nat.add_sub_cancel]
    obtain ⟨hnonneg, hle⟩ := remainder_le_z hbits (hn ▸ hx.le.trans hcoverage : x ≤ g.z ^ (n + 1))
    have hget : (signedDigits g q n x).getD n 0 = (Gadget.remainder g.z n x % (q : ℤ)).toNat := by
      rw [List.getD_eq_getElem _ _ (by omega), List.getElem_of_eq hdigits, List.getElem_map]
      exact congrArg (fun v : ℤ => (v % (q : ℤ)).toNat)
        (List.getElem_concat_length (Gadget.length_digits _ _ _).symm _)
    obtain ⟨r, hr⟩ := Int.eq_ofNat_of_zero_le hnonneg
    rw [hr] at hle
    rw [hget, hr, ← Int.natCast_mod, Int.toNat_natCast]
    exact (Nat.mod_le r q).trans (by exact_mod_cast hle)

end Loop

/-! ## Polynomials -/

section Poly

variable {P : RlweParams}

theorem RlweParams.q_le_z_pow (P : RlweParams) : P.q ≤ P.gadget.z ^ P.gadget.ell := by
  have hcoverage := P.coverage
  rwa [pow_mul] at hcoverage

/-- The digits of one coefficient, limb by limb. -/
theorem map_signedGadgetInvert {input : Poly P.d} {i : Fin P.d} (hi : input i < P.q) :
    (List.range P.gadget.ell).map (fun k => signedGadgetInvert P input k i) =
      signedDigits P.gadget P.q (P.gadget.ell - 1) (input i) := by
  have hell : P.gadget.ell - 1 + 1 = P.gadget.ell := Nat.sub_add_cancel P.ell_pos
  have hlength := length_signedDigits P.gadget P.q (P.gadget.ell - 1) (input i)
  rw [hell] at hlength
  refine List.ext_getElem (by rw [List.length_map, List.length_range, hlength]) fun k _ hk => ?_
  rw [List.getElem_map, List.getElem_range]
  simp only [signedGadgetInvert, if_neg (not_le.mpr hi)]
  rw [List.getD_eq_getElem _ _ hk]

/-- **The signed gadget is exact and short**: over every modulus, base and length that the digits
cover, for one coefficient and for every polynomial of residues. -/
theorem signedGadgetInvert_exact :
    (∀ (g : GadgetParams) (q : ℕ), q % 2 = 1 → 0 < g.bitsPer → 0 < g.ell → q ≤ g.z ^ g.ell →
      g.z / 2 ≤ q → ∀ x < q, IsSigned g q x (signedDigits g q (g.ell - 1) x)) ∧
    ∀ P : RlweParams, P.gadget.z / 2 ≤ P.q → ∀ input : Poly P.d, (∀ i, input i < P.q) →
      ∃ digits, signedGadgetInvertAlloc P input = .ok digits ∧
        ∀ i, IsSigned P.gadget P.q (input i)
          ((List.range P.gadget.ell).map fun k => digits k i) := by
  constructor
  · intro g q hodd hbits hell hcoverage hhalf x hx
    exact signedDigits_isSigned hodd hbits hell hcoverage hhalf hx
  · intro P hhalf input hinput
    refine ⟨signedGadgetInvert P input, by rw [signedGadgetInvertAlloc, if_pos hhalf], fun i => ?_⟩
    rw [map_signedGadgetInvert (hinput i)]
    exact signedDigits_isSigned P.q_odd P.bitsPer_pos P.ell_pos P.q_le_z_pow hhalf (hinput i)

/-- A word whose carries run through every digit, in a base larger than the modulus too. -/
theorem signedGadgetInvert_exact_small :
    IsSigned ⟨2, 3⟩ 31 30 (signedDigits ⟨2, 3⟩ 31 2 30) ∧
      IsSigned ⟨3, 2⟩ 5 4 (signedDigits ⟨3, 2⟩ 5 1 4) ∧
      ∃ digits, signedGadgetInvertAlloc smallParams ![16, 12, 4, 0] = .ok digits ∧
        ∀ i, IsSigned smallParams.gadget smallParams.q ((![16, 12, 4, 0] : Poly 4) i)
          ((List.range smallParams.gadget.ell).map fun k => digits k i) :=
  ⟨signedGadgetInvert_exact.1 ⟨2, 3⟩ 31 (by decide) (by decide) (by decide) (by decide) (by decide)
      30 (by decide),
    signedGadgetInvert_exact.1 ⟨3, 2⟩ 5 (by decide) (by decide) (by decide) (by decide) (by decide)
      4 (by decide),
    signedGadgetInvert_exact.2 smallParams (by decide) ![16, 12, 4, 0]
      (show ∀ i : Fin 4, (![16, 12, 4, 0] : Poly 4) i < 17 by decide)⟩

end Poly

end Inspiring
