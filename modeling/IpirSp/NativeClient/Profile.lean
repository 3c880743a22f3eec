import IpirSp.Reinspiring.NativeParams

/-!
# Native client profiles

A profile is a packing profile with a database shape and the widths of the transport.  `new` sets
the default widths and every `with…` call changes one of them after a check, in any order.
`Reachable` are the profiles that some sequence of calls returns, and `Reachable.valid` is the
invariant of all of them.
-/

namespace NativeClient

open Inspiring Reinspiring

variable {d q : ℕ} {P : NativeParams d q}

/-- `default_response_bits`. -/
def defaultResponseBits (P : NativeParams d q) : ℕ := min (P.pBits + 6) P.qBits

/-- `TransportFloors`. -/
structure TransportFloors where
  twoMaskDitheredQuery : ℕ
  oneMaskDitheredQuery : ℕ
  twoMaskMaskBits : Option ℕ
  oneMaskMaskBits : Option ℕ
  twoMaskResponseBits : ℕ

/-- `floors`. -/
def floors (P : NativeParams d q) : TransportFloors :=
  let gadget := (P.pBits, P.bits, P.ell)
  let defaultResponse := defaultResponseBits P
  if gadget = (16, 19, 2) then ⟨43, 43, some 27, some 28, defaultResponse⟩
  else if gadget = (8, 19, 2) ∨ gadget = (8, 27, 1) then ⟨28, 49, some 22, none, 10⟩
  else ⟨49, 49, none, none, defaultResponse⟩

/-- `mask_width_allowed`. -/
def maskWidthAllowed (bits : ℕ) (floor : Option ℕ) : Prop :=
  bits = 64 ∨ bits = 54 ∨ ∃ f ∈ floor, f ≤ bits ∧ bits ≤ 32

instance (bits : ℕ) (floor : Option ℕ) : Decidable (maskWidthAllowed bits floor) :=
  inferInstanceAs (Decidable (_ ∨ _ ∨ ∃ f ∈ floor, _))

/-- `NativeProfile`. -/
structure NativeProfile (P : NativeParams d q) where
  rows : ℕ
  cols : ℕ
  queryBits : ℕ
  responseBits : ℕ
  khBits : ℕ
  twoMask : Bool
  publishedMaskBits : ℕ
  ditheredQuery : Bool
deriving DecidableEq

namespace NativeProfile

/-- `NativeProfile::new`. -/
def new (P : NativeParams d q) (rows cols : ℕ) : Result (NativeProfile P) :=
  if rows = 0 ∨ cols = 0 ∨ rows % d ≠ 0 ∨ cols % d ≠ 0 ∨
      ¬rows * cols ≤ (if P.p ≤ 256 then 2 ^ 31 else 2 ^ 30) ∨ P.sampler ≠ .gaussian ∨
      P.p > 65536 then
    invalidParams "invalid native IPIR profile or database shape"
  else .ok {
    rows, cols
    queryBits := min 49 P.qBits
    responseBits := defaultResponseBits P
    khBits := P.qBits
    twoMask := false
    publishedMaskBits := 64
    ditheredQuery := false }

/-- `with_kh_bits`. -/
def withKhBits (profile : NativeProfile P) (bits : ℕ) : Result (NativeProfile P) :=
  let full := P.qBits
  if profile.twoMask ∧ bits ≠ full then invalidParams "two-mask mode has no K_h precision"
  else if bits ≠ full ∧ ¬(40 ≤ bits ∧ bits < full) then
    invalidParams "Kh precision must be between 40 and log2(q)"
  else .ok { profile with khBits := bits }

/-- `with_two_mask_output`. -/
def withTwoMaskOutput (profile : NativeProfile P) : Result (NativeProfile P) :=
  if profile.khBits ≠ P.qBits then invalidParams "two-mask mode has no K_h precision"
  else if ¬maskWidthAllowed profile.publishedMaskBits (floors P).twoMaskMaskBits then
    invalidParams "two-mask mode requires a certified-range or lossless mask precision"
  else .ok { profile with twoMask := true }

/-- `with_published_mask_bits`. -/
def withPublishedMaskBits (profile : NativeProfile P) (bits : ℕ) : Result (NativeProfile P) :=
  let floor := if profile.twoMask then (floors P).twoMaskMaskBits else (floors P).oneMaskMaskBits
  if bits ≠ 64 ∧ (q ≠ 2 ^ 54 ∨ ¬maskWidthAllowed bits floor) then
    invalidParams "rounded public masks require native q54 and 54 or a certified-range precision"
  else .ok { profile with publishedMaskBits := bits }

/-- `with_dithered_query_bits`. -/
def withDitheredQueryBits (profile : NativeProfile P) (bits : ℕ) : Result (NativeProfile P) :=
  let floor :=
    if profile.twoMask then (floors P).twoMaskDitheredQuery else (floors P).oneMaskDitheredQuery
  if q ≠ 2 ^ 54 ∨ ¬(floor ≤ bits ∧ bits ≤ 49) then
    invalidParams "dithered queries require native q54 and a certified-range precision"
  else .ok { profile with queryBits := bits, ditheredQuery := true }

/-- `with_response_bits`. -/
def withResponseBits (profile : NativeProfile P) (bits : ℕ) : Result (NativeProfile P) :=
  let default := defaultResponseBits P
  let floor := if profile.twoMask then (floors P).twoMaskResponseBits else default
  if ¬(floor ≤ bits ∧ bits ≤ default) ∨ (bits ≠ default ∧ q ≠ 2 ^ 54) then
    invalidParams "response precision must be between the certified floor and p_bits+6"
  else .ok { profile with responseBits := bits }

/-- The profiles that the public calls return. -/
inductive Reachable : NativeProfile P → Prop
  | new {rows cols : ℕ} {profile : NativeProfile P} :
      NativeProfile.new P rows cols = .ok profile → Reachable profile
  | withKhBits {profile next : NativeProfile P} {bits : ℕ} :
      Reachable profile → profile.withKhBits bits = .ok next → Reachable next
  | withTwoMaskOutput {profile next : NativeProfile P} :
      Reachable profile → profile.withTwoMaskOutput = .ok next → Reachable next
  | withPublishedMaskBits {profile next : NativeProfile P} {bits : ℕ} :
      Reachable profile → profile.withPublishedMaskBits bits = .ok next → Reachable next
  | withDitheredQueryBits {profile next : NativeProfile P} {bits : ℕ} :
      Reachable profile → profile.withDitheredQueryBits bits = .ok next → Reachable next
  | withResponseBits {profile next : NativeProfile P} {bits : ℕ} :
      Reachable profile → profile.withResponseBits bits = .ok next → Reachable next

/-- What holds of every profile. -/
structure Valid (profile : NativeProfile P) : Prop where
  rows_pos : 0 < profile.rows
  cols_pos : 0 < profile.cols
  dvd_rows : d ∣ profile.rows
  dvd_cols : d ∣ profile.cols
  size_le : profile.rows * profile.cols ≤ 2 ^ 31
  gaussian : P.sampler = .gaussian
  p_le : P.p ≤ 65536
  queryBits_pos : 0 < profile.queryBits
  queryBits_le : profile.queryBits ≤ min 49 P.qBits
  responseBits_pos : 0 < profile.responseBits
  responseBits_le : profile.responseBits ≤ defaultResponseBits P
  khBits : profile.khBits = P.qBits ∨ 40 ≤ profile.khBits ∧ profile.khBits < P.qBits
  two_mask : profile.twoMask = true → profile.khBits = P.qBits
  mask_bits : profile.publishedMaskBits = 64 ∨
    P.qBits = 54 ∧ 0 < profile.publishedMaskBits ∧ profile.publishedMaskBits ≤ 54

theorem qBits_eq_of_q_eq (P : NativeParams d q) (h : q = 2 ^ 54) : P.qBits = 54 :=
  Nat.pow_right_injective le_rfl (P.q_eq.symm.trans h)

theorem floors_bounds (P : NativeParams d q) :
    28 ≤ (floors P).twoMaskDitheredQuery ∧ 28 ≤ (floors P).oneMaskDitheredQuery ∧
      (∀ f ∈ (floors P).twoMaskMaskBits, 0 < f) ∧ (∀ f ∈ (floors P).oneMaskMaskBits, 0 < f) ∧
      0 < (floors P).twoMaskResponseBits := by
  have hq := P.qBits_ge
  have hdefault : 0 < defaultResponseBits P := by
    unfold defaultResponseBits
    omega
  unfold floors
  dsimp only
  split
  · simp [hdefault]
  · split <;> simp [hdefault]

/-- A check that was passed. -/
theorem guard_eq_ok {α : Type} {p : Prop} [Decidable p] {msg : String} {r : Result α} {a : α}
    (h : (if p then invalidParams msg else r) = .ok a) : ¬p ∧ r = .ok a := by
  by_cases hp : p
  · rw [if_pos hp] at h
    cases h
  · rw [if_neg hp] at h
    exact ⟨hp, h⟩

theorem new_valid {rows cols : ℕ} {profile : NativeProfile P}
    (h : NativeProfile.new P rows cols = .ok profile) : profile.Valid := by
  obtain ⟨hshape, hok⟩ := guard_eq_ok h
  push Not at hshape
  obtain ⟨hrows, hcols, hdrows, hdcols, hsize, hsampler, hp⟩ := hshape
  have hq := P.qBits_ge
  cases Except.ok.inj hok
  exact
    { rows_pos := Nat.pos_of_ne_zero hrows
      cols_pos := Nat.pos_of_ne_zero hcols
      dvd_rows := Nat.dvd_of_mod_eq_zero hdrows
      dvd_cols := Nat.dvd_of_mod_eq_zero hdcols
      size_le := by
        refine hsize.trans ?_
        split <;> norm_num
      gaussian := hsampler
      p_le := hp
      queryBits_pos := by dsimp only; omega
      queryBits_le := le_rfl
      responseBits_pos := by
        dsimp only [defaultResponseBits]
        omega
      responseBits_le := le_rfl
      khBits := Or.inl rfl
      two_mask := fun _ => rfl
      mask_bits := Or.inl rfl }

/-- **The invariant of the profiles**, over every sequence of calls. -/
theorem Reachable.valid {profile : NativeProfile P} (h : Reachable profile) : profile.Valid := by
  obtain ⟨hdither, hdither', hmask, hmask', hresponse⟩ := floors_bounds P
  have hq := P.qBits_ge
  induction h with
  | new hnew => exact new_valid hnew
  | @withKhBits profile next bits _ hstep ih =>
      obtain ⟨htwo, hstep⟩ := guard_eq_ok hstep
      obtain ⟨hrange, hok⟩ := guard_eq_ok hstep
      cases Except.ok.inj hok
      exact { ih with
        khBits := by dsimp only; omega
        two_mask := fun hmode => by
          by_contra hne
          exact htwo ⟨hmode, hne⟩ }
  | @withTwoMaskOutput profile next _ hstep ih =>
      obtain ⟨hfull, hstep⟩ := guard_eq_ok hstep
      obtain ⟨-, hok⟩ := guard_eq_ok hstep
      cases Except.ok.inj hok
      exact { ih with two_mask := fun _ => not_not.mp hfull }
  | @withPublishedMaskBits profile next bits _ hstep ih =>
      obtain ⟨hwidth, hok⟩ := guard_eq_ok hstep
      cases Except.ok.inj hok
      refine { ih with mask_bits := ?_ }
      by_cases hexact : bits = 64
      · exact Or.inl hexact
      · obtain ⟨hmodulus, hallowed⟩ := not_or.mp (not_and.mp hwidth hexact)
        refine Or.inr ⟨qBits_eq_of_q_eq P (not_not.mp hmodulus), ?_⟩
        rcases not_not.mp hallowed with rfl | rfl | ⟨f, hf, hle, hle'⟩
        · exact absurd rfl hexact
        · exact ⟨Nat.succ_pos 53, le_rfl⟩
        · have hpos : 0 < f := by
            split at hf
            · exact hmask f hf
            · exact hmask' f hf
          exact ⟨hpos.trans_le hle, hle'.trans (by decide)⟩
  | @withDitheredQueryBits profile next bits _ hstep ih =>
      obtain ⟨hrange, hok⟩ := guard_eq_ok hstep
      cases Except.ok.inj hok
      obtain ⟨hmodulus, hfloor⟩ := not_or.mp hrange
      obtain ⟨hfloor, hle⟩ := not_not.mp hfloor
      have hbits := qBits_eq_of_q_eq P (not_not.mp hmodulus)
      have hlow : 28 ≤ bits := by
        refine le_trans ?_ hfloor
        split
        · exact hdither
        · exact hdither'
      exact { ih with
        queryBits_pos := by dsimp only; omega
        queryBits_le := by dsimp only; omega }
  | @withResponseBits profile next bits _ hstep ih =>
      obtain ⟨hrange, hok⟩ := guard_eq_ok hstep
      cases Except.ok.inj hok
      obtain ⟨hfloor, -⟩ := not_or.mp hrange
      obtain ⟨hfloor, hle⟩ := not_not.mp hfloor
      have hpos : 0 < bits := by
        refine lt_of_lt_of_le ?_ hfloor
        split
        · exact hresponse
        · unfold defaultResponseBits
          omega
      exact { ih with responseBits_pos := hpos, responseBits_le := hle }

end NativeProfile

end NativeClient
