import IpirSp.NativeClient.Request

/-!
# The profile builder

The options of a profile are set by calls in any order, and each call checks its argument against
the options set so far.  `WidthRelations` is what the transport relies on.  Every call keeps it
(`widthRelations_call`), also a call that fails, so it holds after every sequence of calls.  A call
that succeeds writes fields of its own and reads none of them back (`call_ok`), so the order of the
calls does not show in the result.
-/

namespace NativeClient

open Reinspiring

variable {d q : ℕ} {P : NativeParams d q}

/-- A `with_*` call. -/
inductive Setter
  | khBits (bits : ℕ)
  | twoMaskOutput
  | publishedMaskBits (bits : ℕ)
  | ditheredQueryBits (bits : ℕ)
  | responseBits (bits : ℕ)

namespace Setter

/-- The setters, without their arguments. -/
inductive Name
  | khBits
  | twoMaskOutput
  | publishedMaskBits
  | ditheredQueryBits
  | responseBits
deriving DecidableEq

/-- The setter of a call. -/
def name : Setter → Name
  | khBits _ => .khBits
  | twoMaskOutput => .twoMaskOutput
  | publishedMaskBits _ => .publishedMaskBits
  | ditheredQueryBits _ => .ditheredQueryBits
  | responseBits _ => .responseBits

/-- What a call returns. -/
def apply : Setter → NativeProfile P → Result (NativeProfile P)
  | khBits bits, profile => profile.withKhBits bits
  | twoMaskOutput, profile => profile.withTwoMaskOutput
  | publishedMaskBits bits, profile => profile.withPublishedMaskBits bits
  | ditheredQueryBits bits, profile => profile.withDitheredQueryBits bits
  | responseBits bits, profile => profile.withResponseBits bits

/-- What a call that succeeds writes. -/
def write (profile : NativeProfile P) : Setter → NativeProfile P
  | khBits bits => { profile with khBits := bits }
  | twoMaskOutput => { profile with twoMask := true }
  | publishedMaskBits bits => { profile with publishedMaskBits := bits }
  | ditheredQueryBits bits => { profile with queryBits := bits, ditheredQuery := true }
  | responseBits bits => { profile with responseBits := bits }

end Setter

namespace NativeProfile

/-- A call on a copy of the profile, which is kept if the call fails. -/
def call (profile : NativeProfile P) (setter : Setter) : NativeProfile P :=
  match setter.apply profile with
  | .ok next => next
  | .error _ => profile

/-- The profile after a sequence of calls, some of which may fail. -/
def build (profile : NativeProfile P) (calls : List Setter) : NativeProfile P :=
  calls.foldl call profile

/-- A sequence of calls that stops at the first one that fails. -/
def chain (profile : NativeProfile P) (calls : List Setter) : Result (NativeProfile P) :=
  calls.foldlM (fun profile setter => setter.apply profile) profile

/-! ## The relations between the widths -/

/-- The smallest dithered query of the output mode. -/
def queryFloor (profile : NativeProfile P) : ℕ :=
  if profile.twoMask then (floors P).twoMaskDitheredQuery else (floors P).oneMaskDitheredQuery

/-- The smallest rounded mask of the output mode, if it has one. -/
def maskFloor (profile : NativeProfile P) : Option ℕ :=
  if profile.twoMask then (floors P).twoMaskMaskBits else (floors P).oneMaskMaskBits

/-- The smallest response of the output mode. -/
def responseFloor (profile : NativeProfile P) : ℕ :=
  if profile.twoMask then (floors P).twoMaskResponseBits else defaultResponseBits P

/-- The widths at which coefficients are rounded for transport. -/
def transportWidths (profile : NativeProfile P) : List ℕ :=
  [profile.khBits, profile.queryBits, profile.responseBits] ++
    if profile.publishedMaskBits ≠ 64 then [profile.publishedMaskBits] else []

/-- The widths fit each other and the modulus. -/
structure WidthRelations (profile : NativeProfile P) : Prop where
  finalKey : profile.khBits = P.qBits ∨
    profile.twoMask = false ∧ 40 ≤ profile.khBits ∧ profile.khBits < P.qBits
  mask : profile.publishedMaskBits = 64 ∨
    q = 2 ^ 54 ∧ maskWidthAllowed profile.publishedMaskBits profile.maskFloor
  query : if profile.ditheredQuery then
      q = 2 ^ 54 ∧ profile.queryFloor ≤ profile.queryBits ∧ profile.queryBits ≤ 49
    else profile.queryBits = min 49 P.qBits
  response : profile.responseFloor ≤ profile.responseBits ∧
    profile.responseBits ≤ defaultResponseBits P ∧
    (profile.responseBits ≠ defaultResponseBits P → q = 2 ^ 54)

/-- The shift of every rounding is between 0 and 63. -/
def ShiftsDefined (profile : NativeProfile P) : Prop :=
  ∀ bits ∈ profile.transportWidths,
    0 ≤ (trailingZeros q : ℤ) - bits ∧ (trailingZeros q : ℤ) - bits < 64

/-- The floors of the two-mask mode are not above those of the one-mask mode. -/
theorem floors_le (P : NativeParams d q) :
    (floors P).twoMaskDitheredQuery ≤ (floors P).oneMaskDitheredQuery ∧
      (floors P).twoMaskResponseBits ≤ defaultResponseBits P := by
  have hq := P.qBits_ge
  unfold floors
  dsimp only
  split
  · exact ⟨le_rfl, le_rfl⟩
  · split
    · rename_i hgadget
      have hp : P.pBits = 8 := by
        rcases hgadget with h | h
        · exact congrArg Prod.fst h
        · exact congrArg Prod.fst h
      refine ⟨by decide, ?_⟩
      rw [defaultResponseBits, hp]
      show 10 ≤ min 14 P.qBits
      exact le_min (by decide) (by omega)
    · exact ⟨le_rfl, le_rfl⟩

/-- The relations hold of a new profile. -/
theorem widthRelations_new {rows cols : ℕ} {profile : NativeProfile P}
    (h : NativeProfile.new P rows cols = .ok profile) : profile.WidthRelations := by
  obtain ⟨-, hok⟩ := guard_eq_ok h
  cases Except.ok.inj hok
  exact ⟨Or.inl rfl, Or.inl rfl, rfl, le_rfl, le_rfl, fun hne => absurd rfl hne⟩

/-- **A call that succeeds keeps the relations**, whatever was set before. -/
theorem widthRelations_apply {profile next : NativeProfile P} {setter : Setter}
    (h : profile.WidthRelations) (hstep : setter.apply profile = .ok next) :
    next.WidthRelations := by
  obtain ⟨hquery, hresponse⟩ := floors_le P
  cases setter with
  | khBits bits =>
      obtain ⟨htwo, hstep⟩ := guard_eq_ok hstep
      obtain ⟨hrange, hok⟩ := guard_eq_ok hstep
      cases Except.ok.inj hok
      refine { h with finalKey := ?_ }
      by_cases hfull : bits = P.qBits
      · exact Or.inl hfull
      · have hmode : profile.twoMask = false := by
          by_contra hmode
          exact htwo ⟨by simpa using hmode, hfull⟩
        exact Or.inr ⟨hmode, not_not.mp (not_and.mp hrange hfull)⟩
  | twoMaskOutput =>
      obtain ⟨hfull, hstep⟩ := guard_eq_ok hstep
      obtain ⟨hallowed, hok⟩ := guard_eq_ok hstep
      cases Except.ok.inj hok
      -- the mask was checked against the new floor, and the other floors can only go down
      refine ⟨Or.inl (not_not.mp hfull), ?_, ?_, ?_⟩
      · exact h.mask.imp_right fun hmask => ⟨hmask.1, not_not.mp hallowed⟩
      · have hold := h.query
        dsimp only at hold ⊢
        split
        · rename_i hdither
          rw [if_pos hdither] at hold
          obtain ⟨hmodulus, hfloor, hle⟩ := hold
          refine ⟨hmodulus, le_trans ?_ hfloor, hle⟩
          rw [queryFloor, queryFloor, if_pos rfl]
          split
          · exact le_rfl
          · exact hquery
        · rename_i hdither
          rwa [if_neg hdither] at hold
      · obtain ⟨hfloor, hle, hmodulus⟩ := h.response
        refine ⟨le_trans ?_ hfloor, hle, hmodulus⟩
        rw [responseFloor, responseFloor, if_pos rfl]
        split
        · exact le_rfl
        · exact hresponse
  | publishedMaskBits bits =>
      obtain ⟨hwidth, hok⟩ := guard_eq_ok hstep
      cases Except.ok.inj hok
      refine { h with mask := ?_ }
      by_cases hexact : bits = 64
      · exact Or.inl hexact
      · obtain ⟨hmodulus, hallowed⟩ := not_or.mp (not_and.mp hwidth hexact)
        exact Or.inr ⟨not_not.mp hmodulus, not_not.mp hallowed⟩
  | ditheredQueryBits bits =>
      obtain ⟨hrange, hok⟩ := guard_eq_ok hstep
      cases Except.ok.inj hok
      obtain ⟨hmodulus, hfloor⟩ := not_or.mp hrange
      exact { h with query := ⟨not_not.mp hmodulus, not_not.mp hfloor⟩ }
  | responseBits bits =>
      obtain ⟨hrange, hok⟩ := guard_eq_ok hstep
      cases Except.ok.inj hok
      obtain ⟨hfloor, hmodulus⟩ := not_or.mp hrange
      obtain ⟨hfloor, hle⟩ := not_not.mp hfloor
      exact { h with
        response := ⟨hfloor, hle, fun hne => not_not.mp (not_and.mp hmodulus hne)⟩ }

theorem widthRelations_call {profile : NativeProfile P} (setter : Setter)
    (h : profile.WidthRelations) : (profile.call setter).WidthRelations := by
  rw [call]
  split
  · rename_i next hstep
    exact widthRelations_apply h hstep
  · exact h

/-- **The relations hold after every sequence of calls.** -/
theorem widthRelations_build {profile : NativeProfile P} (calls : List Setter)
    (h : profile.WidthRelations) : (profile.build calls).WidthRelations := by
  induction calls generalizing profile with
  | nil => exact h
  | cons setter calls ih => exact ih (widthRelations_call setter h)

/-- Related widths leave room for every rounding. -/
theorem WidthRelations.shiftsDefined {profile : NativeProfile P} (h : profile.WidthRelations) :
    profile.ShiftsDefined := by
  have hle := P.qBits_le
  have hfits {bits : ℕ} (hbits : bits ≤ P.qBits) :
      0 ≤ (trailingZeros q : ℤ) - bits ∧ (trailingZeros q : ℤ) - bits < 64 := by
    rw [trailingZeros_eq P]
    omega
  have hquery : profile.queryBits ≤ P.qBits := by
    have hrange := h.query
    split at hrange
    · have hbits := qBits_eq_of_q_eq P hrange.1
      omega
    · omega
  have hresponse : profile.responseBits ≤ P.qBits :=
    h.response.2.1.trans (min_le_right _ _)
  have hkey : profile.khBits ≤ P.qBits := by rcases h.finalKey with hfull | hnarrow <;> omega
  intro bits hmem
  rcases List.mem_append.mp hmem with hmem | hmem
  · simp only [List.mem_cons, List.not_mem_nil, or_false] at hmem
    rcases hmem with rfl | rfl | rfl
    · exact hfits hkey
    · exact hfits hquery
    · exact hfits hresponse
  · split at hmem
    · rename_i hwidth
      obtain rfl := List.mem_singleton.mp hmem
      obtain ⟨hmodulus, hallowed⟩ := h.mask.resolve_left hwidth
      have hbits := qBits_eq_of_q_eq P hmodulus
      refine hfits ?_
      rcases hallowed with hexact | hlossless | ⟨floor, -, -, hceiling⟩
      · exact absurd hexact hwidth
      · omega
      · omega
    · exact absurd hmem List.not_mem_nil

/-! ## The order of the calls -/

/-- **A call that succeeds** writes its own fields. -/
theorem call_ok {profile next : NativeProfile P} {setter : Setter}
    (h : setter.apply profile = .ok next) : next = setter.write profile := by
  cases setter with
  | khBits bits =>
      obtain ⟨-, h⟩ := guard_eq_ok h
      exact (Except.ok.inj (guard_eq_ok h).2).symm
  | twoMaskOutput =>
      obtain ⟨-, h⟩ := guard_eq_ok h
      exact (Except.ok.inj (guard_eq_ok h).2).symm
  | publishedMaskBits bits => exact (Except.ok.inj (guard_eq_ok h).2).symm
  | ditheredQueryBits bits => exact (Except.ok.inj (guard_eq_ok h).2).symm
  | responseBits bits => exact (Except.ok.inj (guard_eq_ok h).2).symm

/-- Different setters write different fields. -/
theorem write_comm {setter setter' : Setter} (h : setter.name ≠ setter'.name)
    (profile : NativeProfile P) :
    setter'.write (setter.write profile) = setter.write (setter'.write profile) := by
  cases setter <;> cases setter' <;> first | rfl | exact absurd rfl h

theorem chain_ok {profile last : NativeProfile P} {calls : List Setter}
    (h : profile.chain calls = .ok last) :
    last = calls.foldl (fun profile setter => setter.write profile) profile := by
  induction calls generalizing profile with
  | nil => exact (Except.ok.inj h).symm
  | cons setter calls ih =>
      rw [chain, List.foldlM_cons] at h
      obtain ⟨next, hnext, hrest⟩ := Loops.bind_eq_ok h
      rw [ih hrest, call_ok hnext]
      rfl

/-- **The order does not matter**: calls of different setters that succeed in two orders return one
profile. -/
theorem chain_perm {profile last last' : NativeProfile P} {calls calls' : List Setter}
    (hperm : calls.Perm calls') (honce : (calls.map Setter.name).Nodup)
    (h : profile.chain calls = .ok last) (h' : profile.chain calls' = .ok last') :
    last = last' := by
  rw [chain_ok h, chain_ok h']
  refine hperm.foldl_eq' (fun setter hsetter setter' hsetter' profile => ?_) profile
  by_cases hname : setter.name = setter'.name
  · rw [List.inj_on_of_nodup_map honce hsetter hsetter' hname]
  · exact write_comm hname profile

/-! ## All sequences of calls -/

/-- **The builder keeps the relations of the transport** after every sequence of calls, failing
calls included, so no rounding shifts by a negative amount or by 64 or more; and calls of different
setters return the same profile in every order in which they succeed. -/
theorem build_spec {rows cols : ℕ} {start : NativeProfile P}
    (hnew : NativeProfile.new P rows cols = .ok start) :
    (∀ calls : List Setter,
      (start.build calls).WidthRelations ∧ (start.build calls).ShiftsDefined) ∧
    ∀ (calls calls' : List Setter) (last last' : NativeProfile P), calls.Perm calls' →
      (calls.map Setter.name).Nodup → start.chain calls = .ok last →
      start.chain calls' = .ok last' → last = last' := by
  constructor
  · intro calls
    have hrelations := widthRelations_build calls (widthRelations_new hnew)
    exact ⟨hrelations, hrelations.shiftsDefined⟩
  · intro calls calls' last last' hperm honce h h'
    exact chain_perm hperm honce h h'

theorem build_spec_dither :
    ((ditherProfileAt 49 64 false).build
      [.ditheredQueryBits 28, .twoMaskOutput, .publishedMaskBits 27,
        .khBits 40]).WidthRelations := by
  have hnew : NativeProfile.new ditherParams 4 8 = .ok (ditherProfileAt 49 64 false) := by decide
  exact ((build_spec hnew).1 _).1

end NativeProfile

/-- Parameters modulo `2^17`, with two digits of nine bits. -/
def narrowParams : NativeParams 4 (2 ^ 17) where
  qBits := 17
  pBits := 1
  bits := 9
  ell := 2
  dropped := 0
  sampler := .gaussian
  q_eq := rfl
  two_le_d := Inspiring.smallParams.two_le_d
  d_le := four_le_maxDegree
  d_eq := isPowerOfTwo_four
  qBits_ge := by decide
  qBits_le := by decide
  pBits_pos := by decide
  pBits_lt := Inspiring.one_lt_seventeen
  bits_pos := by decide
  bits_le := by decide
  ell_pos := Nat.two_pos
  ell_le := two_le_eight
  dropped_eq := rfl
  dropped_le := by decide

/-- The final key of a narrow modulus is transmitted at full width, which is below 40 bits. -/
theorem build_narrow :
    NativeParams.new nativeNumberTheory 4 17 1 9 2 .gaussian = .ok narrowParams ∧
      ∃ start, NativeProfile.new narrowParams 4 4 = .ok start ∧ (start.build []).twoMask = false ∧
        ¬(40 ≤ (start.build []).khBits ∧ (start.build []).khBits ≤ narrowParams.qBits) := by
  refine ⟨rfl, ⟨4, 4, 17, 7, 17, false, 64, false⟩, by decide, rfl, ?_⟩
  rintro ⟨hwide, -⟩
  exact absurd hwide (by decide)

end NativeClient
