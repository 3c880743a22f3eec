import IpirSp.Reinspiring.NativeTrace

/-!
# Native packing, direct and prepared

`pack` and `packTwoMask` apply a block to uploaded keys and a body.  The prepared path splits that
work: `prepareKeys` transforms the key bodies once for all blocks of a setup, `preparePack` does
what does not need the body, and `finish` adds it.

Direct packing and `prepareKeys` compare the key mode with the mode of their block; `preparePack`
compares only the setup.  `preparedAgrees_iff` says what follows: keys that were prepared against
one block act on another block of the setup as direct packing does exactly when both blocks have the
same mode.  Within one mode the cached sum is exact, since its primes are chosen for every digit.
-/

namespace Reinspiring

open Negacyclic SpiralRs Inspiring Loops MachineWord

variable {d q : ℕ} {P : NativeParams d q}

section Code

/-- Addition modulo a power of two, word by word. -/
def addMasked (q : ℕ) (u v : Poly d) : Poly d := fun i => u i + v i &&& (q - 1)

/-- `NativePreprocessed::pack`. -/
def NativePreprocessed.pack (B : NativePreprocessed P) (b : Poly d) (keys : NativeKeys d) :
    Result (NativeCiphertext d) :=
  if B.aOther.isSome then invalidParams "two-mask preprocessing requires pack_two_mask"
  else do
    validatePoly P b
    if keys.id ≠ B.id ∨ keys.kg.length ≠ P.ell ∨ keys.kh.length ≠ P.ell then
      invalidParams "packing setup mismatch"
    else
      let out ← B.h.multiply (joinLimbs keys.kg)
      match B.leftover with
      | none => .error (.panic "called `Option::unwrap()` on a `None` value")
      | some leftover => do
          let leftover ← B.lift.sumPrepared leftover keys.kh
          NativeCiphertext.fromRows P B.a fun i => out i + leftover i + b i &&& (q - 1)

/-- `NativePreprocessed::pack_two_mask`. -/
def NativePreprocessed.packTwoMask (B : NativePreprocessed P) (b : Poly d) (keys : NativeKeys d) :
    Result (NativeTwoMaskCiphertext d) := do
  validatePoly P b
  if keys.id ≠ B.id ∨ keys.kg.length ≠ P.ell ∨ keys.kh ≠ [] then
    invalidParams "packing key mode mismatch"
  else
    match B.aOther with
    | none => invalidParams "one-mask preprocessing"
    | some other => do
        let out ← B.h.multiply (joinLimbs keys.kg)
        NativeTwoMaskCiphertext.fromRows P B.a other (addMasked q (fun i => out i) b)

/-- `PreparedNativeKeys`. -/
structure PreparedNativeKeys (d q : ℕ) where
  id : Digest
  y : List ℕ
  kh : Option (PreparedLiftRight d q)

/-- `PendingNativePack`. -/
structure PendingNativePack (P : NativeParams d q) where
  pre : NativePreprocessed P
  body : Poly d

/-- `NativePreprocessed::prepare_keys`. -/
def NativePreprocessed.prepareKeys (B : NativePreprocessed P) (keys : NativeKeys d) :
    Result (PreparedNativeKeys d q) :=
  if keys.id ≠ B.id ∨ keys.kg.length ≠ P.ell ∨ (B.aOther.isSome ∧ keys.kh ≠ []) ∨
      (B.aOther.isNone ∧ keys.kh.length ≠ P.ell) then
    invalidParams "packing setup mismatch"
  else if B.aOther.isSome then .ok ⟨keys.id, joinLimbs keys.kg, none⟩
  else do
    let kh ← B.lift.prepareBoundedRight keys.kh P.digitBound
    .ok ⟨keys.id, joinLimbs keys.kg, some kh⟩

/-- `NativePreprocessed::prepare_pack`. -/
def NativePreprocessed.preparePack (B : NativePreprocessed P) (keys : PreparedNativeKeys d q) :
    Result (PendingNativePack P) :=
  if keys.id ≠ B.id then invalidParams "prepared packing setup mismatch"
  else do
    let body ← B.h.multiply keys.y
    match B.leftover, keys.kh with
    | some leftover, some kh => do
        let product ← B.lift.sumCached leftover kh
        .ok ⟨B, addMasked q (fun i => body i) product⟩
    | _, _ => .ok ⟨B, fun i => body i⟩

/-- `PendingNativePack::finish`. -/
def PendingNativePack.finish (pending : PendingNativePack P) (b : Poly d) :
    Result (NativeCiphertext d) :=
  if pending.pre.aOther.isSome then
    invalidParams "two-mask preprocessing requires finish_two_mask"
  else do
    validatePoly P b
    NativeCiphertext.fromRows P pending.pre.a (addMasked q pending.body b)

/-- `PendingNativePack::finish_two_mask`. -/
def PendingNativePack.finishTwoMask (pending : PendingNativePack P) (b : Poly d) :
    Result (NativeTwoMaskCiphertext d) := do
  validatePoly P b
  match pending.pre.aOther with
  | none => invalidParams "one-mask preprocessing"
  | some other =>
      NativeTwoMaskCiphertext.fromRows P pending.pre.a other (addMasked q pending.body b)

/-- The pending work on `B'` of keys prepared against `B`. -/
def pendingPack (B B' : NativePreprocessed P) (keys : NativeKeys d) :
    Result (PendingNativePack P) := do
  let prepared ← B.prepareKeys keys
  B'.preparePack prepared

/-- Packing on `B'` with keys prepared against `B`. -/
def packPrepared (B B' : NativePreprocessed P) (b : Poly d) (keys : NativeKeys d) :
    Result (NativeCiphertext d) := do
  let pending ← pendingPack B B' keys
  pending.finish b

/-- Two-mask packing on `B'` with keys prepared against `B`. -/
def packPreparedTwoMask (B B' : NativePreprocessed P) (b : Poly d) (keys : NativeKeys d) :
    Result (NativeTwoMaskCiphertext d) := do
  let pending ← pendingPack B B' keys
  pending.finishTwoMask b

end Code

/-! ## Agreement -/

section Agreement

/-- A call that returned an `Err`. -/
def IsErr {α : Type} (r : Result α) : Prop := ∃ e, r = .error (.err e)

/-- Both calls return the same value, or both return an `Err`. -/
def Alike {α : Type} (r r' : Result α) : Prop := (∃ v, r = .ok v ∧ r' = .ok v) ∨ IsErr r ∧ IsErr r'

theorem isErr_invalidParams {α : Type} (msg : String) : IsErr (invalidParams msg : Result α) :=
  ⟨_, rfl⟩

theorem IsErr.bind {α β : Type} {r : Result α} (h : IsErr r) (f : α → Result β) :
    IsErr (r >>= f) := by
  obtain ⟨e, rfl⟩ := h
  exact ⟨e, rfl⟩

theorem IsErr.map {α β : Type} {r : Result α} (h : IsErr r) (f : α → β) : IsErr (f <$> r) := by
  obtain ⟨e, rfl⟩ := h
  exact ⟨e, rfl⟩

theorem not_alike_of_ok {α : Type} {r r' : Result α} {v : α} (h : r = .ok v) (h' : IsErr r') :
    ¬Alike r r' := by
  obtain ⟨e, rfl⟩ := h'
  rintro (⟨w, -, hw⟩ | ⟨⟨e', he⟩, -⟩)
  · cases hw
  · rw [h] at he
    cases he

/-- Prepared packing on `B'`, with keys prepared against `B`, does what direct packing does. -/
structure PreparedAgrees (B B' : NativePreprocessed P) : Prop where
  pack : ∀ keys : NativeKeys d, keys.Canonical q → ∀ b,
    Alike (packPrepared B B' b keys) (B'.pack b keys)
  pack_two_mask : ∀ keys : NativeKeys d, keys.Canonical q → ∀ b,
    Alike (packPreparedTwoMask B B' b keys) (B'.packTwoMask b keys)
  capacity : ∀ keys : NativeKeys d, keys.Canonical q → ∀ prepared,
    B.prepareKeys keys = .ok prepared → ∀ leftover kh, B'.leftover = some leftover →
      prepared.kh = some kh → ∃ out, B'.lift.sumCached leftover kh = .ok out

variable {lib : NumberTheory} {S : NativeSetup P}

theorem validatePoly_cases (P : NativeParams d q) (b : Poly d) :
    validatePoly P b = .ok () ∨ IsErr (validatePoly P b) := by
  unfold validatePoly
  split
  · exact Or.inr ⟨_, rfl⟩
  · exact Or.inl rfl

/-- Well-shaped canonical generator bodies have a product. -/
theorem NativePreprocessed.BuiltFor.multiply_ok {B : NativePreprocessed P}
    (hB : B.BuiltFor lib S) {kg : List (Poly d)} (hlen : kg.length = P.ell)
    (hkg : ∀ a ∈ kg, ∀ i, a i < q) : ∃ out, B.h.multiply (joinLimbs kg) = .ok out := by
  obtain ⟨out, hout, -⟩ := B.h.multiply_spec (y := joinLimbs kg)
    (by rw [length_joinLimbs, hlen, hB.cols_eq])
    (fun v hv => by
      obtain ⟨a, ha, i, rfl⟩ := mem_joinLimbs hv
      rw [hB.q_eq]
      exact hkg a ha i)
  exact ⟨out, hout⟩

/-- Canonical polynomials with the same residues are equal. -/
theorem eq_of_ring_eq [NeZero d] {a b : Poly d} (ha : ∀ i, a i < q) (hb : ∀ i, b i < q)
    (h : Poly.ring q a = Poly.ring q b) : a = b := by
  have hcoeffs := ofCoeffs_injective h
  funext i
  have hi := congrFun hcoeffs i
  rw [ZMod.natCast_eq_natCast_iff] at hi
  exact Nat.ModEq.eq_of_lt_of_lt hi (ha i) (hb i)

/-- **The cached sum is the direct one**: it has the primes it needs for the digits of every block
of the setup. -/
theorem NativePreprocessed.BuiltFor.sumCached_eq {B B' : NativePreprocessed P}
    (hB : B.BuiltFor lib S) (hB' : B'.BuiltFor lib S) {leftover : PreparedLiftOperand d q}
    (hleftover : B'.leftover = some leftover) {kh : List (Poly d)} (hlen : kh.length = P.ell)
    (hkh : ∀ a ∈ kh, ∀ i, a i < q) :
    ∃ right out, B.lift.prepareBoundedRight kh P.digitBound = .ok right ∧
      B'.lift.sumCached leftover right = .ok out ∧ B'.lift.sumPrepared leftover kh = .ok out := by
  have : NeZero d := ⟨P.d_pos.ne'⟩
  have hlift : B.lift = B'.lift := Except.ok.inj (hB.lift_eq.symm.trans hB'.lift_eq)
  have hone : B'.aOther = none := by
    by_contra hne
    rw [hB'.two_mask hne] at hleftover
    cases hleftover
  obtain ⟨op, last, hop, hlimbs, hfits, hlast, hbound⟩ := hB'.one_mask hone
  rw [hleftover] at hop
  cases hop
  have hne : kh ≠ [] := by
    rintro rfl
    exact P.ell_pos.ne hlen
  have hlen' : last.length = kh.length := by rw [hlast, hlen]
  obtain ⟨direct, hdirect, hdot⟩ := B'.lift.sumPrepared_spec hfits hlen' hkh
  obtain ⟨right, hright, hholds⟩ :=
    B'.lift.prepareRightPrimes_spec hne hkh (boundedCount d q P.digitBound)
  obtain ⟨out, hout, hdot'⟩ := B'.lift.sumCached_spec hfits hholds hlen' (two_le_boundedCount _ _ _)
    (by
      rw [hlimbs]
      intro limb hlimb
      obtain ⟨digit, hdigit, rfl⟩ := List.mem_map.mp hlimb
      exact B'.lift.limbOf_count_le_bounded (maxAbs_le (hbound digit hdigit)))
    fun y hy => coeffsLe_intPoly (hkh y hy)
  obtain rfl : out = direct :=
    eq_of_ring_eq hdot'.lt hdot.lt (hdot'.ring.trans hdot.ring.symm)
  refine ⟨right, out, ?_, hout, hdirect⟩
  rw [hlift, LiftContext.prepareBoundedRight, if_neg (not_lt.mpr P.digitBound_le)]
  exact hright

/-- The keys that a block of the given mode accepts. -/
def NativeKeys.FitsMode (S : NativeSetup P) (twoMask : Bool) (keys : NativeKeys d) : Prop :=
  keys.id = S.id ∧ keys.kg.length = P.ell ∧ if twoMask then keys.kh = [] else keys.kh.length = P.ell

theorem NativePreprocessed.BuiltFor.prepareKeys_isErr {B : NativePreprocessed P}
    (hB : B.BuiltFor lib S) {keys : NativeKeys d} (hkeys : ¬keys.FitsMode S B.aOther.isSome) :
    IsErr (B.prepareKeys keys) := by
  refine ⟨_, if_pos ?_⟩
  by_contra hgood
  push Not at hgood
  obtain ⟨hid, hkg, htwo, hone⟩ := hgood
  refine hkeys ⟨hid.trans hB.id_eq, hkg, ?_⟩
  cases hmode : B.aOther with
  | none => exact hone (by rw [hmode]; rfl)
  | some other => exact htwo (by rw [hmode]; rfl)

/-- The pending work in one-mask mode is the matrix product and the leftover product. -/
theorem pendingPack_one_mask {B B' : NativePreprocessed P} (hB : B.BuiltFor lib S)
    (hB' : B'.BuiltFor lib S) (hmode : B.aOther = none) (hmode' : B'.aOther = none)
    {keys : NativeKeys d} (hcanonical : keys.Canonical q) (hkeys : keys.FitsMode S false) :
    ∃ leftover out product, B'.leftover = some leftover ∧
      B'.h.multiply (joinLimbs keys.kg) = .ok out ∧
      B'.lift.sumPrepared leftover keys.kh = .ok product ∧
      pendingPack B B' keys = .ok ⟨B', addMasked q (fun i => out i) product⟩ := by
  obtain ⟨hid, hkg, hkh⟩ := hkeys
  have hkh' : keys.kh.length = P.ell := hkh
  obtain ⟨leftover, -, hleftover, -⟩ := hB'.one_mask hmode'
  obtain ⟨out, hout⟩ := hB'.multiply_ok hkg hcanonical.kg_lt
  obtain ⟨right, product, hright, hcached, hdirect⟩ :=
    hB.sumCached_eq hB' hleftover hkh' hcanonical.kh_lt
  have hprepare : B.prepareKeys keys = .ok ⟨keys.id, joinLimbs keys.kg, some right⟩ := by
    rw [NativePreprocessed.prepareKeys, if_neg (by simp [hid, hB.id_eq, hkg, hmode, hkh']),
      if_neg (by simp [hmode]), hright]
    rfl
  refine ⟨leftover, out, product, hleftover, hout, hdirect, ?_⟩
  rw [pendingPack, hprepare, ok_bind, NativePreprocessed.preparePack,
    if_neg (by simp [hid, hB'.id_eq]), hout, ok_bind, hleftover]
  dsimp only
  rw [hcached]
  rfl

/-- The pending work on a two-mask block is the matrix product, whatever mode the keys were
prepared in. -/
theorem pendingPack_two_mask {B B' : NativePreprocessed P} (hB : B.BuiltFor lib S)
    (hB' : B'.BuiltFor lib S) (hmode' : B'.aOther ≠ none) {keys : NativeKeys d}
    (hcanonical : keys.Canonical q) (hkeys : keys.FitsMode S B.aOther.isSome) :
    ∃ out, B'.h.multiply (joinLimbs keys.kg) = .ok out ∧
      pendingPack B B' keys = .ok ⟨B', fun i => out i⟩ := by
  obtain ⟨hid, hkg, hkh⟩ := hkeys
  obtain ⟨out, hout⟩ := hB'.multiply_ok hkg hcanonical.kg_lt
  obtain ⟨prepared, hprepared, hid', hy⟩ : ∃ prepared, B.prepareKeys keys = .ok prepared ∧
      prepared.id = S.id ∧ prepared.y = joinLimbs keys.kg := by
    rw [NativePreprocessed.prepareKeys]
    cases hmode : B.aOther with
    | some other =>
        have hkh' : keys.kh = [] := by simpa [hmode] using hkh
        rw [if_neg (by simp [hid, hB.id_eq, hkg, hkh']), if_pos (by simp)]
        exact ⟨_, rfl, hid, rfl⟩
    | none =>
        have hkh' : keys.kh.length = P.ell := by simpa [hmode] using hkh
        have hne : keys.kh ≠ [] := by
          intro hnil
          rw [hnil, List.length_nil] at hkh'
          exact P.ell_pos.ne hkh'
        obtain ⟨right, hright, -⟩ := B.lift.prepareRightPrimes_spec hne hcanonical.kh_lt
          (boundedCount d q P.digitBound)
        have hbounded : B.lift.prepareBoundedRight keys.kh P.digitBound = .ok right := by
          rw [LiftContext.prepareBoundedRight, if_neg (not_lt.mpr P.digitBound_le)]
          exact hright
        rw [if_neg (by simp [hid, hB.id_eq, hkg, hkh']), if_neg (by simp), hbounded]
        exact ⟨_, rfl, hid, rfl⟩
  refine ⟨out, hout, ?_⟩
  rw [pendingPack, hprepared, ok_bind, NativePreprocessed.preparePack,
    if_neg (by simp [hid', hB'.id_eq]), hy, hout, ok_bind, hB'.two_mask hmode']

/-! ## Direct packing -/

theorem NativePreprocessed.BuiltFor.pack_isErr {B : NativePreprocessed P} (hB : B.BuiltFor lib S)
    {keys : NativeKeys d} (b : Poly d) (hkeys : B.aOther = none → ¬keys.FitsMode S false) :
    IsErr (B.pack b keys) := by
  rw [NativePreprocessed.pack]
  cases hmode : B.aOther with
  | some other => exact ⟨_, if_pos rfl⟩
  | none =>
      rw [if_neg (by simp)]
      rcases validatePoly_cases P b with hvalid | hinvalid
      · rw [hvalid, ok_bind]
        refine ⟨_, if_pos ?_⟩
        by_contra hgood
        push Not at hgood
        exact hkeys hmode ⟨hgood.1.trans hB.id_eq, hgood.2.1, hgood.2.2⟩
      · exact hinvalid.bind _

theorem NativePreprocessed.BuiltFor.packTwoMask_isErr {B : NativePreprocessed P}
    (hB : B.BuiltFor lib S)
    {keys : NativeKeys d} (b : Poly d) (hkeys : B.aOther ≠ none → ¬keys.FitsMode S true) :
    IsErr (B.packTwoMask b keys) := by
  rw [NativePreprocessed.packTwoMask]
  rcases validatePoly_cases P b with hvalid | hinvalid
  · rw [hvalid, ok_bind]
    by_cases hbad : keys.id ≠ B.id ∨ keys.kg.length ≠ P.ell ∨ keys.kh ≠ []
    · exact ⟨_, if_pos hbad⟩
    · rw [if_neg hbad]
      push Not at hbad
      cases hmode : B.aOther with
      | none => exact ⟨_, rfl⟩
      | some other =>
          exact absurd ⟨hbad.1.trans hB.id_eq, hbad.2.1, hbad.2.2⟩ (hkeys (by simp [hmode]))
  · exact hinvalid.bind _

/-! ## One mode -/

theorem addMasked_addMasked (P : NativeParams d q) (u v b : Poly d) :
    addMasked q (addMasked q u v) b = fun i => u i + v i + b i &&& (q - 1) := by
  funext i
  unfold addMasked
  rw [and_sub_one_eq_mod P.isPowerOfTwo, and_sub_one_eq_mod P.isPowerOfTwo,
    and_sub_one_eq_mod P.isPowerOfTwo, Nat.mod_add_mod]

/-- Keys of the wrong mode are refused before any block is looked at. -/
theorem pendingPack_isErr {B : NativePreprocessed P} (hB : B.BuiltFor lib S)
    (B' : NativePreprocessed P) {keys : NativeKeys d}
    (hkeys : ¬keys.FitsMode S B.aOther.isSome) : IsErr (pendingPack B B' keys) :=
  (hB.prepareKeys_isErr hkeys).bind _

/-- Two blocks of one mode: prepared packing is direct packing. -/
theorem alike_pack {B B' : NativePreprocessed P} (hB : B.BuiltFor lib S)
    (hB' : B'.BuiltFor lib S) (hmode : B.aOther.isSome = B'.aOther.isSome) {keys : NativeKeys d}
    (hcanonical : keys.Canonical q) (b : Poly d) :
    Alike (packPrepared B B' b keys) (B'.pack b keys) := by
  by_cases hkeys : keys.FitsMode S B.aOther.isSome
  · cases hmode' : B'.aOther with
    | some other =>
        -- Both `finish` and `pack` refuse a two-mask block.
        have htwo : B'.aOther ≠ none := by simp [hmode']
        obtain ⟨out, -, hpending⟩ := pendingPack_two_mask hB hB' htwo hcanonical hkeys
        refine Or.inr ⟨?_, hB'.pack_isErr b fun hone => absurd hone htwo⟩
        rw [packPrepared, hpending, ok_bind, PendingNativePack.finish]
        exact ⟨_, if_pos (by simp [hmode'])⟩
    | none =>
        have hone : B.aOther = none := by simpa [hmode'] using hmode
        rw [hone] at hkeys
        obtain ⟨leftover, out, product, hleftover, hout, hproduct, hpending⟩ :=
          pendingPack_one_mask hB hB' hone hmode' hcanonical hkeys
        obtain ⟨hid, hkg, hkh⟩ := hkeys
        have hkh' : keys.kh.length = P.ell := hkh
        rw [packPrepared, hpending, ok_bind, PendingNativePack.finish, NativePreprocessed.pack]
        dsimp only
        rw [hmode', if_neg (by simp), if_neg (by simp)]
        rcases validatePoly_cases P b with hvalid | hinvalid
        · rw [hvalid, ok_bind, ok_bind, if_neg (by simp [hid, hB'.id_eq, hkg, hkh']), hout,
            ok_bind, hleftover]
          dsimp only
          rw [hproduct, ok_bind, addMasked_addMasked P]
          have hrows := NativeCiphertext.fromRows_ok P hB'.a_lt
            fun i => mask_lt P.isPowerOfTwo (out i + product i + b i)
          exact Or.inl ⟨_, hrows, hrows⟩
        · exact Or.inr ⟨hinvalid.bind _, hinvalid.bind _⟩
  · refine Or.inr ⟨(pendingPack_isErr hB B' hkeys).bind _, hB'.pack_isErr b fun hone => ?_⟩
    rwa [hmode, hone] at hkeys

/-- Two blocks of one mode: two-mask packing. -/
theorem alike_packTwoMask {B B' : NativePreprocessed P} (hB : B.BuiltFor lib S)
    (hB' : B'.BuiltFor lib S) (hmode : B.aOther.isSome = B'.aOther.isSome) {keys : NativeKeys d}
    (hcanonical : keys.Canonical q) (b : Poly d) :
    Alike (packPreparedTwoMask B B' b keys) (B'.packTwoMask b keys) := by
  by_cases hkeys : keys.FitsMode S B.aOther.isSome
  · cases hmode' : B'.aOther with
    | none =>
        -- Both `finishTwoMask` and `packTwoMask` refuse a one-mask block.
        have hone : B.aOther = none := by simpa [hmode'] using hmode
        rw [hone] at hkeys
        obtain ⟨leftover, out, product, -, -, -, hpending⟩ :=
          pendingPack_one_mask hB hB' hone hmode' hcanonical hkeys
        refine Or.inr ⟨?_, hB'.packTwoMask_isErr b fun htwo => absurd hmode' htwo⟩
        rw [packPreparedTwoMask, hpending, ok_bind, PendingNativePack.finishTwoMask]
        rcases validatePoly_cases P b with hvalid | hinvalid
        · rw [hvalid, ok_bind]
          dsimp only
          rw [hmode']
          exact isErr_invalidParams _
        · exact hinvalid.bind _
    | some other =>
        have htwo : B'.aOther ≠ none := by simp [hmode']
        obtain ⟨out, hout, hpending⟩ := pendingPack_two_mask hB hB' htwo hcanonical hkeys
        obtain ⟨hid, hkg, hkh⟩ := hkeys
        have hkh' : keys.kh = [] := by simpa [hmode, hmode'] using hkh
        rw [packPreparedTwoMask, hpending, ok_bind, PendingNativePack.finishTwoMask,
          NativePreprocessed.packTwoMask]
        dsimp only
        rw [hmode']
        rcases validatePoly_cases P b with hvalid | hinvalid
        · rw [hvalid, ok_bind, ok_bind, if_neg (by simp [hid, hB'.id_eq, hkg, hkh'])]
          dsimp only
          rw [hout, ok_bind]
          have hrows := NativeTwoMaskCiphertext.fromRows_ok P hB'.a_lt (hB'.other_lt other hmode')
            fun i => mask_lt P.isPowerOfTwo (out i + b i)
          exact Or.inl ⟨_, hrows, hrows⟩
        · exact Or.inr ⟨hinvalid.bind _, hinvalid.bind _⟩
  · refine Or.inr ⟨(pendingPack_isErr hB B' hkeys).bind _, hB'.packTwoMask_isErr b fun htwo => ?_⟩
    have hsome : B'.aOther.isSome = true := Option.isSome_iff_ne_none.mpr htwo
    rwa [hmode, hsome] at hkeys

/-- The keys that a block prepared have the primes that every block of the setup needs. -/
theorem sumCached_ok_of_prepareKeys {B B' : NativePreprocessed P} (hB : B.BuiltFor lib S)
    (hB' : B'.BuiltFor lib S) {keys : NativeKeys d} (hcanonical : keys.Canonical q)
    {prepared : PreparedNativeKeys d q} (hprepared : B.prepareKeys keys = .ok prepared)
    {leftover : PreparedLiftOperand d q} {kh : PreparedLiftRight d q}
    (hleftover : B'.leftover = some leftover) (hkh : prepared.kh = some kh) :
    ∃ out, B'.lift.sumCached leftover kh = .ok out := by
  unfold NativePreprocessed.prepareKeys at hprepared
  split at hprepared
  · cases hprepared
  · next hgood =>
    push Not at hgood
    split at hprepared
    · cases hprepared
      cases hkh
    · next hone =>
      have hlen : keys.kh.length = P.ell := hgood.2.2.2 (by simpa using hone)
      obtain ⟨right, out, hright, hout, -⟩ :=
        hB.sumCached_eq hB' hleftover hlen hcanonical.kh_lt
      rw [hright, ok_bind] at hprepared
      cases hprepared
      cases hkh
      exact ⟨out, hout⟩

/-! ## Two modes -/

/-- Keys of zero bodies in the shape that a mode asks for. -/
def zeroKeys (S : NativeSetup P) (twoMask : Bool) : NativeKeys d where
  id := S.id
  kg := List.replicate P.ell fun _ => 0
  kh := if twoMask then [] else List.replicate P.ell fun _ => 0

theorem zeroKeys_canonical (S : NativeSetup P) (twoMask : Bool) :
    (zeroKeys S twoMask).Canonical q := by
  have hzero : ∀ a ∈ List.replicate P.ell (fun _ : Fin d => 0), ∀ i, a i < q := by
    intro a ha i
    rw [(List.mem_replicate.mp ha).2]
    exact P.q_pos
  refine ⟨hzero, ?_⟩
  cases twoMask with
  | true => exact fun _ hnil => by cases hnil
  | false => exact hzero

theorem zeroKeys_fitsMode (S : NativeSetup P) (twoMask : Bool) :
    (zeroKeys S twoMask).FitsMode S twoMask := by
  refine ⟨rfl, List.length_replicate, ?_⟩
  cases twoMask with
  | true => rfl
  | false => exact List.length_replicate

/-- Keys of one mode are never keys of the other. -/
theorem zeroKeys_not_fitsMode (S : NativeSetup P) (twoMask : Bool) :
    ¬(zeroKeys S twoMask).FitsMode S (!twoMask) := by
  rintro ⟨-, -, hkh⟩
  have hell := P.ell_pos
  cases twoMask with
  | true =>
      have hlen : ([] : List (Poly d)).length = P.ell := hkh
      rw [List.length_nil] at hlen
      omega
  | false =>
      have hnil : List.replicate P.ell (fun _ : Fin d => 0) = [] := hkh
      rw [List.replicate_eq_nil_iff] at hnil
      omega

/-- Keys prepared against a two-mask block are finished by a one-mask block, without the last step
of the collapse. -/
theorem packPrepared_two_mask_keys {B B' : NativePreprocessed P} (hB : B.BuiltFor lib S)
    (hB' : B'.BuiltFor lib S) (hmode : B.aOther ≠ none) (hmode' : B'.aOther = none) :
    ∃ v, packPrepared B B' (fun _ => 0) (zeroKeys S true) = .ok v := by
  obtain ⟨out, hout⟩ := hB'.multiply_ok (zeroKeys_fitsMode S true).2.1
    (zeroKeys_canonical S true).kg_lt
  have hsome : B.aOther.isSome = true := Option.isSome_iff_ne_none.mpr hmode
  have hprepare : B.prepareKeys (zeroKeys S true) =
      .ok ⟨S.id, joinLimbs (zeroKeys S true).kg, none⟩ := by
    rw [NativePreprocessed.prepareKeys, if_neg (by simp [zeroKeys, hB.id_eq, hmode]),
      if_pos hsome]
    rfl
  have hpending : pendingPack B B' (zeroKeys S true) = .ok ⟨B', fun i => out i⟩ := by
    obtain ⟨leftover, -, hleftover, -⟩ := hB'.one_mask hmode'
    rw [pendingPack, hprepare, ok_bind, NativePreprocessed.preparePack,
      if_neg (by simp [hB'.id_eq]), hout, ok_bind, hleftover]
  rw [packPrepared, hpending, ok_bind, PendingNativePack.finish, if_neg (by simp [hmode']),
    validatePoly_ok P fun _ => P.q_pos, ok_bind]
  exact ⟨_, NativeCiphertext.fromRows_ok P hB'.a_lt fun i => mask_lt P.isPowerOfTwo _⟩

/-- Keys prepared against a one-mask block are finished by a two-mask block. -/
theorem packPreparedTwoMask_one_mask_keys {B B' : NativePreprocessed P} (hB : B.BuiltFor lib S)
    (hB' : B'.BuiltFor lib S) (hmode : B.aOther = none) (hmode' : B'.aOther ≠ none) :
    ∃ v, packPreparedTwoMask B B' (fun _ => 0) (zeroKeys S false) = .ok v := by
  obtain ⟨other, hother⟩ := Option.ne_none_iff_exists'.mp hmode'
  have hkeys : (zeroKeys S false).FitsMode S B.aOther.isSome := by
    rw [hmode]
    exact zeroKeys_fitsMode S false
  obtain ⟨out, -, hpending⟩ :=
    pendingPack_two_mask hB hB' hmode' (zeroKeys_canonical S false) hkeys
  rw [packPreparedTwoMask, hpending, ok_bind, PendingNativePack.finishTwoMask,
    validatePoly_ok P fun _ => P.q_pos, ok_bind]
  dsimp only
  rw [hother]
  exact ⟨_, NativeTwoMaskCiphertext.fromRows_ok P hB'.a_lt (hB'.other_lt other hother)
    fun i => mask_lt P.isPowerOfTwo _⟩

/-- **Prepared packing agrees with direct packing exactly when the two blocks have one mode.** -/
theorem preparedAgrees_iff {supportsPacked supportsPacked' : Bool} {masks masks' : List (Poly d)}
    {twoMask twoMask' : Bool} {B B' : NativePreprocessed P}
    (h : NativePreprocessed.build lib supportsPacked S masks twoMask = .ok B)
    (h' : NativePreprocessed.build lib supportsPacked' S masks' twoMask' = .ok B') :
    PreparedAgrees B B' ↔ twoMask = twoMask' := by
  obtain ⟨hB, rfl⟩ := build_builtFor h
  obtain ⟨hB', rfl⟩ := build_builtFor h'
  constructor
  · intro hagrees
    by_contra hne
    cases hmode : B.aOther with
    | none =>
        have hmode' : B'.aOther ≠ none := by
          intro hnone
          rw [hmode, hnone] at hne
          exact hne rfl
        -- Direct packing refuses what the prepared path finishes.
        obtain ⟨v, hv⟩ := packPreparedTwoMask_one_mask_keys hB hB' hmode hmode'
        exact not_alike_of_ok hv
          (hB'.packTwoMask_isErr _ fun _ => zeroKeys_not_fitsMode S false)
          (hagrees.pack_two_mask _ (zeroKeys_canonical S false) _)
    | some other =>
        have hmode' : B'.aOther = none := by
          cases hother : B'.aOther with
          | none => rfl
          | some other' =>
              rw [hmode, hother] at hne
              exact absurd rfl hne
        obtain ⟨v, hv⟩ := packPrepared_two_mask_keys hB hB' (by simp [hmode]) hmode'
        exact not_alike_of_ok hv (hB'.pack_isErr _ fun _ => zeroKeys_not_fitsMode S true)
          (hagrees.pack _ (zeroKeys_canonical S true) _)
  · intro hmode
    exact
      { pack := fun _ hcanonical b => alike_pack hB hB' hmode hcanonical b
        pack_two_mask := fun _ hcanonical b => alike_packTwoMask hB hB' hmode hcanonical b
        capacity := fun _ hcanonical _ hprepared _ _ hleftover hkh =>
          sumCached_ok_of_prepareKeys hB hB' hcanonical hprepared hleftover hkh }

/-- A batch of degree four with equal rows of equal entries. -/
def constantRows (v : ℕ) : List (Poly 4) := List.replicate 4 fun _ => v

/-- Two blocks of one setup in degree four, each in a given mode. -/
theorem exists_blocks_small (twoMask twoMask' : Bool) :
    ∃ B B', NativePreprocessed.build nativeNumberTheory false smallSetup
        (constantRows 1) twoMask = .ok B ∧
      NativePreprocessed.build nativeNumberTheory false smallSetup
        (constantRows 2) twoMask' = .ok B' := by
  obtain ⟨lift, hlift⟩ := liftContext_new_native
  have hbuild (v : ℕ) (hv : v < 2 ^ 16) (mode : Bool) : ∃ B, NativePreprocessed.build
      nativeNumberTheory false smallSetup (constantRows v) mode = .ok B := by
    obtain ⟨B, hB, -⟩ := build_ok false (S := smallSetup) hlift invertsOdd_native (fun _ _ => v)
      (fun _ _ => hv) mode
    rw [List.ofFn_const] at hB
    exact ⟨B, hB⟩
  obtain ⟨B, hB⟩ := hbuild 1 (by decide) twoMask
  obtain ⟨B', hB'⟩ := hbuild 2 (by decide) twoMask'
  exact ⟨B, B', hB, hB'⟩

/-- Two one-mask blocks of one setup agree. -/
theorem preparedAgrees_iff_small : ∃ B B', NativePreprocessed.build nativeNumberTheory false
      smallSetup (constantRows 1) false = .ok B ∧
    NativePreprocessed.build nativeNumberTheory false smallSetup (constantRows 2) false = .ok B' ∧
    PreparedAgrees B B' := by
  obtain ⟨B, B', hB, hB'⟩ := exists_blocks_small false false
  exact ⟨B, B', hB, hB', (preparedAgrees_iff hB hB').mpr rfl⟩

/-- Keys without conjugation bodies, prepared against a two-mask block: a one-mask block of the same
setup packs with them, and refuses them when it packs directly. -/
theorem prepared_keys_cross_modes : ∃ (B B' : NativePreprocessed smallNativeParams)
    (v : NativeCiphertext 4) (e : ReinspiringError),
    NativePreprocessed.build nativeNumberTheory false smallSetup (constantRows 1) true = .ok B ∧
    NativePreprocessed.build nativeNumberTheory false smallSetup (constantRows 2) false = .ok B' ∧
    (zeroKeys smallSetup true).Canonical (2 ^ 16) ∧
    packPrepared B B' (fun _ => 0) (zeroKeys smallSetup true) = .ok v ∧
    B'.pack (fun _ => 0) (zeroKeys smallSetup true) = .error (.err e) := by
  obtain ⟨B, B', hB, hB'⟩ := exists_blocks_small true false
  obtain ⟨hbuilt, htwo⟩ := build_builtFor hB
  obtain ⟨hbuilt', hone⟩ := build_builtFor hB'
  have hone' : B'.aOther = none := by simpa using hone
  obtain ⟨v, hv⟩ := packPrepared_two_mask_keys hbuilt hbuilt'
    (Option.isSome_iff_ne_none.mp htwo) hone'
  obtain ⟨e, he⟩ := hbuilt'.pack_isErr (fun _ => 0) fun _ => zeroKeys_not_fitsMode smallSetup true
  exact ⟨B, B', v, e, hB, hB', zeroKeys_canonical smallSetup true, hv, he⟩

end Agreement

end Reinspiring
