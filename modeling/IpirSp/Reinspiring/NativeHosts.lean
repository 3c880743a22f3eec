import IpirSp.Reinspiring.NativePack
import IpirSp.Reinspiring.NativeStorage

/-!
# Blocks that pack alike

A host decides how the compiled matrix of a block is stored, and nothing else, and a block that was
read from a file has lost the transforms that its leftover operand does not use.  `SameBlock`
relates blocks that differ in this only.  Blocks that two hosts build from the same masks are
related (`sameBlock_of_build`), and related blocks prepare the same keys and pack to the same rows,
with the same refusals (`SameBlock.packsAlike`).
-/

namespace Reinspiring

open SpiralRs Inspiring Loops MachineWord

variable {d q : ℕ} {P : NativeParams d q}

/-- Leftover operands with the same products. -/
structure PreparedLiftOperand.Agree (op op' : PreparedLiftOperand d q) : Prop where
  sum_prepared : ∀ (lift : LiftContext d q) (b : List (Poly d)),
    lift.sumPrepared op' b = lift.sumPrepared op b
  sum_cached : ∀ (lift : LiftContext d q) (right : PreparedLiftRight d q),
    lift.sumCached op' right = lift.sumCached op right

theorem PreparedLiftOperand.Agree.refl (op : PreparedLiftOperand d q) : op.Agree op :=
  ⟨fun _ _ => rfl, fun _ _ => rfl⟩

/-- Blocks that differ in the storage of their matrix and of their leftover operand only. -/
structure SameBlock (B B' : NativePreprocessed P) : Prop where
  id_eq : B'.id = B.id
  a_eq : B'.a = B.a
  other_eq : B'.aOther = B.aOther
  leftover : Option.Rel PreparedLiftOperand.Agree B.leftover B'.leftover
  lift_eq : B'.lift = B.lift
  rows_eq : B'.h.rows = B.h.rows
  cols_eq : B'.h.cols = B.h.cols
  q_eq : B'.h.q = B.h.q
  value_eq : ∀ r < B.h.rows, ∀ c < B.h.cols,
    ((B'.h.words.value r c : ℤ) : ZMod B.h.q) = (B.h.words.value r c : ℤ)

/-! ## Building -/

/-- The stored entries of the same blocks agree. -/
theorem fromBlocks_congr {packed packed' : Bool} {blocks : List PackingMatrix} {M M' : NativeMatrix}
    (h : NativeMatrix.fromBlocks packed blocks = .ok M)
    (h' : NativeMatrix.fromBlocks packed' blocks = .ok M') :
    M'.rows = M.rows ∧ M'.cols = M.cols ∧ M'.q = M.q ∧ ∀ r < M.rows, ∀ c < M.cols,
      ((M'.words.value r c : ℤ) : ZMod M.q) = (M.words.value r c : ℤ) := by
  cases blocks with
  | nil => cases h
  | cons first rest =>
      obtain ⟨hrows, hq, hcols, hvalue⟩ := NativeMatrix.fromBlocks_spec h
      obtain ⟨hrows', hq', hcols', hvalue'⟩ := NativeMatrix.fromBlocks_spec h'
      rw [← hrows] at hrows'
      rw [← hcols] at hcols'
      rw [← hq] at hq'
      refine ⟨hrows', hcols', hq', fun r hr c hc => ?_⟩
      have hcast := hvalue' r (hrows' ▸ hr) c (hcols' ▸ hc)
      rw [hq'] at hcast
      rw [hcast, hvalue r hr c hc]

/-- **The blocks of two hosts agree.** -/
theorem sameBlock_of_build {lib : NumberTheory} {packed packed' : Bool} {S : NativeSetup P}
    {masks : List (Poly d)} {twoMask : Bool} {B B' : NativePreprocessed P}
    (h : NativePreprocessed.build lib packed S masks twoMask = .ok B)
    (h' : NativePreprocessed.build lib packed' S masks twoMask = .ok B') : SameBlock B B' := by
  unfold NativePreprocessed.build compileTrace at h h'
  obtain ⟨trace, htrace, h⟩ := bind_eq_ok h
  rw [htrace, ok_bind] at h'
  obtain ⟨M, hcompile, h⟩ := bind_eq_ok h
  obtain ⟨M', hcompile', h'⟩ := bind_eq_ok h'
  obtain ⟨blocks, hblocks, hM⟩ := bind_eq_ok hcompile
  rw [compileMatrix, hblocks, ok_bind] at hcompile'
  obtain ⟨hrows, hcols, hq, hvalue⟩ := fromBlocks_congr hM hcompile'
  unfold NativeTrace.toBlock at h h'
  cases hlast : trace.last with
  | none =>
      rw [hlast] at h h'
      cases h
      cases h'
      exact ⟨rfl, rfl, rfl, .none, rfl, hrows, hcols, hq, hvalue⟩
  | some last =>
      rw [hlast] at h h'
      obtain ⟨leftover, hleftover, h⟩ := bind_eq_ok h
      obtain ⟨leftover', hleftover', h'⟩ := bind_eq_ok h'
      obtain rfl : leftover = leftover' := Except.ok.inj (hleftover.symm.trans hleftover')
      cases h
      cases h'
      exact ⟨rfl, rfl, rfl, .some (.refl leftover), rfl, hrows, hcols, hq, hvalue⟩

/-! ## Packing -/

/-- Two blocks that pack alike, directly and with prepared keys. -/
structure PacksAlike (B B' : NativePreprocessed P) : Prop where
  mode : B'.aOther.isSome = B.aOther.isSome
  pack : ∀ b keys, B'.pack b keys = B.pack b keys
  pack_two_mask : ∀ b keys, B'.packTwoMask b keys = B.packTwoMask b keys
  prepare_keys : ∀ keys, B'.prepareKeys keys = B.prepareKeys keys
  finish : ∀ keys b, (B'.preparePack keys >>= fun pending => pending.finish b) =
    B.preparePack keys >>= fun pending => pending.finish b
  finish_two_mask : ∀ keys b, (B'.preparePack keys >>= fun pending => pending.finishTwoMask b) =
    B.preparePack keys >>= fun pending => pending.finishTwoMask b

namespace SameBlock

variable {B B' : NativePreprocessed P} (h : SameBlock B B')

include h

/-- Products of related blocks: the same refusal, or the same words. -/
theorem multiply_cases (hrows : B.h.rows = d) (y : List ℕ) :
    (∃ e, B.h.multiply y = .error e ∧ B'.h.multiply y = .error e) ∨
      ∃ out out', B.h.multiply y = .ok out ∧ B'.h.multiply y = .ok out' ∧
        (fun i : Fin d => out' i) = fun i : Fin d => out i := by
  rcases B.h.multiply_congr h.rows_eq h.cols_eq h.q_eq h.value_eq y with
    herr | ⟨out, out', hout, hout', heq⟩
  · exact Or.inl herr
  · exact Or.inr ⟨out, out', hout, hout', funext fun i => heq i (i.isLt.trans_eq hrows.symm)⟩

/-- Both have a leftover operand or neither has. -/
theorem leftover_cases : (B.leftover = none ∧ B'.leftover = none) ∨
    ∃ op op', B.leftover = some op ∧ B'.leftover = some op' ∧ op.Agree op' := by
  have hrel := h.leftover
  generalize B.leftover = left, B'.leftover = left' at hrel
  cases hrel with
  | none => exact Or.inl ⟨rfl, rfl⟩
  | some hagree => exact Or.inr ⟨_, _, rfl, rfl, hagree⟩

/-- Direct packing agrees, in one-mask mode. -/
theorem pack_eq (hrows : B.h.rows = d) (b : Poly d) (keys : NativeKeys d) :
    B'.pack b keys = B.pack b keys := by
  unfold NativePreprocessed.pack
  rw [h.other_eq, h.id_eq, h.a_eq, h.lift_eq]
  rcases h.multiply_cases hrows (joinLimbs keys.kg) with ⟨e, hout, hout'⟩ |
    ⟨out, out', hout, hout', hbody⟩
  · rw [hout, hout']
    rfl
  · have hword (i : Fin d) : out' i = out i := congrFun hbody i
    rw [hout, hout', ok_bind, ok_bind]
    rcases h.leftover_cases with ⟨hop, hop'⟩ | ⟨op, op', hop, hop', hagree⟩
    · rw [hop, hop']
    · rw [hop, hop']
      dsimp only
      rw [hagree.sum_prepared]
      simp only [hword]

/-- Direct packing agrees, in two-mask mode. -/
theorem packTwoMask_eq (hrows : B.h.rows = d) (b : Poly d) (keys : NativeKeys d) :
    B'.packTwoMask b keys = B.packTwoMask b keys := by
  unfold NativePreprocessed.packTwoMask
  rw [h.other_eq, h.id_eq, h.a_eq]
  rcases h.multiply_cases hrows (joinLimbs keys.kg) with ⟨e, hout, hout'⟩ |
    ⟨out, out', hout, hout', hbody⟩
  · rw [hout, hout']
  · have hword (i : Fin d) : out' i = out i := congrFun hbody i
    simp only [hout, hout', ok_bind, hword]

/-- Keys are prepared without the matrix. -/
theorem prepareKeys_eq (keys : NativeKeys d) : B'.prepareKeys keys = B.prepareKeys keys := by
  unfold NativePreprocessed.prepareKeys
  rw [h.id_eq, h.other_eq, h.lift_eq]

/-- The pending work has the same body, or is refused alike. -/
theorem preparePack_cases (hrows : B.h.rows = d) (keys : PreparedNativeKeys d q) :
    (∃ e, B.preparePack keys = .error e ∧ B'.preparePack keys = .error e) ∨
      ∃ body, B.preparePack keys = .ok ⟨B, body⟩ ∧ B'.preparePack keys = .ok ⟨B', body⟩ := by
  unfold NativePreprocessed.preparePack
  rw [h.id_eq, h.lift_eq]
  by_cases hid : keys.id ≠ B.id
  · exact Or.inl ⟨_, if_pos hid, if_pos hid⟩
  rw [if_neg hid, if_neg hid]
  rcases h.multiply_cases hrows keys.y with ⟨e, hout, hout'⟩ | ⟨out, out', hout, hout', hbody⟩
  · rw [hout, hout']
    exact Or.inl ⟨e, rfl, rfl⟩
  rw [hout, hout', ok_bind, ok_bind, hbody]
  rcases h.leftover_cases with ⟨hop, hop'⟩ | ⟨op, op', hop, hop', hagree⟩
  · rw [hop, hop']
    exact Or.inr ⟨_, rfl, rfl⟩
  · rw [hop, hop']
    rcases keys.kh with _ | kh
    · exact Or.inr ⟨_, rfl, rfl⟩
    · dsimp only
      rw [hagree.sum_cached]
      rcases B.lift.sumCached op kh with e | product
      · exact Or.inl ⟨e, rfl, rfl⟩
      · exact Or.inr ⟨_, rfl, rfl⟩

/-- **Packing agrees**, in one-mask mode. -/
theorem finish_eq (hrows : B.h.rows = d) (keys : PreparedNativeKeys d q) (b : Poly d) :
    (B'.preparePack keys >>= fun pending => pending.finish b) =
      B.preparePack keys >>= fun pending => pending.finish b := by
  rcases h.preparePack_cases hrows keys with ⟨e, he, he'⟩ | ⟨body, hbody, hbody'⟩
  · rw [he, he', error_bind]
  · rw [hbody, hbody', ok_bind, ok_bind, PendingNativePack.finish, PendingNativePack.finish]
    dsimp only
    rw [h.other_eq, h.a_eq]

/-- Packing agrees in two-mask mode. -/
theorem finishTwoMask_eq (hrows : B.h.rows = d) (keys : PreparedNativeKeys d q) (b : Poly d) :
    (B'.preparePack keys >>= fun pending => pending.finishTwoMask b) =
      B.preparePack keys >>= fun pending => pending.finishTwoMask b := by
  rcases h.preparePack_cases hrows keys with ⟨e, he, he'⟩ | ⟨body, hbody, hbody'⟩
  · rw [he, he', error_bind]
  · rw [hbody, hbody', ok_bind, ok_bind, PendingNativePack.finishTwoMask,
      PendingNativePack.finishTwoMask]
    dsimp only
    rw [h.other_eq, h.a_eq]

/-- **Related blocks pack alike.** -/
theorem packsAlike (hrows : B.h.rows = d) : PacksAlike B B' where
  mode := by rw [h.other_eq]
  pack := h.pack_eq hrows
  pack_two_mask := h.packTwoMask_eq hrows
  prepare_keys := h.prepareKeys_eq
  finish := h.finish_eq hrows
  finish_two_mask := h.finishTwoMask_eq hrows

end SameBlock

end Reinspiring
