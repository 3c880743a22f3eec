import IpirSp.SimplePir.Online

/-!
# Decoding with a residual

The diagnostic decoder interleaves what the plain decoder does in two passes: it decodes phase by
phase and keeps the largest distance of a phase from the grid of the plaintexts.

The two agree on every input, also on answers that are wrong or malformed: they return the same
coefficients or end in the same way (`map_fst_decodeWithDiagnostic`).  The residual is at most half
a step whatever is decoded (`residual_le`), so that it says nothing about the coefficients.
-/

namespace SimplePir

open Negacyclic SpiralRs Inspiring Loops MachineWord

/-! ## Two loops -/

section Folds

variable {ε α β γ : Type} (f : α → Except ε β) (g : α → ℕ)

/-- One turn of a loop that pushes a value and keeps a maximum. -/
def pushMax (acc : List β × ℕ) (a : α) : Except ε (List β × ℕ) := do
  let b ← f a
  .ok (acc.1 ++ [b], max acc.2 (g a))

/-- A loop of pushes is a traversal, and the maximum is a fold of its own. -/
theorem foldlM_pushMax (l : List α) (acc : List β × ℕ) :
    l.foldlM (pushMax f g) acc =
      l.mapM f >>= fun bs => .ok (acc.1 ++ bs, (l.map g).foldl max acc.2) := by
  induction l generalizing acc with
  | nil =>
      rw [List.mapM_nil]
      show Except.ok acc = Except.ok (acc.1 ++ [], acc.2)
      rw [List.append_nil]
  | cons a l ih =>
      rw [List.foldlM_cons, List.mapM_cons, pushMax]
      cases hcall : f a with
      | error e => rfl
      | ok b =>
          rw [ok_bind, ok_bind, ok_bind, ih]
          cases l.mapM f with
          | error e => rfl
          | ok bs =>
              show Except.ok _ = Except.ok _
              rw [List.append_assoc]
              rfl

/-- **Blocks of pushes** push what a traversal of traversals returns. -/
theorem map_fst_foldlM_blocks (phases : γ → Except ε (List α)) (items : List γ)
    (acc : List β × ℕ) :
    (items.foldlM (fun acc item => phases item >>= fun l => l.foldlM (pushMax f g) acc) acc).map
        Prod.fst =
      (items.mapM fun item => phases item >>= fun l => l.mapM f).map
        fun rows => acc.1 ++ rows.flatten := by
  induction items generalizing acc with
  | nil =>
      rw [List.mapM_nil]
      show Except.ok acc.1 = Except.ok (acc.1 ++ [])
      rw [List.append_nil]
  | cons item items ih =>
      rw [List.foldlM_cons, List.mapM_cons]
      cases phases item with
      | error e => rfl
      | ok l =>
          rw [ok_bind, ok_bind, foldlM_pushMax]
          cases l.mapM f with
          | error e => rfl
          | ok bs =>
              rw [ok_bind, ok_bind, ok_bind, ih]
              cases items.mapM (fun item => phases item >>= fun l => l.mapM f) with
              | error e => rfl
              | ok rows =>
                  show Except.ok (acc.1 ++ bs ++ rows.flatten) =
                    Except.ok (acc.1 ++ (bs :: rows).flatten)
                  rw [List.flatten_cons, List.append_assoc]

theorem map_nil_append_flatten (call : Except ε (List (List β))) :
    (call.map fun rows => [] ++ rows.flatten) = call >>= fun rows => .ok rows.flatten := by
  cases call with
  | error e => rfl
  | ok rows => rfl

/-- The maximum stays below a bound of the distances. -/
theorem foldlM_pushMax_le {bound : ℕ} (hg : ∀ a, g a ≤ bound) {l : List α} {acc out : List β × ℕ}
    (hacc : acc.2 ≤ bound) (hrun : l.foldlM (pushMax f g) acc = .ok out) : out.2 ≤ bound := by
  induction l generalizing acc with
  | nil =>
      obtain rfl := Except.ok.inj hrun
      exact hacc
  | cons a l ih =>
      rw [List.foldlM_cons] at hrun
      obtain ⟨next, hnext, hrest⟩ := bind_eq_ok hrun
      obtain ⟨b, -, hpush⟩ := bind_eq_ok hnext
      obtain rfl := Except.ok.inj hpush
      exact ih (max_le hacc (hg a)) hrest

theorem foldlM_blocks_le {bound : ℕ} (hg : ∀ a, g a ≤ bound) (phases : γ → Except ε (List α))
    {items : List γ} {acc out : List β × ℕ} (hacc : acc.2 ≤ bound)
    (hrun : items.foldlM (fun acc item => phases item >>= fun l => l.foldlM (pushMax f g) acc) acc =
      .ok out) : out.2 ≤ bound := by
  induction items generalizing acc with
  | nil =>
      obtain rfl := Except.ok.inj hrun
      exact hacc
  | cons item items ih =>
      rw [List.foldlM_cons] at hrun
      obtain ⟨next, hnext, hrest⟩ := bind_eq_ok hrun
      obtain ⟨l, -, hblock⟩ := bind_eq_ok hnext
      exact ih (foldlM_pushMax_le f g hg hacc hblock) hrest

end Folds

/-! ## The decoder -/

section Decoder

variable {P : RlweParams} {R : Type}

/-- The phases of one block. -/
def blockPhases (ypir : SchemeParams) (secretNtt : Ntt P.d P.q) (item : List UInt8 × List ℕ) :
    Outcome (List ℕ) := do
  let row1 ← fromBits (recoverResponseBody item.1 P.d ypir.qPrime1 P.q)
  phaseOf item.2 row1 secretNtt

/-- `decode_response_simplepir_with_diagnostic`, for a distance of the phase alone. -/
def decodeResponseSimplepirWithDiagnostic (gen : ClientRng P R) (o : Overflow)
    (ypir : SchemeParams) (clientSeed : Seed) (publishedC1 : List (List ℕ))
    (response : List UInt8) (distance : ℕ → ℕ) : Outcome (List ℕ × ℕ) :=
  let blocks := ypir.dbCols / P.d
  let bodyLen := responseBodyLen P.d ypir.qPrime1
  if response.length ≠ blocks * bodyLen then
    .error (.panic "serialized response length mismatch")
  else if publishedC1.length ≠ blocks then
    .error (.panic "expected one published c1 row per output block")
  else do
    let secret := gen.sampleGaussian (gen.fromSeed clientSeed)
    let secretNtt ← secretToNtt P secret.1
    ((chunks bodyLen response).zip publishedC1).foldlM (fun acc item => do
      let phase ← blockPhases ypir secretNtt item
      phase.foldlM (pushMax (decodeCoeff o P) distance) acc) ([], 0)

/-- The distance of a phase from the next multiple of `Δ`. -/
def roundingResidual (P : RlweParams) (phase : ℕ) : ℕ :=
  let offset := phase % P.delta
  min offset (P.delta - offset)

/-- `decode_response_simplepir_with_rounding_residual`. -/
def decodeResponseSimplepirWithRoundingResidual (gen : ClientRng P R) (o : Overflow)
    (ypir : SchemeParams) (clientSeed : Seed) (publishedC1 : List (List ℕ))
    (response : List UInt8) : Outcome (List ℕ × ℕ) :=
  decodeResponseSimplepirWithDiagnostic gen o ypir clientSeed publishedC1 response
    (roundingResidual P)

theorem roundingResidual_le (P : RlweParams) (phase : ℕ) :
    roundingResidual P phase ≤ P.delta / 2 := by
  unfold roundingResidual
  dsimp only
  omega

/-- **A diagnostic decoder decodes**: its coefficients are those of the plain decoder. -/
theorem map_fst_decodeWithDiagnostic (gen : ClientRng P R) (o : Overflow) (ypir : SchemeParams)
    (clientSeed : Seed) (publishedC1 : List (List ℕ)) (response : List UInt8)
    (distance : ℕ → ℕ) :
    (decodeResponseSimplepirWithDiagnostic gen o ypir clientSeed publishedC1 response
        distance).map Prod.fst =
      decodeResponseSimplepirRaw gen o ypir clientSeed publishedC1 response := by
  rw [decodeResponseSimplepirWithDiagnostic, decodeResponseSimplepirRaw]
  dsimp only
  split
  · rfl
  · split
    · rfl
    · obtain ⟨secret, rng⟩ := gen.sampleGaussian (gen.fromSeed clientSeed)
      cases secretToNtt P secret with
      | error e => rfl
      | ok secretNtt =>
          have hrow (item : List UInt8 × List ℕ) :
              blockPhases ypir secretNtt item >>= (fun l => l.mapM (decodeCoeff o P)) =
                fromBits (recoverResponseBody item.1 P.d ypir.qPrime1 P.q) >>= fun row1 =>
                  decodeRows o item.2 row1 secretNtt := by
            rw [blockPhases, bind_assoc]
            rfl
          rw [ok_bind, ok_bind, map_fst_foldlM_blocks, funext hrow]
          exact map_nil_append_flatten _

/-- **The residual says nothing about the answer**: it is at most half a step for all of them. -/
theorem residual_le {gen : ClientRng P R} {o : Overflow} {ypir : SchemeParams} {clientSeed : Seed}
    {publishedC1 : List (List ℕ)} {response : List UInt8} {out : List ℕ × ℕ}
    (hrun : decodeResponseSimplepirWithRoundingResidual gen o ypir clientSeed publishedC1 response =
      .ok out) : out.2 ≤ P.delta / 2 := by
  rw [decodeResponseSimplepirWithRoundingResidual, decodeResponseSimplepirWithDiagnostic] at hrun
  dsimp only at hrun
  split at hrun
  · cases hrun
  · split at hrun
    · cases hrun
    · obtain ⟨secretNtt, -, hblocks⟩ := bind_eq_ok hrun
      exact foldlM_blocks_le (decodeCoeff o P) (roundingResidual P) (roundingResidual_le P)
        (blockPhases ypir secretNtt) (Nat.zero_le _) hblocks

/-- **Decoding with a residual**, where the plain decoder returns. -/
theorem exists_residual {gen : ClientRng P R} {o : Overflow} {ypir : SchemeParams}
    {clientSeed : Seed} {publishedC1 : List (List ℕ)} {response : List UInt8} {decoded : List ℕ}
    (hrun : decodeResponseSimplepirRaw gen o ypir clientSeed publishedC1 response = .ok decoded) :
    ∃ residual ≤ P.delta / 2, decodeResponseSimplepirWithRoundingResidual gen o ypir clientSeed
      publishedC1 response = .ok (decoded, residual) := by
  have hfst := map_fst_decodeWithDiagnostic gen o ypir clientSeed publishedC1 response
    (roundingResidual P)
  rw [hrun] at hfst
  cases hout : decodeResponseSimplepirWithRoundingResidual gen o ypir clientSeed publishedC1
      response with
  | error e =>
      rw [decodeResponseSimplepirWithRoundingResidual] at hout
      rw [hout] at hfst
      cases hfst
  | ok out =>
      have hle := residual_le hout
      rw [decodeResponseSimplepirWithRoundingResidual] at hout
      rw [hout] at hfst
      obtain rfl := Except.ok.inj hfst
      exact ⟨out.2, hle, rfl⟩

end Decoder

end SimplePir
