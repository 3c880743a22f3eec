import IpirSp.SimplePir.Residual
import IpirSp.SimplePir.Reusable

/-!
# Retrievals through a batch

A slot of a batch is a fresh query of another client: one whose generator draws the same secret and
the same packing keys, and then skips the errors of the earlier slots (`ClientRng.skipping`).  What
holds of fresh queries therefore holds of the slots of a batch.

`slot_retrieval` carries the correctness of a retrieval over: every answer of every run of a batch
is a fresh query, and sent to a server that is deployed for the public query of its slot it is
decoded to the row of its call.
-/

namespace SimplePir

open NullifierPir SpiralRs Inspiring Loops MachineWord SimplePirKernel

/-! ## A generator that skips -/

section Skipping

variable {P : RlweParams} {R : Type}

theorem sample_fst_lt (gen : ClientRng P R) (state : R × ℕ) : (gen.sample state.1).1 < P.q :=
  gen.sample_lt state.1

theorem noise_fst_lt (gen : ClientRng P R) (state : R × ℕ) :
    ∀ k i, (gen.noise state.1).1 k i < P.q := gen.noise_lt state.1

/-- The generator that leaves out `skipped` samples after its second draw of key errors. -/
def ClientRng.skipping (gen : ClientRng P R) (skipped : ℕ) : ClientRng P (R × ℕ) where
  fromSeed seed := (gen.fromSeed seed, 0)
  sample state := ((gen.sample state.1).1, (gen.sample state.1).2, state.2)
  noise state :=
    ((gen.noise state.1).1,
      if state.2 = 1 then (fun r => (gen.sample r).2)^[skipped] (gen.noise state.1).2
      else (gen.noise state.1).2,
      state.2 + 1)
  sample_lt := sample_fst_lt gen
  noise_lt := noise_fst_lt gen

variable (gen : ClientRng P R) (skipped : ℕ) (seed : Seed)

theorem iterate_skipping (turns : ℕ) (state : R × ℕ) :
    (fun s => ((gen.skipping skipped).sample s).2)^[turns] state =
      ((fun r => (gen.sample r).2)^[turns] state.1, state.2) := by
  induction turns generalizing state with
  | zero => rfl
  | succ turns ih =>
      rw [Function.iterate_succ_apply, Function.iterate_succ_apply, ih]
      rfl

theorem draws_skipping (state : R × ℕ) (turn : ℕ) :
    (gen.skipping skipped).draws state turn = gen.draws state.1 turn := by
  rw [ClientRng.draws, ClientRng.draws, iterate_skipping]
  rfl

theorem sampleGaussian_skipping (state : R × ℕ) :
    (gen.skipping skipped).sampleGaussian state =
      ((gen.sampleGaussian state.1).1, (gen.sampleGaussian state.1).2, state.2) := by
  rw [ClientRng.sampleGaussian, ClientRng.sampleGaussian, iterate_skipping]
  exact congrArg (fun draws => (List.ofFn draws, _))
    (funext fun i => draws_skipping gen skipped state i)

theorem secret_skipping : (gen.skipping skipped).secret seed = gen.secret seed := by
  rw [ClientRng.secret, sampleGaussian_skipping]
  rfl

theorem kgNoise_skipping :
    (gen.skipping skipped).kgNoise seed = ((gen.kgNoise seed).1, (gen.kgNoise seed).2, 1) := by
  rw [ClientRng.kgNoise, sampleGaussian_skipping]
  rfl

theorem khNoise_skipping :
    (gen.skipping skipped).khNoise seed =
      ((gen.khNoise seed).1, (fun r => (gen.sample r).2)^[skipped] (gen.khNoise seed).2, 2) := by
  rw [ClientRng.khNoise, kgNoise_skipping]
  rfl

/-- The errors that are left. -/
theorem rowError_skipping (row : ℕ) :
    (gen.skipping skipped).rowError seed row = gen.draws (gen.khNoise seed).2 (skipped + row) := by
  rw [ClientRng.rowError, khNoise_skipping, draws_skipping, draws_iterate]

/-- The decoder asks for the secret only. -/
theorem decodeResponse_skipping (o : Overflow) (ypir : SchemeParams) (c1 : List (List ℕ))
    (response : List UInt8) :
    decodeResponseSimplepirRaw (gen.skipping skipped) o ypir seed c1 response =
      decodeResponseSimplepirRaw gen o ypir seed c1 response := by
  rw [decodeResponseSimplepirRaw, decodeResponseSimplepirRaw]
  dsimp only
  split
  · rfl
  · split
    · rfl
    · show (secretToNtt P ((gen.skipping skipped).secret seed) >>= _) =
        (secretToNtt P (gen.secret seed) >>= _)
      rw [secret_skipping]

end Skipping

/-! ## A slot is a fresh query -/

section Slots

variable {P : RlweParams} {ypir : SchemeParams} {R : Type}

/-- `decode_with_rounding_residual` of a batch. -/
def ReusableBatch.decodeWithRoundingResidual (gen : ClientRng P R) (o : Overflow)
    (batch : ReusableBatch P ypir R) (c1 : List (List ℕ)) (response : List UInt8) :
    Outcome (List ℕ × ℕ) :=
  decodeResponseSimplepirWithRoundingResidual gen o ypir batch.clientSeed c1 response

/-- The bodies determine the query. -/
theorem Selects.unique {offlineQuery : List (List ℕ)} {secret : List ℕ} {targetRow dbRows : ℕ}
    {errors : ℕ → ℕ} {query query' : List ℕ}
    (h : Selects P offlineQuery secret targetRow errors dbRows dbRows query)
    (h' : Selects P offlineQuery secret targetRow errors dbRows dbRows query') :
    query = query' := by
  refine List.ext_getElem (h.length.trans h'.length.symm) fun row hrow hrow' => ?_
  have hlt : row < dbRows := h.length ▸ hrow
  have hcast := (h.cast row hlt).trans (h'.cast row hlt).symm
  rw [ZMod.natCast_eq_natCast_iff', Nat.mod_eq_of_lt (h.lt row hlt),
    Nat.mod_eq_of_lt (h'.lt row hlt), List.getD_eq_getElem _ _ hrow,
    List.getD_eq_getElem _ _ hrow'] at hcast
  exact hcast

/-- The keys of a fresh query are drawn after the secret. -/
theorem keys_of_generate {gen : ClientRng P R} {o : Overflow}
    {setup : PublicQuerySetup P ypir.dbRows} {targetRow : ℕ} {clientSeed : Seed}
    {query : IPIRSimpleQuery} {keys : PackingKeys P} {seed : Seed}
    (hrun : generateFreshQuerySimplepir gen o ypir setup targetRow clientSeed =
      .ok (query, keys, seed))
    {secretNtt : Ntt P.d P.q} (hsecret : secretToNtt P (gen.secret clientSeed) = .ok secretNtt) :
    keys = PackingKeys.generateFull P secretNtt (gen.kgNoise clientSeed).1
      (gen.khNoise clientSeed).1 := by
  rw [generateFreshQuerySimplepir] at hrun
  split at hrun
  · cases hrun
  · change (secretToNtt P (gen.secret clientSeed) >>= _) = _ at hrun
    rw [hsecret, ok_bind] at hrun
    obtain ⟨firstDim, -, hrun⟩ := bind_eq_ok hrun
    have hparts := Except.ok.inj hrun
    exact (congrArg (fun out => out.2.1) hparts).symm

/-- **A slot is a fresh query** of the generator that skips the errors of the slots before it. -/
theorem slot_is_fresh {gen : ClientRng P R} {o : Overflow} {pool : QueryPool P ypir}
    {clientSeed : Seed} {batch : ReusableBatch P ypir R}
    (hstarted : batch.Started gen pool clientSeed) (hfits : ypir.Fits P) {used row : ℕ}
    {answer : SlotQuery} (hanswer : batch.Answers gen used row (.ok answer))
    {set : PublicQuerySetup P ypir.dbRows} (hset : pool.sets[used]? = some set)
    {query : IPIRSimpleQuery} {keys : PackingKeys P}
    (hrun : generateFreshQuerySimplepir (gen.skipping (used * ypir.dbRows)) o ypir set row
      clientSeed = .ok (query, keys, clientSeed)) :
    keys = batch.keys ∧ query.toSwitchedBytes P.q ypir.queryBits = answer.bytes := by
  obtain ⟨hrow, -, set', sent, hset', hsent, hbytes⟩ := hanswer
  rw [hstarted.pool_eq, hset] at hset'
  obtain rfl := Option.some.inj hset'
  constructor
  · obtain ⟨secretNtt, hsecret, -⟩ := secretToNtt_ok gen clientSeed
    have hbatch := hstarted.start
    rw [startBatch_eq gen pool hsecret] at hbatch
    obtain rfl := Except.ok.inj hbatch
    have hkeys := keys_of_generate hrun ((secret_skipping gen _ clientSeed).symm ▸ hsecret)
    rw [hkeys, kgNoise_skipping, khNoise_skipping]
  · obtain ⟨fresh, keys', hfresh, -, hselects⟩ :=
      generateFreshQuery_ok (gen.skipping (used * ypir.dbRows)) o set hfits hrow clientSeed
    have hquery : query = ⟨fresh⟩ := congrArg Prod.fst (Except.ok.inj (hrun.symm.trans hfresh))
    have herrors : (gen.skipping (used * ypir.dbRows)).rowError clientSeed =
        fun i => gen.draws batch.rng (used * ypir.dbRows + i) := by
      funext i
      rw [rowError_skipping, hstarted.rng]
    rw [secret_skipping, herrors, ← hstarted.secret] at hselects
    rw [hquery, hselects.unique hsent, hbytes]

end Slots

/-- The answer to a call is the answer of its slot. -/
theorem ReusableBatch.Started.answers_slot {P : RlweParams} {ypir : SchemeParams} {R : Type}
    {gen : ClientRng P R} {pool : QueryPool P ypir} {clientSeed : Seed}
    {batch final : ReusableBatch P ypir R} (hstarted : batch.Started gen pool clientSeed)
    (hfits : ypir.Fits P) {o : Overflow} {rows : List ℕ} {answers : List (Except String SlotQuery)}
    (hrun : batch.run gen o rows = .ok (answers, final)) {i row : ℕ} (hrow : rows[i]? = some row)
    {answer : SlotQuery} (hanswer : answers[i]? = some (Except.ok answer)) :
    batch.Answers gen answer.slot row (.ok answer) := by
  obtain ⟨answers', hserves, hreturned⟩ := hstarted.exists_run o hfits rows
  obtain rfl : answers' = answers := congrArg Prod.fst (Except.ok.inj (hreturned.symm.trans hrun))
  have hcall := hserves.answer i row _ hrow hanswer
  obtain ⟨-, hslot, -⟩ := hcall.used_lt
  rwa [← hslot] at hcall

/-- **A batch retrieves the rows that it is called for.**  Every answer of a run of a started batch
is a fresh query with the keys of the batch.  It goes through a whole retrieval, on any server that
is deployed for the public query of its slot: the transcript has the keys of the batch and the bytes
of the answer, the batch decodes the response of the server, and every column below the noise bound
is the entry of the row. -/
theorem slot_retrieval {R : Type} (P : RlweParams) (ypir : SchemeParams) (pool : QueryPool P ypir)
    (gen : ClientRng P R) (o : Overflow) (clientSeed : Seed) (batch final : ReusableBatch P ypir R)
    (hstarted : batch.Started gen pool clientSeed) (rows : List ℕ)
    (answers : List (Except String SlotQuery)) (hrun : batch.run gen o rows = .ok (answers, final))
    (i row : ℕ) (hrow : rows[i]? = some row) (answer : SlotQuery)
    (hanswer : answers[i]? = some (Except.ok answer)) (set : PublicQuerySetup P ypir.dbRows)
    (hset : pool.sets[answer.slot]? = some set) :
    (ypir.Fits P → ∃ query : IPIRSimpleQuery,
      generateFreshQuerySimplepir (gen.skipping (answer.slot * ypir.dbRows)) o ypir set row
          clientSeed = .ok (query, batch.keys, clientSeed) ∧
        query.toSwitchedBytes P.q ypir.queryBits = answer.bytes) ∧
    ∀ (T K : Type) [ToU64 T] (kernel : TryMultiplyQuery T K), kernel.Exact →
      ∀ (validateProfileParts : RlweParams → DatabaseShape → SimplePirProfile → Outcome Unit)
        (server : YServer T K) (workers : ℕ → Scheduler (CollapseTerm P)),
        Deployed validateProfileParts server P ypir set.polys →
      ∃ t : Transcript P, t.Runs kernel validateProfileParts server ypir set
          (gen.skipping (answer.slot * ypir.dbRows)) o workers clientSeed row ∧
        t.keys = batch.keys ∧ t.queryBytes ypir = answer.bytes ∧
        (∃ residual ≤ P.delta / 2, batch.decodeWithRoundingResidual gen o t.publishedC1 t.response =
          .ok (t.decoded, residual)) ∧
        t.decoded.length = ypir.dbCols ∧
        ∀ col < ypir.dbCols, 2 * |(t.noise server ypir (gen.skipping (answer.slot * ypir.dbRows))
            clientSeed col).valMinAbs| < P.delta →
          t.decoded.getD col 0 = dbAt server.db (col * ypir.dbRows + row) := by
  refine ⟨fun hfits => ?_, fun T K _ kernel hkernel validateProfileParts server workers h => ?_⟩
  · have hcall := hstarted.answers_slot hfits hrun hrow hanswer
    obtain ⟨query, keys, hquery, -⟩ := generateFreshQuery_ok
      (gen.skipping (answer.slot * ypir.dbRows)) o set hfits hcall.used_lt.1 clientSeed
    obtain ⟨rfl, hbytes⟩ := slot_is_fresh hstarted hfits hcall hset hquery
    exact ⟨⟨query⟩, hquery, hbytes⟩
  have hcall := hstarted.answers_slot h.fits hrun hrow hanswer
  obtain ⟨t, hruns, hlen, hvalue⟩ := h.exists_transcript hkernel
    (gen.skipping (answer.slot * ypir.dbRows)) o workers clientSeed hcall.used_lt.1
  obtain ⟨hkeys, hbytes⟩ := slot_is_fresh hstarted h.fits hcall hset hruns.generate
  have hdecode := hruns.decode
  rw [decodeResponse_skipping] at hdecode
  obtain ⟨secretNtt, hsecret, -⟩ := secretToNtt_ok gen clientSeed
  have hseed : batch.clientSeed = clientSeed := by
    have hbatch := hstarted.start
    rw [startBatch_eq gen pool hsecret] at hbatch
    obtain rfl := Except.ok.inj hbatch
    rfl
  refine ⟨t, hruns, hkeys, hbytes, ?_, hlen, fun col hcol hnoise => ?_⟩
  · rw [ReusableBatch.decodeWithRoundingResidual, hseed]
    exact exists_residual hdecode
  · obtain ⟨phase, hphase, hcast, hdecoded⟩ := hvalue col hcol
    rw [hdecoded]
    exact h.fits.round_phase hphase (h.dbAt_lt _) hcast hnoise

/-- No error is left out. -/
theorem rowError_skipping_countingRng (skipped : ℕ) (seed : Seed) (row : ℕ) :
    (countingRng.skipping skipped).rowError seed row = 0 := by
  rw [rowError_skipping]
  exact rowError_countingRng seed (skipped + row)

/-- The second slot of a small batch, after a call that is refused, returns the last row. -/
theorem slot_retrieval_small : ∃ (batch final : ReusableBatch maskParams smallScheme ℕ)
    (first second : SlotQuery) (t : Transcript maskParams) (query : IPIRSimpleQuery),
    batch.run countingRng .traps [2, 9, 3] =
        .ok ([.ok first, .error "row out of range", .ok second], final) ∧
      generateFreshQuerySimplepir (countingRng.skipping 4) .traps smallScheme smallSetup 3
          REFERENCE_W_SEED = .ok (query, batch.keys, REFERENCE_W_SEED) ∧
      query.toSwitchedBytes 17 5 = second.bytes ∧
      second.slot = 1 ∧ t.keys = batch.keys ∧ t.queryBytes smallScheme = second.bytes ∧
      t.decoded = [1, 0, 0, 1, 0, 1, 1, 0] := by
  obtain ⟨batch, hstarted⟩ := exists_started countingRng smallScheme_fits
    (QueryPool.mk [smallSetup, smallSetup]) REFERENCE_W_SEED
  obtain ⟨answers, hserves, hrun⟩ := hstarted.exists_run .traps smallScheme_fits [2, 9, 3]
  have hfree : batch.pool.sets.length = 2 := by
    rw [hstarted.pool_eq]
    rfl
  obtain ⟨a, b, c, rfl⟩ := List.length_eq_three.mp hserves.length
  have hused (rows : List ℕ) : usedSlots smallScheme.dbRows batch.pool.sets.length rows =
      usedSlots 4 2 rows := by
    rw [hfree]
    rfl
  obtain ⟨first, rfl, -⟩ := (hserves.answer 0 2 a rfl rfl).exists_ok (by decide)
    (by rw [hused, hfree]; decide)
  obtain rfl := (hserves.answer 1 9 b rfl rfl).eq_error (by decide)
  obtain ⟨second, rfl, hsecond⟩ := (hserves.answer 2 3 c rfl rfl).exists_ok (by decide)
    (by rw [hused, hfree]; decide)
  have hslot : second.slot = 1 := by
    rw [hsecond, hused]
    rfl
  obtain ⟨hfresh, hretrieve⟩ := slot_retrieval maskParams smallScheme _ countingRng .traps
    REFERENCE_W_SEED batch _ hstarted [2, 9, 3] _ hrun 2 3 rfl second rfl smallSetup
    (by rw [hslot]; rfl)
  rw [hslot] at hfresh hretrieve
  obtain ⟨query, hquery, hsent⟩ := hfresh smallScheme_fits
  obtain ⟨t, -, hkeys, hbytes, -, hlen, hdecoded⟩ := hretrieve UInt8 ChunkedSplitKernel
    (defaultKernel UInt8 .traps 1) (defaultKernel_exact .traps 1) (fun _ _ _ => .ok ())
    smallChunkedServer (fun _ => Scheduler.perItem _) smallChunkedServer_deployed
  have hquiet : ∀ col < 8, t.decoded.getD col 0 = dbAt smallChunkedServer.db (col * 4 + 3) := by
    intro col hcol
    refine hdecoded col hcol ?_
    rw [noise_smallScheme (rowError_skipping_countingRng _ _) (fun _ => rfl) fun _ => rfl]
    decide
  exact ⟨batch, _, first, second, t, query, hrun, hquery, hsent, hslot, hkeys, hbytes,
    (eq_smallRow 3 hlen hquiet).trans (by decide)⟩

end SimplePir
