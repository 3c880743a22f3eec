import IpirSp.NullifierPir.Backend

/-!
# Batches of queries under one secret

A pool holds several public queries.  A batch draws one secret and one pair of packing keys, and
then spends the public queries of its pool, one slot a call: two selection queries under one secret
over the same public query would show which rows they select.

The state of a batch is fixed by the number of slots that it has spent: `ReusableBatch.after`.
`nextQuery_after` is what one call does and `run_after` what a sequence of calls does.
`reusable_batch` is the result: no call panics, a failed call changes nothing, the answered calls
get the slots in order and each slot once, and the errors of a query are drawn from its own stretch
of the generator.
-/

namespace SimplePir

open NullifierPir SpiralRs Inspiring Loops MachineWord

section Batches

variable {P : RlweParams} {ypir : SchemeParams} {R : Type}

variable (P ypir) in
/-- `QueryPool`. -/
structure QueryPool where
  sets : List (PublicQuerySetup P ypir.dbRows)

variable (ypir) in
/-- `QueryPool::new`, where `poolSeed publicSeed slot` is what `fill_bytes` writes into the seed of
a slot. -/
def QueryPool.new (rng : PublicRng P) (poolSeed : Seed → ℕ → Seed) (publicSeed : Seed) (count : ℕ) :
    Outcome (Except String (QueryPool P ypir)) :=
  if ¬(count = 4 ∨ count = 8 ∨ count = 16) then
    .ok (.error "experimental pool size must be 4, 8, or 16")
  else do
    let sets ← (List.range count).mapM fun slot =>
      generatePublicQuerySetupSimplepirFromSeed rng ypir (poolSeed publicSeed slot)
    .ok (.ok ⟨sets⟩)

variable (P ypir R) in
/-- `ReusableBatch`. -/
structure ReusableBatch where
  pool : QueryPool P ypir
  clientSeed : Seed
  secret : List ℕ
  rng : R
  keys : PackingKeys P
  next : ℕ

/-- `start_batch`, on the seed that `fresh_client_seed` returns. -/
def QueryPool.startBatch (gen : ClientRng P R) (pool : QueryPool P ypir) (clientSeed : Seed) :
    Outcome (ReusableBatch P ypir R) := do
  let secret := gen.sampleGaussian (gen.fromSeed clientSeed)
  let secretNtt ← secretToNtt P secret.1
  let kgError := gen.noise secret.2
  let khError := gen.noise kgError.2
  .ok {
    pool := pool
    clientSeed := clientSeed
    secret := secret.1
    rng := khError.2
    keys := PackingKeys.generateFull P secretNtt kgError.1 khError.1
    next := 0 }

/-- `SlotQuery`. -/
structure SlotQuery where
  slot : ℕ
  bytes : List UInt8

/-- `next_query`. -/
def ReusableBatch.nextQuery (gen : ClientRng P R) (o : Overflow) (batch : ReusableBatch P ypir R)
    (row : ℕ) : Outcome (Except String SlotQuery × ReusableBatch P ypir R) :=
  if row ≥ ypir.dbRows then .ok (.error "row out of range", batch)
  else if batch.next = batch.pool.sets.length then .ok (.error "batch exhausted", batch)
  else
    match batch.pool.sets[batch.next]? with
    | none => .error (.panic "index out of bounds")
    | some set => do
        let query ← encryptedSelectionQuery P o set.polys batch.secret row ypir.dbRows
          (gen.draws batch.rng)
        let bytes := (IPIRSimpleQuery.mk query).toSwitchedBytes P.q ypir.queryBits
        -- One error was sampled for each row.
        let rng := (fun r => (gen.sample r).2)^[ypir.dbRows] batch.rng
        .ok (.ok ⟨batch.next, bytes⟩, { batch with rng := rng, next := batch.next + 1 })

/-! ## Runs -/

/-- A sequence of calls: the answers, and the batch after them. -/
def ReusableBatch.run (gen : ClientRng P R) (o : Overflow) (batch : ReusableBatch P ypir R) :
    List ℕ → Outcome (List (Except String SlotQuery) × ReusableBatch P ypir R)
  | [] => .ok ([], batch)
  | row :: rows => do
      let answered ← batch.nextQuery gen o row
      let rest ← ReusableBatch.run gen o answered.2 rows
      .ok (answered.1 :: rest.1, rest.2)

/-- The batch after `used` slots. -/
def ReusableBatch.after (gen : ClientRng P R) (batch : ReusableBatch P ypir R) (used : ℕ) :
    ReusableBatch P ypir R :=
  { batch with rng := (fun r => (gen.sample r).2)^[used * ypir.dbRows] batch.rng, next := used }

/-- The slots that calls for `rows` spend of `slots`. -/
def usedSlots (dbRows slots : ℕ) (rows : List ℕ) : ℕ :=
  min slots (rows.countP (· < dbRows))

/-- What a call for `row` answers once `used` slots are spent. -/
def ReusableBatch.Answers (gen : ClientRng P R) (batch : ReusableBatch P ypir R) (used row : ℕ) :
    Except String SlotQuery → Prop
  | .error msg =>
      ypir.dbRows ≤ row ∧ msg = "row out of range" ∨
        row < ypir.dbRows ∧ used = batch.pool.sets.length ∧ msg = "batch exhausted"
  | .ok answer =>
      row < ypir.dbRows ∧ answer.slot = used ∧ ∃ set query, batch.pool.sets[used]? = some set ∧
        Selects P set.polys batch.secret row
          (fun i => gen.draws batch.rng (used * ypir.dbRows + i)) ypir.dbRows ypir.dbRows query ∧
        answer.bytes = (IPIRSimpleQuery.mk query).toSwitchedBytes P.q ypir.queryBits

end Batches

/-! ## One call -/

section Calls

variable {P : RlweParams} {ypir : SchemeParams} {R : Type} (gen : ClientRng P R)
  {batch : ReusableBatch P ypir R}

/-- Draws that start later in the stream. -/
theorem draws_iterate (rng : R) (skipped turn : ℕ) :
    gen.draws ((fun r => (gen.sample r).2)^[skipped] rng) turn =
      gen.draws rng (skipped + turn) := by
  rw [ClientRng.draws, ClientRng.draws, ← Function.iterate_add_apply, Nat.add_comm]

theorem usedSlots_le (dbRows slots : ℕ) (rows : List ℕ) : usedSlots dbRows slots rows ≤ slots :=
  min_le_left _ _

/-- One call more. -/
theorem usedSlots_append (dbRows slots : ℕ) (rows : List ℕ) (row : ℕ) :
    usedSlots dbRows slots (rows ++ [row]) =
      if row < dbRows ∧ usedSlots dbRows slots rows < slots then usedSlots dbRows slots rows + 1
      else usedSlots dbRows slots rows := by
  rw [usedSlots, usedSlots, List.countP_append, List.countP_singleton]
  by_cases hrow : row < dbRows
  · rw [if_pos (decide_eq_true hrow)]
    split <;> omega
  · rw [if_neg (by simpa using hrow), if_neg fun h => hrow h.1, Nat.add_zero]

/-- **A call on a free slot**: the next slot is spent on a query for the row. -/
theorem nextQuery_free (o : Overflow) (hfits : ypir.Fits P)
    (hsecret : batch.secret.length = P.d) {used row : ℕ} (hrow : row < ypir.dbRows)
    (hfree : used < batch.pool.sets.length) :
    ∃ answer, (batch.after gen used).nextQuery gen o row =
        .ok (.ok answer, batch.after gen (used + 1)) ∧
      batch.Answers gen used row (.ok answer) := by
  have hset : batch.pool.sets[used]? = some batch.pool.sets[used] := List.getElem?_eq_getElem hfree
  have hselect : Selectable P batch.pool.sets[used].polys batch.secret row ypir.dbRows :=
    ⟨hfits.dbRows_mod, batch.pool.sets[used].length_polys, batch.pool.sets[used].length_poly,
      hsecret, hrow⟩
  have hq : P.q ≤ 2 ^ 63 := hfits.q_lt.le.trans (Nat.pow_le_pow_right two_pos (by decide))
  have hdraws : gen.draws (batch.after gen used).rng =
      fun i => gen.draws batch.rng (used * ypir.dbRows + i) :=
    funext fun i => draws_iterate gen batch.rng (used * ypir.dbRows) i
  have herrors : ∀ i < ypir.dbRows, gen.draws batch.rng (used * ypir.dbRows + i) < P.q :=
    fun i _ => gen.sample_lt _
  obtain ⟨query, hquery, hselects⟩ := exists_encryptedSelectionQuery hselect o hq herrors
  refine ⟨⟨used, (IPIRSimpleQuery.mk query).toSwitchedBytes P.q ypir.queryBits⟩, ?_, hrow, rfl, _,
    query, hset, hselects, rfl⟩
  have hstate : (fun r => (gen.sample r).2)^[ypir.dbRows] (batch.after gen used).rng =
      (batch.after gen (used + 1)).rng := by
    rw [ReusableBatch.after, ReusableBatch.after, ← Function.iterate_add_apply, Nat.succ_mul,
      Nat.add_comm]
  have hpool : (batch.after gen used).pool.sets[(batch.after gen used).next]? =
      some batch.pool.sets[used] := hset
  have hnext : (batch.after gen used).next ≠ (batch.after gen used).pool.sets.length := hfree.ne
  rw [ReusableBatch.nextQuery, if_neg (not_le.mpr hrow), if_neg hnext, hpool]
  dsimp only
  rw [hdraws, hstate]
  show (encryptedSelectionQuery P o batch.pool.sets[used].polys batch.secret row ypir.dbRows
    (fun i => gen.draws batch.rng (used * ypir.dbRows + i)) >>= _) = _
  rw [hquery, ok_bind]
  rfl

/-- **What one call does**, in any state of the batch. -/
theorem nextQuery_after (o : Overflow) (hfits : ypir.Fits P)
    (hsecret : batch.secret.length = P.d) {used : ℕ} (hused : used ≤ batch.pool.sets.length)
    (row : ℕ) :
    ∃ answer, (batch.after gen used).nextQuery gen o row =
        .ok (answer, batch.after gen
          (if row < ypir.dbRows ∧ used < batch.pool.sets.length then used + 1 else used)) ∧
      batch.Answers gen used row answer := by
  by_cases hrow : row < ypir.dbRows
  · rcases hused.lt_or_eq with hfree | hspent
    · obtain ⟨answer, hcall, hanswer⟩ := nextQuery_free gen o hfits hsecret hrow hfree
      rw [if_pos ⟨hrow, hfree⟩]
      exact ⟨.ok answer, hcall, hanswer⟩
    · refine ⟨.error "batch exhausted", ?_, Or.inr ⟨hrow, hspent, rfl⟩⟩
      have hnext : (batch.after gen used).next = (batch.after gen used).pool.sets.length := hspent
      rw [ReusableBatch.nextQuery, if_neg (not_le.mpr hrow), if_pos hnext,
        if_neg fun h => h.2.ne hspent]
  · refine ⟨.error "row out of range", ?_, Or.inl ⟨not_lt.mp hrow, rfl⟩⟩
    rw [ReusableBatch.nextQuery, if_pos (not_lt.mp hrow), if_neg fun h => hrow h.1]

variable {gen} in
/-- An answered call took a free slot. -/
theorem ReusableBatch.Answers.used_lt {used row : ℕ} {answer : SlotQuery}
    (h : batch.Answers gen used row (.ok answer)) :
    row < ypir.dbRows ∧ answer.slot = used ∧ used < batch.pool.sets.length := by
  obtain ⟨hrow, hslot, set, query, hset, -, -⟩ := h
  exact ⟨hrow, hslot, (List.getElem?_eq_some_iff.mp hset).1⟩

variable {gen} in
/-- A valid call on a free slot is answered. -/
theorem ReusableBatch.Answers.exists_ok {used row : ℕ} {answer : Except String SlotQuery}
    (h : batch.Answers gen used row answer) (hrow : row < ypir.dbRows)
    (hfree : used < batch.pool.sets.length) :
    ∃ slotQuery : SlotQuery, answer = .ok slotQuery ∧ slotQuery.slot = used := by
  cases answer with
  | error msg =>
      rcases h with ⟨hout, -⟩ | ⟨-, hspent, -⟩
      · exact absurd hrow (not_lt.mpr hout)
      · exact absurd hspent hfree.ne
  | ok slotQuery => exact ⟨slotQuery, rfl, h.2.1⟩

variable {gen} in
/-- A row outside the database is refused. -/
theorem ReusableBatch.Answers.eq_error {used row : ℕ} {answer : Except String SlotQuery}
    (h : batch.Answers gen used row answer) (hrow : ypir.dbRows ≤ row) :
    answer = .error "row out of range" := by
  cases answer with
  | error msg =>
      rcases h with ⟨-, rfl⟩ | ⟨hin, -⟩
      · rfl
      · exact absurd hin (not_lt.mpr hrow)
  | ok slotQuery => exact absurd h.1 (not_lt.mpr hrow)

end Calls

/-! ## Every sequence of calls -/

section Sequences

variable {P : RlweParams} {ypir : SchemeParams} {R : Type} {gen : ClientRng P R}

/-- What a started batch answers to the calls for `rows`. -/
structure ReusableBatch.Serves (gen : ClientRng P R) (o : Overflow) (batch : ReusableBatch P ypir R)
    (past rows : List ℕ) (answers : List (Except String SlotQuery)) : Prop where
  run : (batch.after gen (usedSlots ypir.dbRows batch.pool.sets.length past)).run gen o rows =
    .ok (answers, batch.after gen (usedSlots ypir.dbRows batch.pool.sets.length (past ++ rows)))
  length : answers.length = rows.length
  answer : ∀ i row answer, rows[i]? = some row → answers[i]? = some answer →
    batch.Answers gen (usedSlots ypir.dbRows batch.pool.sets.length (past ++ rows.take i)) row
      answer

/-- **What a sequence of calls does**, by induction over the calls. -/
theorem run_after (gen : ClientRng P R) {batch : ReusableBatch P ypir R} (o : Overflow)
    (hfits : ypir.Fits P) (hsecret : batch.secret.length = P.d) (rows : List ℕ) :
    ∀ past, ∃ answers, batch.Serves gen o past rows answers := by
  induction rows with
  | nil =>
      intro past
      refine ⟨[], ?_, rfl, fun i row answer hrow => ?_⟩
      · rw [List.append_nil]
        rfl
      · cases hrow
  | cons row rows ih =>
      intro past
      obtain ⟨answer, hcall, hanswer⟩ := nextQuery_after gen o hfits hsecret
        (usedSlots_le ypir.dbRows batch.pool.sets.length past) row
      rw [← usedSlots_append] at hcall
      obtain ⟨answers, hrest⟩ := ih (past ++ [row])
      have happend : past ++ [row] ++ rows = past ++ row :: rows := List.append_assoc _ _ _
      refine ⟨answer :: answers, ?_, congrArg (· + 1) hrest.length,
        fun i next reply hnext hreply => ?_⟩
      · rw [ReusableBatch.run, hcall, ok_bind]
        dsimp only
        rw [hrest.run, ok_bind, happend]
      · cases i with
        | zero =>
            obtain rfl := Option.some.inj hnext
            obtain rfl := Option.some.inj hreply
            rw [List.take_zero, List.append_nil]
            exact hanswer
        | succ i =>
            have htail := hrest.answer i next reply hnext hreply
            rwa [List.append_assoc] at htail

/-- **No slot is spent twice**: answered calls get larger and larger slots. -/
theorem ReusableBatch.Serves.slot_lt {o : Overflow} {batch : ReusableBatch P ypir R} {rows : List ℕ}
    {answers : List (Except String SlotQuery)} (h : batch.Serves gen o [] rows answers) {i j : ℕ}
    (hij : i < j) {first second : SlotQuery} (hfirst : answers[i]? = some (.ok first))
    (hsecond : answers[j]? = some (.ok second)) : first.slot < second.slot := by
  have hlen := h.length
  have hi : i < rows.length := hlen ▸ (List.getElem?_eq_some_iff.mp hfirst).1
  have hj : j < rows.length := hlen ▸ (List.getElem?_eq_some_iff.mp hsecond).1
  obtain ⟨hrow, hslot, hfree⟩ :=
    (h.answer i rows[i] _ (List.getElem?_eq_getElem hi) hfirst).used_lt
  obtain ⟨-, hlater, -⟩ := (h.answer j rows[j] _ (List.getElem?_eq_getElem hj) hsecond).used_lt
  -- The call in position `i` is one of the valid calls before position `j`.
  have htake : rows.take (i + 1) = rows.take i ++ [rows[i]] := List.take_succ_eq_append_getElem hi
  have hcount : (rows.take (i + 1)).countP (· < ypir.dbRows) ≤
      (rows.take j).countP (· < ypir.dbRows) :=
    (List.take_sublist_take_left hij).countP_le
  rw [htake, List.countP_append, List.countP_singleton, if_pos (decide_eq_true hrow)] at hcount
  rw [hslot, hlater]
  rw [List.nil_append, usedSlots] at hfree ⊢
  rw [List.nil_append, usedSlots]
  omega

/-- The batch of a seed, before its first call. -/
structure ReusableBatch.Started (gen : ClientRng P R) (pool : QueryPool P ypir) (clientSeed : Seed)
    (batch : ReusableBatch P ypir R) : Prop where
  start : pool.startBatch gen clientSeed = .ok batch
  pool_eq : batch.pool = pool
  secret : batch.secret = gen.secret clientSeed
  rng : batch.rng = (gen.khNoise clientSeed).2
  next : batch.next = 0
  keys : batch.keys.IsFor (secretRing P (gen.secret clientSeed))
    (fun k => Poly.ring P.q ((gen.kgNoise clientSeed).1 k))
    fun k => Poly.ring P.q ((gen.khNoise clientSeed).1 k)

/-- The batch that starts on a seed. -/
theorem startBatch_eq (gen : ClientRng P R) (pool : QueryPool P ypir) {clientSeed : Seed}
    {secretNtt : Ntt P.d P.q} (hsecret : secretToNtt P (gen.secret clientSeed) = .ok secretNtt) :
    pool.startBatch gen clientSeed = .ok ⟨pool, clientSeed, gen.secret clientSeed,
      (gen.khNoise clientSeed).2, PackingKeys.generateFull P secretNtt (gen.kgNoise clientSeed).1
        (gen.khNoise clientSeed).1, 0⟩ := by
  show (secretToNtt P (gen.secret clientSeed) >>= _) = _
  rw [hsecret, ok_bind]
  rfl

/-- **A batch starts**, with packing keys for its secret. -/
theorem exists_started (gen : ClientRng P R) (hfits : ypir.Fits P) (pool : QueryPool P ypir)
    (clientSeed : Seed) :
    ∃ batch : ReusableBatch P ypir R, batch.Started gen pool clientSeed := by
  obtain ⟨secretNtt, hsecret, hring⟩ := secretToNtt_ok gen clientSeed
  have hword (noise : (ℕ → Poly P.d) × R) (hlt : ∀ k i, noise.1 k i < P.q) :
      ∀ k i, noise.1 k i < 2 ^ 64 := fun k i => P.spiral.lt_word_of_le (hlt k i).le
  have hkeys := generateFull_isFor hfits.gadget_lt secretNtt
    (hword (gen.kgNoise clientSeed) (gen.noise_lt _))
    (hword (gen.khNoise clientSeed) (gen.noise_lt _))
  rw [hring] at hkeys
  exact ⟨_, startBatch_eq gen pool hsecret, rfl, rfl, rfl, rfl, hkeys⟩

/-- **A started batch runs**, whatever it is called for. -/
theorem ReusableBatch.Started.exists_run {pool : QueryPool P ypir} {clientSeed : Seed}
    {batch : ReusableBatch P ypir R} (h : batch.Started gen pool clientSeed) (o : Overflow)
    (hfits : ypir.Fits P) (rows : List ℕ) :
    ∃ answers, batch.Serves gen o [] rows answers ∧ batch.run gen o rows =
      .ok (answers, batch.after gen (usedSlots ypir.dbRows pool.sets.length rows)) := by
  have hsecret : batch.secret.length = P.d := by
    rw [h.secret]
    exact gen.length_secret clientSeed
  obtain ⟨answers, hserves⟩ := run_after gen o hfits hsecret rows []
  have hfirst : batch.after gen (usedSlots ypir.dbRows batch.pool.sets.length []) = batch := by
    rw [usedSlots, List.countP_nil, Nat.min_zero, ReusableBatch.after, Nat.zero_mul]
    show { batch with next := 0 } = batch
    rw [← h.next]
  have hrun := hserves.run
  rw [hfirst, h.pool_eq] at hrun
  exact ⟨answers, hserves, hrun⟩

/-- **A pool is built** for the counts that are offered. -/
theorem queryPool_new (hfits : ypir.Fits P) (rng : PublicRng P) (poolSeed : Seed → ℕ → Seed)
    (publicSeed : Seed) {count : ℕ} (hcount : count = 4 ∨ count = 8 ∨ count = 16) :
    QueryPool.new ypir rng poolSeed publicSeed count =
      .ok (.ok ⟨(List.range count).map fun slot => rng.setup ypir (poolSeed publicSeed slot)⟩) := by
  have hsets : (List.range count).mapM (fun slot =>
      generatePublicQuerySetupSimplepirFromSeed rng ypir (poolSeed publicSeed slot)) =
        .ok ((List.range count).map fun slot => rng.setup ypir (poolSeed publicSeed slot)) :=
    mapM_eq_ok fun slot _ => if_neg (not_not.mpr hfits.dbRows_mod)
  rw [QueryPool.new, if_neg (not_not.mpr hcount), hsets, ok_bind]

end Sequences

/-- **A batch over all its calls.**  On parameters that fit, a pool is built, a batch starts, and
every sequence of calls returns: a row outside the database is refused, a valid call gets the next
slot of the pool and a query for its row under errors of its own, and once the pool is spent every
valid call fails. -/
theorem reusable_batch (P : RlweParams) (ypir : SchemeParams) (hfits : ypir.Fits P)
    (rng : PublicRng P) (poolSeed : Seed → ℕ → Seed) (publicSeed : Seed) (count : ℕ)
    (hcount : count = 4 ∨ count = 8 ∨ count = 16) {R : Type} (gen : ClientRng P R) (o : Overflow)
    (clientSeed : Seed) (rows : List ℕ) :
    ∃ (pool : QueryPool P ypir) (batch : ReusableBatch P ypir R)
        (answers : List (Except String SlotQuery)),
      QueryPool.new ypir rng poolSeed publicSeed count = .ok (.ok pool) ∧
      pool.sets = (List.range count).map (fun slot => rng.setup ypir (poolSeed publicSeed slot)) ∧
      batch.Started gen pool clientSeed ∧
      batch.run gen o rows = .ok (answers, batch.after gen (usedSlots ypir.dbRows count rows)) ∧
      answers.length = rows.length ∧
      (∀ i row answer, rows[i]? = some row → answers[i]? = some answer →
        batch.Answers gen (usedSlots ypir.dbRows count (rows.take i)) row answer) ∧
      ∀ (i j : ℕ) (first second : SlotQuery), i < j → answers[i]? = some (Except.ok first) →
        answers[j]? = some (Except.ok second) → first.slot < second.slot := by
  have hpool := queryPool_new hfits rng poolSeed publicSeed hcount
  obtain ⟨batch, hstarted⟩ := exists_started gen hfits
    ⟨(List.range count).map fun slot => rng.setup ypir (poolSeed publicSeed slot)⟩ clientSeed
  have hlen : batch.pool.sets.length = count := by
    rw [hstarted.pool_eq, List.length_map, List.length_range]
  obtain ⟨answers, hserves, hrun⟩ := hstarted.exists_run o hfits rows
  rw [← hstarted.pool_eq, hlen] at hrun
  refine ⟨_, batch, answers, hpool, rfl, hstarted, hrun, hserves.length,
    fun i row answer hrow hanswer => ?_, fun i j first second hij => hserves.slot_lt hij⟩
  have hcall := hserves.answer i row answer hrow hanswer
  rwa [hlen] at hcall

/-! ## Two queries of a small batch -/

theorem countingMask_lt (_ : Seed) (draw : ℕ) : draw % maskParams.q < maskParams.q :=
  Nat.mod_lt _ maskParams.q_pos

/-- A generator of public masks that counts its draws. -/
def countingPublicRng : PublicRng maskParams where
  uniformU64Below _ draw := draw % maskParams.q
  uniformU64Below_lt := countingMask_lt

/-- The call between the two valid ones spends no slot. -/
theorem reusable_batch_small : ∃ (pool : QueryPool maskParams smallScheme)
    (batch final : ReusableBatch maskParams smallScheme ℕ) (first second : SlotQuery),
    pool.startBatch countingRng REFERENCE_W_SEED = .ok batch ∧
      batch.run countingRng .traps [2, 9, 0] =
        .ok ([.ok first, .error "row out of range", .ok second], final) ∧
      first.slot = 0 ∧ second.slot = 1 ∧ final.next = 2 := by
  obtain ⟨pool, batch, answers, -, hsets, hstarted, hrun, hlen, hanswer, -⟩ :=
    reusable_batch maskParams smallScheme smallScheme_fits countingPublicRng (fun seed _ => seed)
      REFERENCE_W_SEED 4 (Or.inl rfl) countingRng .traps REFERENCE_W_SEED [2, 9, 0]
  obtain ⟨a, b, c, rfl⟩ := List.length_eq_three.mp hlen
  have hfree : batch.pool.sets.length = 4 := by
    rw [hstarted.pool_eq, hsets, List.length_map, List.length_range]
  obtain ⟨first, rfl, hfirst⟩ :=
    (hanswer 0 2 a rfl rfl).exists_ok (by decide) (by rw [hfree]; decide)
  obtain rfl := (hanswer 1 9 b rfl rfl).eq_error (by decide)
  obtain ⟨second, rfl, hsecond⟩ :=
    (hanswer 2 0 c rfl rfl).exists_ok (by decide) (by rw [hfree]; decide)
  exact ⟨pool, batch, _, first, second, hstarted.start, hrun, hfirst, hsecond, rfl⟩

end SimplePir
