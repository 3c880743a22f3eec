import IpirSp.Codec.LittleEndian

/-!
# Reading a byte string front to back

A parser takes bytes from a cursor or fails.  `Reads p start bytes a` says that `p` turns exactly
`bytes` into `a`, whatever follows them; `Rejects p start bytes` that `p` fails on them, whatever
follows.  They compose along a program, and decide the neighbours of an encoding: `reads_unique`
and `not_reads_strict_prefix`.
-/

namespace Codec

/-- A position in a byte string, with what is left of it. -/
@[ext] structure Cursor where
  pos : ℕ
  rest : List UInt8

/-- A program that reads from a cursor. -/
abbrev Parser (ε α : Type) := StateT Cursor (Except ε) α

variable {ε α β : Type}

/-- The next `n` bytes. -/
def take (e : ε) (n : ℕ) : Parser ε (List UInt8) := fun c =>
  if n ≤ c.rest.length then .ok (c.rest.take n, ⟨c.pos + n, c.rest.drop n⟩) else .error e

/-- The next 64-bit word. -/
def word (e : ε) : Parser ε ℕ := fromLe <$> take e 8

/-- A check. -/
def require (e : ε) (p : Prop) [Decidable p] : Parser ε Unit := if p then pure () else throw e

/-- A check of the position. -/
def aligned (e : ε) (n : ℕ) : Parser ε Unit := fun c =>
  if c.pos % n = 0 then .ok ((), c) else .error e

/-- A call that reads nothing. -/
def call (r : Except ε α) : Parser ε α := fun c => r.map fun a => (a, c)

/-- A section that only some files have. -/
def sectionIf (present : Bool) (p : Parser ε α) : Parser ε (Option α) :=
  if present then some <$> p else pure none

/-- A parser, `n` times. -/
def times (p : Parser ε α) : ℕ → Parser ε (List α)
  | 0 => pure []
  | n + 1 => do
      let a ← p
      let rest ← times p n
      pure (a :: rest)

/-- A parser on a complete file: nothing may be left. -/
def run (e : ε) (p : Parser ε α) (start : ℕ) (bytes : List UInt8) : Except ε α :=
  match p ⟨start, bytes⟩ with
  | .ok (a, c) => if c.rest = [] then .ok a else .error e
  | .error f => .error f

/-- `p` turns `bytes` into `a`, whatever follows them. -/
def Reads (p : Parser ε α) (start : ℕ) (bytes : List UInt8) (a : α) : Prop :=
  ∀ rest, p ⟨start, bytes ++ rest⟩ = .ok (a, ⟨start + bytes.length, rest⟩)

/-- `p` fails only with errors of one kind. -/
def FailsWith (kind : ε → Prop) (p : Parser ε α) : Prop := ∀ c e, p c = .error e → kind e

/-- `p` fails with an error of one kind on `bytes`, whatever follows them. -/
def Rejects (kind : ε → Prop) (p : Parser ε α) (start : ℕ) (bytes : List UInt8) : Prop :=
  ∀ rest, ∃ e, p ⟨start, bytes ++ rest⟩ = .error e ∧ kind e

/-! ## Runs -/

theorem bind_apply (p : Parser ε α) (f : α → Parser ε β) (c : Cursor) :
    (p >>= f) c = p c >>= fun out => f out.1 out.2 := rfl

theorem bind_eq_ok_iff {p : Parser ε α} {f : α → Parser ε β} {c c' : Cursor} {b : β} :
    (p >>= f) c = .ok (b, c') ↔ ∃ a c₁, p c = .ok (a, c₁) ∧ f a c₁ = .ok (b, c') := by
  rw [bind_apply]
  rcases p c with e | ⟨a, c₁⟩
  · constructor
    · intro h
      cases h
    · rintro ⟨a, c₁, h, -⟩
      cases h
  · constructor
    · intro h
      exact ⟨a, c₁, rfl, h⟩
    · rintro ⟨a', c₁', h, h'⟩
      cases h
      exact h'

/-! ## What is read -/

theorem Reads.pure (a : α) (start : ℕ) : Reads (Pure.pure a : Parser ε α) start [] a :=
  fun _ => rfl

theorem Reads.bind {p : Parser ε α} {f : α → Parser ε β} {start : ℕ} {bytes more : List UInt8}
    {a : α} {b : β} (hp : Reads p start bytes a) (hf : Reads (f a) (start + bytes.length) more b) :
    Reads (p >>= f) start (bytes ++ more) b := by
  intro rest
  refine bind_eq_ok_iff.mpr ⟨a, ⟨start + bytes.length, more ++ rest⟩, ?_, ?_⟩
  · rw [List.append_assoc]
    exact hp _
  · rw [List.length_append, ← Nat.add_assoc]
    exact hf rest

theorem Reads.map {p : Parser ε α} {start : ℕ} {bytes : List UInt8} {a : α} (f : α → β)
    (hp : Reads p start bytes a) : Reads (f <$> p) start bytes (f a) := by
  intro rest
  show (p >>= fun a => Pure.pure (f a)) _ = _
  rw [bind_apply, hp rest]
  rfl

/-- A step after the last byte. -/
theorem Reads.last {p : Parser ε α} {f : α → Parser ε β} {start : ℕ} {bytes : List UInt8}
    {a : α} {b : β} (hp : Reads p start bytes a) (hf : Reads (f a) (start + bytes.length) [] b) :
    Reads (p >>= f) start bytes b := by
  have hboth := hp.bind hf
  rwa [List.append_nil] at hboth

/-- A step that reads nothing. -/
theorem Reads.skip {p : Parser ε α} {f : α → Parser ε β} {start : ℕ} {bytes : List UInt8}
    {a : α} {b : β} (hp : Reads p start [] a) (hf : Reads (f a) start bytes b) :
    Reads (p >>= f) start bytes b := hp.bind hf

theorem reads_take (e : ε) (start : ℕ) (bytes : List UInt8) :
    Reads (take e bytes.length) start bytes bytes := by
  intro rest
  rw [take, if_pos (by simp)]
  simp

theorem reads_word (e : ε) (start : ℕ) {w : ℕ} (hw : w < 256 ^ 8) :
    Reads (word e) start (leBytes 8 w) w := by
  have hread := (reads_take e start (leBytes 8 w)).map fromLe
  rwa [length_leBytes, fromLe_leBytes hw] at hread

theorem reads_require {e : ε} {p : Prop} [Decidable p] (hp : p) (start : ℕ) :
    Reads (require e p) start [] () := by
  rw [require, if_pos hp]
  exact Reads.pure () start

theorem reads_aligned (e : ε) {n start : ℕ} (h : start % n = 0) :
    Reads (aligned e n) start [] () := fun _ => if_pos h

theorem reads_call {r : Except ε α} {a : α} (h : r = .ok a) (start : ℕ) :
    Reads (call r) start [] a := by
  rw [h]
  exact fun _ => rfl

/-- **Items one after the other.**  `good` is what every item needs of its position. -/
theorem reads_times {ι : Type} {p : Parser ε α} (enc : ι → List UInt8) (val : ι → α)
    (good : ℕ → Prop) (items : List ι)
    (hp : ∀ a ∈ items, ∀ start, good start → Reads p start (enc a) (val a))
    (hgood : ∀ a ∈ items, ∀ start, good start → good (start + (enc a).length)) (start : ℕ)
    (hstart : good start) :
    Reads (times p items.length) start (items.flatMap enc) (items.map val) := by
  induction items generalizing start with
  | nil => exact Reads.pure [] start
  | cons a items ih =>
      have hrest := ih (fun b hb => hp b (List.mem_cons_of_mem _ hb))
        (fun b hb => hgood b (List.mem_cons_of_mem _ hb)) _
        (hgood a List.mem_cons_self start hstart)
      refine (hp a List.mem_cons_self start hstart).bind ?_
      exact hrest.map (List.cons (val a))

theorem reads_sectionIf {p : Parser ε α} (start : ℕ) (enc : α → List UInt8) {value : Option α}
    (hp : ∀ a, value = some a → Reads p start (enc a) a) :
    Reads (sectionIf value.isSome p) start (value.elim [] enc) value := by
  cases value with
  | none => exact Reads.pure none start
  | some a => exact (hp a rfl).map some

theorem length_words (ws : List ℕ) : (ws.flatMap (leBytes 8)).length = 8 * ws.length := by
  induction ws with
  | nil => rfl
  | cons w ws ih =>
      rw [List.flatMap_cons, List.length_append, length_leBytes, ih, List.length_cons]
      ring

/-- Words one after the other. -/
theorem reads_words (e : ε) (start : ℕ) (ws : List ℕ) (hws : ∀ w ∈ ws, w < 256 ^ 8) :
    Reads (times (word e) ws.length) start (ws.flatMap (leBytes 8)) ws := by
  have hread := reads_times (leBytes 8) id (fun _ => True) ws
    (fun w hw start _ => reads_word e start (hws w hw)) (fun _ _ _ _ => trivial) start
    trivial
  rwa [List.map_id] at hread

/-! ## Errors -/

variable {kind : ε → Prop}

theorem FailsWith.pure (a : α) : FailsWith kind (Pure.pure a : Parser ε α) := by
  rintro c e h
  cases h

theorem FailsWith.throw {e : ε} (he : kind e) : FailsWith kind (throw e : Parser ε α) := by
  rintro c e' h
  cases h
  exact he

theorem FailsWith.bind {p : Parser ε α} {f : α → Parser ε β} (hp : FailsWith kind p)
    (hf : ∀ a, FailsWith kind (f a)) : FailsWith kind (p >>= f) := by
  rintro c e h
  rw [bind_apply] at h
  rcases hpc : p c with e' | ⟨a, c₁⟩
  · rw [hpc] at h
    cases h
    exact hp c e hpc
  · rw [hpc] at h
    exact hf a c₁ e h

theorem FailsWith.map {p : Parser ε α} (hp : FailsWith kind p) (f : α → β) :
    FailsWith kind (f <$> p) := FailsWith.bind hp fun a => FailsWith.pure (f a)

theorem failsWith_take {e : ε} (he : kind e) (n : ℕ) : FailsWith kind (take e n) := by
  rintro c e' h
  unfold take at h
  split at h
  · cases h
  · cases h
    exact he

theorem failsWith_word {e : ε} (he : kind e) : FailsWith kind (word e) :=
  (failsWith_take he 8).map fromLe

theorem failsWith_require {e : ε} (he : kind e) (p : Prop) [Decidable p] :
    FailsWith kind (require e p) := by
  unfold require
  split
  · exact FailsWith.pure ()
  · exact FailsWith.throw he

theorem failsWith_aligned {e : ε} (he : kind e) (n : ℕ) : FailsWith kind (aligned e n) := by
  rintro c e' h
  unfold aligned at h
  split at h
  · cases h
  · cases h
    exact he

theorem failsWith_call {r : Except ε α} (hr : ∀ e, r = .error e → kind e) :
    FailsWith kind (call r) := by
  rintro c e h
  rcases r with e' | a
  · cases h
    exact hr e rfl
  · cases h

theorem FailsWith.ite {c : Prop} [Decidable c] {p p' : Parser ε α} (hp : FailsWith kind p)
    (hp' : FailsWith kind p') : FailsWith kind (if c then p else p') := by
  split
  · exact hp
  · exact hp'

theorem FailsWith.sectionIf {p : Parser ε α} (hp : FailsWith kind p) (present : Bool) :
    FailsWith kind (sectionIf present p) := FailsWith.ite (hp.map some) (FailsWith.pure none)

theorem FailsWith.times {p : Parser ε α} (hp : FailsWith kind p) (n : ℕ) :
    FailsWith kind (times p n) := by
  induction n with
  | zero => exact FailsWith.pure []
  | succ n ih => exact hp.bind fun a => ih.bind fun rest => FailsWith.pure (a :: rest)

/-! ## Rejections -/

theorem rejects_throw {e : ε} (he : kind e) (start : ℕ) (bytes : List UInt8) :
    Rejects kind (throw e : Parser ε α) start bytes := fun _ => ⟨e, rfl, he⟩

theorem rejects_require {e : ε} (he : kind e) {p : Prop} [Decidable p] (hp : ¬p) (start : ℕ)
    (bytes : List UInt8) : Rejects kind (require e p) start bytes := by
  rw [require, if_neg hp]
  exact rejects_throw he start bytes

theorem Rejects.bind {p : Parser ε α} {start : ℕ} {bytes : List UInt8}
    (hp : Rejects kind p start bytes) (f : α → Parser ε β) :
    Rejects kind (p >>= f) start bytes := by
  intro rest
  obtain ⟨e, hrun, he⟩ := hp rest
  refine ⟨e, ?_, he⟩
  rw [bind_apply, hrun]
  rfl

/-- A rejection after a part that is read. -/
theorem Reads.rejects {p : Parser ε α} {f : α → Parser ε β} {start : ℕ} {bytes more : List UInt8}
    {a : α} (hp : Reads p start bytes a) (hf : Rejects kind (f a) (start + bytes.length) more) :
    Rejects kind (p >>= f) start (bytes ++ more) := by
  intro rest
  obtain ⟨e, hrun, he⟩ := hf rest
  refine ⟨e, ?_, he⟩
  rw [List.append_assoc, bind_apply, hp]
  exact hrun

/-- What follows does not help. -/
theorem Rejects.append {p : Parser ε α} {start : ℕ} {bytes : List UInt8}
    (hp : Rejects kind p start bytes) (more : List UInt8) :
    Rejects kind p start (bytes ++ more) := by
  intro rest
  rw [List.append_assoc]
  exact hp _

theorem Rejects.run {e : ε} {p : Parser ε α} {start : ℕ} {bytes : List UInt8}
    (hp : Rejects kind p start bytes) : ∃ f, run e p start bytes = .error f ∧ kind f := by
  obtain ⟨f, hrun, hf⟩ := hp []
  rw [List.append_nil] at hrun
  refine ⟨f, ?_, hf⟩
  rw [Codec.run, hrun]

/-! ## Complete files -/

/-- **A byte string begins with at most one encoding.** -/
theorem reads_unique {p : Parser ε α} {start : ℕ} {bytes bytes' : List UInt8} {a a' : α}
    (rest rest' : List UInt8) (h : Reads p start bytes a) (h' : Reads p start bytes' a')
    (heq : bytes ++ rest = bytes' ++ rest') : a = a' ∧ bytes = bytes' := by
  have hrun := h rest
  rw [heq, h' rest'] at hrun
  obtain ⟨hval, hcursor⟩ := Prod.mk.inj (Except.ok.inj hrun)
  obtain ⟨-, hrest⟩ := Cursor.mk.inj hcursor
  rw [hrest] at heq
  exact ⟨hval.symm, List.append_cancel_right heq⟩

theorem run_eq_ok {e : ε} {p : Parser ε α} {start : ℕ} {bytes : List UInt8} {a : α}
    (h : Reads p start bytes a) : run e p start bytes = .ok a := by
  have hrun := h []
  rw [List.append_nil] at hrun
  rw [run, hrun]
  exact if_pos rfl

/-- The errors of a complete file. -/
theorem FailsWith.run {e : ε} {p : Parser ε α} (hp : FailsWith kind p) (he : kind e) (start : ℕ)
    (bytes : List UInt8) {f : ε} (h : run e p start bytes = .error f) : kind f := by
  unfold Codec.run at h
  rcases hpc : p ⟨start, bytes⟩ with f' | ⟨a, c⟩
  · rw [hpc] at h
    cases h
    exact hp _ _ hpc
  · rw [hpc] at h
    dsimp only at h
    split at h
    · cases h
    · cases h
      exact he

/-- **A strict prefix of an encoding is none.** -/
theorem not_reads_strict_prefix {p : Parser ε α} {start : ℕ} {bytes more : List UInt8} {a : α}
    (h : Reads p start (bytes ++ more) a) (hmore : more ≠ []) (b : α) :
    ¬Reads p start bytes b := by
  intro hpart
  obtain ⟨-, heq⟩ := reads_unique more [] hpart h (List.append_nil _).symm
  exact hmore (List.append_right_eq_self.mp heq.symm)

end Codec
