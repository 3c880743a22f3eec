import IpirSp.Codec.Canonical

/-!
# Parsers in lockstep

Two parsers of one file that may represent what they read differently.  `InStep I p p' R` says that
from every cursor with the invariant `I` they fail together or succeed together, and then stop at
the same cursor, again with `I`, with results in the relation `R`.

A parser is in step with itself as soon as what it consumes keeps the invariant (`InStep.refl`); the
rules for `bind` and `times` put such steps together.
-/

namespace Codec

variable {ε ε' α β γ δ : Type} {I : Cursor → Prop}

/-- `p` and `p'` succeed together, at the same cursor and with related results. -/
def InStep (I : Cursor → Prop) (p : Parser ε α) (p' : Parser ε' β) (R : α → β → Prop) : Prop :=
  ∀ c, I c → (∃ a b c', p c = .ok (a, c') ∧ p' c = .ok (b, c') ∧ I c' ∧ R a b) ∨
    ((∃ e, p c = .error e) ∧ ∃ e, p' c = .error e)

theorem InStep.pure {R : α → β → Prop} {a : α} {b : β} (h : R a b) :
    InStep I (Pure.pure a : Parser ε α) (Pure.pure b : Parser ε' β) R :=
  fun c hc => .inl ⟨a, b, c, rfl, rfl, hc, h⟩

theorem InStep.bind {p : Parser ε α} {p' : Parser ε' β} {R : α → β → Prop} {f : α → Parser ε γ}
    {f' : β → Parser ε' δ} {S : γ → δ → Prop} (hp : InStep I p p' R)
    (hf : ∀ a b, R a b → InStep I (f a) (f' b) S) : InStep I (p >>= f) (p' >>= f') S := by
  intro c hc
  rcases hp c hc with ⟨a, b, c', hrun, hrun', hc', hR⟩ | ⟨⟨e, hrun⟩, e', hrun'⟩
  · rcases hf a b hR c' hc' with ⟨x, y, c'', hnext, hnext', hc'', hS⟩ | ⟨⟨e, hnext⟩, e', hnext'⟩
    · refine .inl ⟨x, y, c'', ?_, ?_, hc'', hS⟩
      · rw [bind_apply, hrun]
        exact hnext
      · rw [bind_apply, hrun']
        exact hnext'
    · refine .inr ⟨⟨e, ?_⟩, e', ?_⟩
      · rw [bind_apply, hrun]
        exact hnext
      · rw [bind_apply, hrun']
        exact hnext'
  · refine .inr ⟨⟨e, ?_⟩, e', ?_⟩
    · rw [bind_apply, hrun]
      rfl
    · rw [bind_apply, hrun']
      rfl

/-- **A parser is in step with itself.** -/
theorem InStep.refl {p : Parser ε α} {R : α → List UInt8 → Prop} (hp : Consumes p R)
    (hI : ∀ c a c' bytes, I c → c.rest = bytes ++ c'.rest → c'.pos = c.pos + bytes.length →
      R a bytes → I c') : InStep I p p Eq := by
  intro c hc
  rcases hrun : p c with e | ⟨a, c'⟩
  · exact .inr ⟨⟨e, rfl⟩, e, rfl⟩
  · obtain ⟨bytes, hrest, hpos, hR⟩ := hp c a c' hrun
    exact .inl ⟨a, a, c', rfl, rfl, hI c a c' bytes hc hrest hpos hR, rfl⟩

/-- **The same number of items.** -/
theorem InStep.times {p : Parser ε α} {p' : Parser ε' β} {R : α → β → Prop} (hp : InStep I p p' R)
    (n : ℕ) : InStep I (times p n) (times p' n) fun xs ys =>
      List.Forall₂ R xs ys ∧ xs.length = n := by
  induction n with
  | zero => exact InStep.pure ⟨List.Forall₂.nil, rfl⟩
  | succ n ih =>
      refine hp.bind fun a b hR => ih.bind fun xs ys hRs => ?_
      refine InStep.pure ⟨List.Forall₂.cons hR hRs.1, ?_⟩
      rw [List.length_cons, hRs.2]

/-- Items in two parts. -/
theorem times_add (p : Parser ε α) (m n : ℕ) :
    times p (m + n) = times p m >>= fun xs => times p n >>= fun ys => pure (xs ++ ys) := by
  induction m with
  | zero =>
      rw [Nat.zero_add]
      show _ = (pure [] >>= fun xs => times p n >>= fun ys => pure (xs ++ ys))
      rw [pure_bind]
      exact (bind_pure (times p n)).symm
  | succ m ih =>
      rw [Nat.succ_add]
      simp only [times, ih, bind_assoc, pure_bind, List.cons_append]

end Codec
