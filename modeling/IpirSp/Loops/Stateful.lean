import IpirSp.Loops.Calls

/-!
# Fallible calls that thread a state

Rules for `StateT` over `Except`, such as a call that draws from a generator.  `Yields p post` says
that whatever `p` returns satisfies `post`, and `Returns p` that `p` returns from every state.  Both
follow a program from call to call; a traversal yields a list that is related item by item.
-/

namespace Loops

variable {σ ε α β γ : Type}

/-- A call without the state. -/
def stateless (call : Except ε α) : StateT σ (Except ε) α := fun s => call.map fun a => (a, s)

/-- Whatever the program returns satisfies `post`. -/
def Yields (p : StateT σ (Except ε) α) (post : α → Prop) : Prop :=
  ∀ s a s', p s = .ok (a, s') → post a

/-- The program returns from every state. -/
def Returns (p : StateT σ (Except ε) α) : Prop := ∀ s, ∃ a s', p s = .ok (a, s')

/-- A sequence that returned is two programs that returned. -/
theorem run_bind_eq_ok {p : StateT σ (Except ε) α} {f : α → StateT σ (Except ε) β} {s s' : σ}
    {b : β} (h : (p >>= f) s = .ok (b, s')) :
    ∃ a t, p s = .ok (a, t) ∧ f a t = .ok (b, s') := by
  obtain ⟨⟨a, t⟩, hp, hf⟩ := bind_eq_ok (show (p s >>= fun out => f out.1 out.2) = _ from h)
  exact ⟨a, t, hp, hf⟩

theorem run_bind {p : StateT σ (Except ε) α} {f : α → StateT σ (Except ε) β} {s t : σ} {a : α}
    (h : p s = .ok (a, t)) : (p >>= f) s = f a t := by
  show (p s >>= fun out => f out.1 out.2) = _
  rw [h]
  rfl

theorem Yields.pure {post : α → Prop} {a : α} (h : post a) :
    Yields (Pure.pure a : StateT σ (Except ε) α) post := by
  intro s a' s' hrun
  cases hrun
  exact h

theorem Yields.bind {p : StateT σ (Except ε) α} {f : α → StateT σ (Except ε) β}
    {mid : α → Prop} {post : β → Prop} (hp : Yields p mid) (hf : ∀ a, mid a → Yields (f a) post) :
    Yields (p >>= f) post := by
  intro s b s' h
  obtain ⟨a, t, hrun, hrest⟩ := run_bind_eq_ok h
  exact hf a (hp s a t hrun) t b s' hrest

theorem Yields.mono {p : StateT σ (Except ε) α} {post post' : α → Prop} (hp : Yields p post)
    (h : ∀ a, post a → post' a) : Yields p post' :=
  fun s a s' hrun => h a (hp s a s' hrun)

theorem yields_stateless (call : Except ε α) :
    Yields (stateless call : StateT σ (Except ε) α) (call = .ok ·) := by
  intro s a s' h
  cases call with
  | error e => cases h
  | ok a' =>
      cases h
      rfl

/-- **A traversal yields its items' results**, in order. -/
theorem yields_mapM {f : α → StateT σ (Except ε) β} {rel : α → β → Prop} {l : List α}
    (h : ∀ a ∈ l, Yields (f a) (rel a)) : Yields (l.mapM f) (List.Forall₂ rel l) := by
  induction l with
  | nil => exact Yields.pure List.Forall₂.nil
  | cons a l ih =>
      rw [List.mapM_cons]
      refine (h a List.mem_cons_self).bind fun b hb => ?_
      refine (ih fun a' ha' => h a' (List.mem_cons_of_mem _ ha')).bind fun bs hbs => ?_
      exact Yields.pure (List.Forall₂.cons hb hbs)

/-- A traversal whose calls all yield `post`. -/
theorem yields_mapM_all {f : α → StateT σ (Except ε) β} {post : β → Prop} {l : List α}
    (h : ∀ a ∈ l, Yields (f a) post) :
    Yields (l.mapM f) fun bs => bs.length = l.length ∧ ∀ b ∈ bs, post b := by
  have hrel : Yields (l.mapM f) (List.Forall₂ (fun _ => post) l) := yields_mapM h
  refine hrel.mono fun bs hall => ⟨hall.length_eq.symm, ?_⟩
  induction hall with
  | nil => exact fun b hb => absurd hb List.not_mem_nil
  | cons hfirst _ ih =>
      have hrest := ih (fun a ha => h a (List.mem_cons_of_mem _ ha))
        (yields_mapM fun a ha => h a (List.mem_cons_of_mem _ ha))
      exact List.forall_mem_cons.mpr ⟨hfirst, hrest⟩

theorem returns_pure (a : α) : Returns (Pure.pure a : StateT σ (Except ε) α) :=
  fun s => ⟨a, s, rfl⟩

/-- A later program may rely on what an earlier one yields. -/
theorem Returns.bind {p : StateT σ (Except ε) α} {f : α → StateT σ (Except ε) β}
    {mid : α → Prop} (hp : Returns p) (hmid : Yields p mid) (hf : ∀ a, mid a → Returns (f a)) :
    Returns (p >>= f) := by
  intro s
  obtain ⟨a, t, hrun⟩ := hp s
  obtain ⟨b, s', hrest⟩ := hf a (hmid s a t hrun) t
  exact ⟨b, s', (run_bind hrun).trans hrest⟩

theorem returns_stateless {call : Except ε α} {a : α} (h : call = .ok a) :
    Returns (stateless call : StateT σ (Except ε) α) := by
  intro s
  rw [h]
  exact ⟨a, s, rfl⟩

theorem returns_mapM {f : α → StateT σ (Except ε) β} {l : List α}
    (h : ∀ a ∈ l, Returns (f a)) : Returns (l.mapM f) := by
  induction l with
  | nil => exact returns_pure []
  | cons a l ih =>
      rw [List.mapM_cons]
      refine (h a List.mem_cons_self).bind (fun _ _ _ _ => trivial) fun b _ => ?_
      refine (ih fun a' ha' => h a' (List.mem_cons_of_mem _ ha')).bind (fun _ _ _ _ => trivial) ?_
      exact fun bs _ => returns_pure (b :: bs)

end Loops
