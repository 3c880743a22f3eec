import Mathlib.Tactic

/-!
# Loops of fallible calls

Rules for `Except`: a call that returned hands its value on, and a traversal or a fold whose calls
all return is the traversal or fold of their values.  `foldlM_prefix` is the invariant rule of a
loop over a list: what one step establishes of one more item holds after the loop of all items.
-/

namespace Loops

section Bind

variable {ε α β : Type}

/-- A call that returned hands its value on. -/
@[simp] theorem ok_bind (a : α) (f : α → Except ε β) :
    ((Except.ok a : Except ε α) >>= f) = f a := rfl

/-- A call that failed ends the caller. -/
@[simp] theorem error_bind (e : ε) (f : α → Except ε β) :
    ((Except.error e : Except ε α) >>= f) = Except.error e := rfl

/-- A sequence that returned is two calls that returned. -/
theorem bind_eq_ok {call : Except ε α} {f : α → Except ε β} {b : β} (h : call >>= f = .ok b) :
    ∃ a, call = .ok a ∧ f a = .ok b := by
  cases call with
  | error e => cases h
  | ok a => exact ⟨a, rfl, h⟩

end Bind

section Lists

variable {ε α β γ : Type}

/-- A traversal whose calls all return. -/
theorem mapM_eq_ok {f : α → Except ε β} {g : α → β} {l : List α} (h : ∀ a ∈ l, f a = .ok (g a)) :
    l.mapM f = .ok (l.map g) := by
  induction l with
  | nil => rfl
  | cons a l ih =>
      have hhead := h a List.mem_cons_self
      have htail := ih fun b hb => h b (List.mem_cons_of_mem _ hb)
      rw [List.mapM_cons, hhead, ok_bind, htail, ok_bind]
      rfl

/-- A traversal whose calls all return, without naming what they return. -/
theorem exists_mapM_eq_ok {f : α → Except ε β} {l : List α} (h : ∀ a ∈ l, ∃ b, f a = .ok b) :
    ∃ bs, l.mapM f = .ok bs := by
  induction l with
  | nil => exact ⟨[], rfl⟩
  | cons a l ih =>
      obtain ⟨b, hb⟩ := h a List.mem_cons_self
      obtain ⟨bs, hbs⟩ := ih fun a' ha' => h a' (List.mem_cons_of_mem _ ha')
      refine ⟨b :: bs, ?_⟩
      rw [List.mapM_cons, hb, ok_bind, hbs, ok_bind]
      rfl

/-- A traversal that returned holds the values of its calls. -/
theorem forall₂_of_mapM_eq_ok {f : α → Except ε β} {l : List α} {bs : List β}
    (h : l.mapM f = .ok bs) : List.Forall₂ (fun a b => f a = .ok b) l bs := by
  induction l generalizing bs with
  | nil =>
      cases h
      exact List.Forall₂.nil
  | cons a l ih =>
      rw [List.mapM_cons] at h
      obtain ⟨b, hb, h⟩ := bind_eq_ok h
      obtain ⟨rest, hrest, h⟩ := bind_eq_ok h
      cases h
      exact List.Forall₂.cons hb (ih hrest)

/-- Two lists that a third one is related to. -/
theorem forall₂_join {rel : α → β → Prop} {rel' : α → γ → Prop} {post : β → γ → Prop} {l : List α}
    {bs : List β} {cs : List γ} (h : List.Forall₂ rel l bs) (h' : List.Forall₂ rel' l cs)
    (hpost : ∀ a b c, rel a b → rel' a c → post b c) : List.Forall₂ post bs cs := by
  induction h generalizing cs with
  | nil =>
      cases h'
      exact List.Forall₂.nil
  | cons hab _ ih =>
      cases h' with
      | cons hac h' => exact List.Forall₂.cons (hpost _ _ _ hab hac) (ih h')

/-- A traversal of what another list is related to. -/
theorem mapM_of_forall₂ {rel : α → β → Prop} {post : α → γ → Prop} {f : β → Except ε γ}
    {l : List α} {bs : List β} (hall : List.Forall₂ rel l bs)
    (h : ∀ a b, a ∈ l → rel a b → ∃ c, f b = .ok c ∧ post a c) :
    ∃ cs, bs.mapM f = .ok cs ∧ List.Forall₂ post l cs := by
  induction hall with
  | nil => exact ⟨[], rfl, List.Forall₂.nil⟩
  | @cons a b l bs hab _ ih =>
      obtain ⟨c, hc, hpost⟩ := h a b List.mem_cons_self hab
      obtain ⟨cs, hcs, hposts⟩ := ih fun a' b' ha' => h a' b' (List.mem_cons_of_mem _ ha')
      refine ⟨c :: cs, ?_, List.Forall₂.cons hpost hposts⟩
      rw [List.mapM_cons, hc, ok_bind, hcs, ok_bind]
      rfl

/-- Lists related by an equation of images have equal images. -/
theorem map_eq_map_of_forall₂ {δ : Type*} {f : α → δ} {g : β → δ} {l : List α} {l' : List β}
    (h : List.Forall₂ (fun a b => f a = g b) l l') : l.map f = l'.map g := by
  rw [← List.forall₂_eq_eq_eq, List.forall₂_map_left_iff, List.forall₂_map_right_iff]
  exact h

/-- Traversals of two lists agree if they agree position by position. -/
theorem mapM_eq_mapM {f : α → Except ε γ} {f' : β → Except ε γ} (l : List α)
    (l' : List β) (hlen : l.length = l'.length)
    (h : ∀ i (hi : i < l.length) (hi' : i < l'.length), f l[i] = f' l'[i]) :
    l.mapM f = l'.mapM f' := by
  induction l generalizing l' with
  | nil =>
      obtain rfl : l' = [] := List.length_eq_zero_iff.mp hlen.symm
      rfl
  | cons a l ih =>
      cases l' with
      | nil => simp at hlen
      | cons a' l' =>
          have hhead : f a = f' a' := h 0 (by simp) (by simp)
          have htail := ih l' (by simpa using hlen) fun i hi hi' =>
            h (i + 1) (by simpa using hi) (by simpa using hi')
          rw [List.mapM_cons, List.mapM_cons, hhead, htail]

/-- Traversals whose calls return the same. -/
theorem mapM_agree {f : α → Except ε γ} {f' : β → Except ε γ} {l : List α} {l' : List β}
    (h : List.Forall₂ (fun a b => ∃ c, f a = .ok c ∧ f' b = .ok c) l l') :
    ∃ cs, l.mapM f = .ok cs ∧ l'.mapM f' = .ok cs := by
  induction h with
  | nil => exact ⟨[], rfl, rfl⟩
  | cons hab _ ih =>
      obtain ⟨c, hc, hc'⟩ := hab
      obtain ⟨cs, hcs, hcs'⟩ := ih
      refine ⟨c :: cs, ?_, ?_⟩
      · rw [List.mapM_cons, hc, ok_bind, hcs, ok_bind]
        rfl
      · rw [List.mapM_cons, hc', ok_bind, hcs', ok_bind]
        rfl

/-- A loop of checks that all pass. -/
theorem forM_eq_ok {f : α → Except ε Unit} {l : List α} (h : ∀ a ∈ l, f a = .ok ()) :
    l.forM f = .ok () := by
  induction l with
  | nil => rfl
  | cons a l ih =>
      rw [List.forM_eq_forM, List.forM_cons, h a List.mem_cons_self, ok_bind]
      exact ih fun b hb => h b (List.mem_cons_of_mem _ hb)

/-- A loop of checks that meets one that fails. -/
theorem forM_eq_error {f : α → Except ε Unit} {l : List α}
    (h : ∃ a ∈ l, ∃ e, f a = .error e) : ∃ a ∈ l, ∃ e, f a = .error e ∧ l.forM f = .error e := by
  induction l with
  | nil => simp at h
  | cons a l ih =>
      rw [List.forM_eq_forM, List.forM_cons]
      rcases hfirst : f a with e | u
      · exact ⟨a, List.mem_cons_self, e, hfirst, rfl⟩
      · obtain ⟨b, hb, e, hbad⟩ := h
        rcases List.mem_cons.mp hb with rfl | hb
        · rw [hfirst] at hbad
          cases hbad
        · obtain ⟨b, hb, e, hbad, hrun⟩ := ih ⟨b, hb, e, hbad⟩
          exact ⟨b, List.mem_cons_of_mem _ hb, e, hbad, hrun⟩

/-- Loops whose steps agree on the items. -/
theorem foldlM_congr {α σ ε : Type} {f g : σ → α → Except ε σ} {l : List α}
    (h : ∀ a ∈ l, ∀ s, f s a = g s a) (s : σ) : l.foldlM f s = l.foldlM g s := by
  induction l generalizing s with
  | nil => rfl
  | cons a l ih =>
      rw [List.foldlM_cons, List.foldlM_cons, h a List.mem_cons_self]
      refine congrArg _ (funext fun next => ?_)
      exact ih (fun b hb => h b (List.mem_cons_of_mem _ hb)) next

/-- **The invariant rule of a loop** that has returned. -/
theorem foldlM_of_ok {f : β → α → Except ε β} (Inv : β → Prop) {l : List α} {start out : β}
    (hstart : Inv start)
    (hstep : ∀ a ∈ l, ∀ acc next, Inv acc → f acc a = .ok next → Inv next)
    (hrun : l.foldlM f start = .ok out) : Inv out := by
  induction l generalizing start with
  | nil =>
      obtain rfl := Except.ok.inj hrun
      exact hstart
  | cons a l ih =>
      rw [List.foldlM_cons] at hrun
      obtain ⟨next, hnext, hrun⟩ := bind_eq_ok hrun
      exact ih (hstep a List.mem_cons_self start next hstart hnext)
        (fun b hb => hstep b (List.mem_cons_of_mem _ hb)) hrun

/-- **The invariant rule of a loop**, with the items that are done as the index of the
invariant. -/
theorem foldlM_prefix {f : β → α → Except ε β} (Inv : List α → β → Prop) (l : List α)
    (start : β) (hstart : Inv [] start)
    (hstep : ∀ done a rest acc, l = done ++ a :: rest → Inv done acc →
      ∃ next, f acc a = .ok next ∧ Inv (done ++ [a]) next) :
    ∃ out, l.foldlM f start = .ok out ∧ Inv l out := by
  have hrun : ∀ rest done acc, l = done ++ rest → Inv done acc →
      ∃ out, rest.foldlM f acc = .ok out ∧ Inv l out := by
    intro rest
    induction rest with
    | nil =>
        intro done acc hl hacc
        rw [List.append_nil] at hl
        exact ⟨acc, rfl, hl ▸ hacc⟩
    | cons a rest ih =>
        intro done acc hl hacc
        obtain ⟨next, hnext, hinv⟩ := hstep done a rest acc hl hacc
        obtain ⟨out, hout, hfinal⟩ := ih (done ++ [a]) next (by simpa using hl) hinv
        refine ⟨out, ?_, hfinal⟩
        rw [List.foldlM_cons, hnext, ok_bind, hout]
  exact hrun l [] start rfl hstart

end Lists

end Loops
