import IpirSp.Loops.Writes

/-!
# Threads between two barriers

Between two barriers the threads of a block run in an order that nobody chooses.  A `Phase` says
what one thread does: it reads memory and returns its writes, or nothing where its arithmetic
traps.  `Phase.run` lets the threads run one after the other in a given order.

A phase is race-free if no two threads write the same cell and no thread looks at a cell that
another one writes.  `Phase.run_ok` says that such a phase ends, whatever the order, in the memory
where every written cell holds the value that belongs to it and every other cell what it held
before.
-/

namespace Simt

open Loops

variable {τ ι V : Type} [DecidableEq ι]

/-- What a thread does between two barriers. -/
abbrev Phase (τ ι V : Type) := τ → (ι → V) → Option (List (ι × V))

/-- The threads of `order`, one after the other. -/
def Phase.run (phase : Phase τ ι V) (order : List τ) (mem : ι → V) : Option (ι → V) :=
  order.foldlM (fun mem t => do return applyWrites mem (← phase t mem)) mem

/-- No thread meets another one: a thread that finds the memory of the start of the phase, except
in cells that other threads write, does its own writes, and no cell is written by two threads. -/
structure Phase.RaceFree (phase : Phase τ ι V) (threads : List τ) (mem : ι → V)
    (writes : τ → List (ι × V)) : Prop where
  alone : ∀ t ∈ threads, ∀ seen : ι → V,
    (∀ c, (∀ t' ∈ threads, t' ≠ t → ∀ w ∈ writes t', w.1 ≠ c) → seen c = mem c) →
      phase t seen = some (writes t)
  disjoint : ∀ t ∈ threads, ∀ t' ∈ threads, t ≠ t' → ∀ w ∈ writes t, ∀ w' ∈ writes t', w.1 ≠ w'.1

variable {phase : Phase τ ι V} {threads : List τ} {mem : ι → V} {writes : τ → List (ι × V)}

theorem applyWrites_append (mem : ι → V) (ws ws' : List (ι × V)) :
    applyWrites mem (ws ++ ws') = applyWrites (applyWrites mem ws) ws' := List.foldl_append

/-- The threads of a race-free phase do their own writes, in the given order. -/
theorem Phase.RaceFree.run_eq (hfree : phase.RaceFree threads mem writes) :
    ∀ done rest : List τ, (done ++ rest).Nodup → (∀ t ∈ done ++ rest, t ∈ threads) →
      phase.run rest (applyWrites mem (done.flatMap writes)) =
        some (applyWrites mem ((done ++ rest).flatMap writes)) := by
  intro done rest
  induction rest generalizing done with
  | nil =>
      intro _ _
      rw [List.append_nil]
      rfl
  | cons t rest ih =>
      intro hnodup hmem
      have ht : t ∈ threads := hmem t (by simp)
      have hfresh : t ∉ done := by
        rw [List.nodup_append] at hnodup
        exact fun hin => hnodup.2.2 t hin t List.mem_cons_self rfl
      have hstep := hfree.alone t ht (applyWrites mem (done.flatMap writes)) fun c hc => by
        refine applyWrites_of_notMem fun w hw => ?_
        obtain ⟨t', ht', hw⟩ := List.mem_flatMap.mp hw
        exact hc t' (hmem t' (List.mem_append_left _ ht')) (fun heq => hfresh (heq ▸ ht')) w hw
      have hrest := ih (done ++ [t]) (by simpa using hnodup) (by simpa using hmem)
      rw [List.flatMap_append, List.flatMap_singleton, applyWrites_append] at hrest
      have hnext : done ++ t :: rest = done ++ [t] ++ rest := by simp
      rw [Phase.run, List.foldlM_cons, hstep, hnext]
      exact hrest

/-- **A race-free phase does not depend on the order of its threads.** -/
theorem Phase.run_ok (hfree : phase.RaceFree threads mem writes) (hnodup : threads.Nodup)
    (value : ι → V) (hvalue : ∀ t ∈ threads, ∀ w ∈ writes t, w.2 = value w.1) {order : List τ}
    (horder : order.Perm threads) :
    ∃ mem', phase.run order mem = some mem' ∧
      (∀ t ∈ threads, ∀ w ∈ writes t, mem' w.1 = value w.1) ∧
      ∀ c, (∀ t ∈ threads, ∀ w ∈ writes t, w.1 ≠ c) → mem' c = mem c := by
  have hrun := hfree.run_eq [] order (horder.nodup_iff.mpr hnodup) fun t ht => horder.mem_iff.mp ht
  refine ⟨_, hrun, fun t ht w hw => ?_, fun c hc => ?_⟩
  · refine applyWrites_eq _ _ value (fun w' hw' => ?_) w.1 ⟨w, ?_, rfl⟩
    · obtain ⟨t', ht', hw'⟩ := List.mem_flatMap.mp hw'
      exact hvalue t' (horder.mem_iff.mp ht') w' hw'
    · exact List.mem_flatMap.mpr ⟨t, horder.mem_iff.mpr ht, hw⟩
  · refine applyWrites_of_notMem fun w hw => ?_
    obtain ⟨t, ht, hw⟩ := List.mem_flatMap.mp hw
    exact hc t (horder.mem_iff.mp ht) w hw

omit [DecidableEq ι] in
/-- A phase whose threads read nothing that any of them writes. -/
theorem Phase.raceFree_of_const
    (halone : ∀ t ∈ threads, ∀ seen, phase t seen = some (writes t))
    (hdisjoint : ∀ t ∈ threads, ∀ t' ∈ threads, t ≠ t' → ∀ w ∈ writes t, ∀ w' ∈ writes t',
      w.1 ≠ w'.1) : phase.RaceFree threads mem writes :=
  ⟨fun t ht seen _ => halone t ht seen, hdisjoint⟩

end Simt
