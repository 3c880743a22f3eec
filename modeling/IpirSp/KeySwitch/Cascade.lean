import Mathlib.Data.Matrix.Mul
import Mathlib.Tactic

/-!
# Key-switching cascades

A cascade holds a stack of ciphertext components, component `i` to be decrypted with the secret
image `σ i`, and repeatedly folds the topmost component into the one below it.  A fold writes the
component in gadget digits `D`, adds `top i ⬝ᵥ D` to the component below and `body i ⬝ᵥ D` to the
running body, where `(top i, body i)` encrypts the gadget multiples of `σ (i + 1)` under `σ i`
(`IsKeyFamily`).

The stack is a list with the topmost component first, so the index of a component is the number of
components below it, and both the definitions and the proofs recurse along the list.  Digits are an
argument rather than a function of the component: a cascade that recomputes them, one that replays
recorded ones and one whose decomposition only approximates the component are the same definition.
What a decomposition misses is `residues`.

`step_phase` is what one fold does to the phase, and `phase_foldSlots` is the run lemma.
-/

open Matrix

namespace KeySwitch

variable {A : Type*} {ℓ : ℕ}

section Definitions

variable [CommRing A]

/-- The contribution `∑ i, σ i * a i` of a stack to the phase. -/
def slotSum (σ : ℕ → A) : List A → A
  | [] => 0
  | a :: rest => σ rest.length * a + slotSum σ rest

/-- The sum of the products of a schedule of digit vectors with the rows `v i`, where the first
digit vector meets the row of largest index. -/
def dotSum (v : ℕ → Fin ℓ → A) : List (Fin ℓ → A) → A
  | [] => 0
  | D :: ds => v ds.length ⬝ᵥ D + dotSum v ds

/-- Fold the topmost component `cur` into the stack below it, once for every digit vector. -/
def foldSlots (top : ℕ → Fin ℓ → A) : A → List A → List (Fin ℓ → A) → A
  | _, prev :: below, D :: ds => foldSlots top (prev + top below.length ⬝ᵥ D) below ds
  | cur, _, _ => cur

/-- What the digit vectors leave unrepresented of the components they are meant for. -/
def residues (g : Fin ℓ → A) (top : ℕ → Fin ℓ → A) : A → List A → List (Fin ℓ → A) → List A
  | cur, prev :: below, D :: ds =>
      (cur - g ⬝ᵥ D) :: residues g top (prev + top below.length ⬝ᵥ D) below ds
  | _, _, _ => []

/-- The first `n` members of a family of switching keys: key `i` encrypts the gadget multiples of
`σ (i + 1)` under `σ i`, with error `err i`. -/
def IsKeyFamily (n : ℕ) (g : Fin ℓ → A) (σ : ℕ → A) (top body err : ℕ → Fin ℓ → A) : Prop :=
  ∀ i < n, ∀ k, body i k = -(σ i * top i k) + err i k + σ (i + 1) * g k

end Definitions

section Algebra

variable [CommRing A] {g : Fin ℓ → A} {σ : ℕ → A} {top body err : ℕ → Fin ℓ → A}

@[simp] theorem slotSum_nil (σ : ℕ → A) : slotSum σ [] = 0 := rfl

@[simp] theorem slotSum_cons (σ : ℕ → A) (a : A) (rest : List A) :
    slotSum σ (a :: rest) = σ rest.length * a + slotSum σ rest := rfl

@[simp] theorem dotSum_nil (v : ℕ → Fin ℓ → A) : dotSum v [] = 0 := rfl

@[simp] theorem dotSum_cons (v : ℕ → Fin ℓ → A) (D : Fin ℓ → A) (ds : List (Fin ℓ → A)) :
    dotSum v (D :: ds) = v ds.length ⬝ᵥ D + dotSum v ds := rfl

@[simp] theorem foldSlots_nil (top : ℕ → Fin ℓ → A) (cur : A) (ds : List (Fin ℓ → A)) :
    foldSlots top cur [] ds = cur := by
  cases ds <;> rfl

@[simp] theorem foldSlots_cons (top : ℕ → Fin ℓ → A) (cur prev : A) (below : List A)
    (D : Fin ℓ → A) (ds : List (Fin ℓ → A)) :
    foldSlots top cur (prev :: below) (D :: ds) =
      foldSlots top (prev + top below.length ⬝ᵥ D) below ds := rfl

@[simp] theorem residues_cons (cur prev : A) (below : List A) (D : Fin ℓ → A)
    (ds : List (Fin ℓ → A)) :
    residues g top cur (prev :: below) (D :: ds) =
      (cur - g ⬝ᵥ D) :: residues g top (prev + top below.length ⬝ᵥ D) below ds := rfl

theorem length_residues (cur : A) (below : List A) (ds : List (Fin ℓ → A)) :
    (residues g top cur below ds).length = min below.length ds.length := by
  induction below generalizing cur ds with
  | nil => cases ds <;> simp [residues]
  | cons prev below ih =>
      cases ds with
      | nil => simp [residues]
      | cons D ds => simp [ih, Nat.succ_min_succ]

/-- A stack listed from component `0` upwards contributes the sum over its indices. -/
theorem slotSum_reverse_map_range (σ : ℕ → A) (a : ℕ → A) (n : ℕ) :
    slotSum σ ((List.range n).map a).reverse = ∑ i ∈ Finset.range n, σ i * a i := by
  induction n with
  | zero => simp
  | succ n ih =>
      rw [List.range_succ, List.map_append, List.reverse_append, Finset.sum_range_succ, ← ih]
      simp [add_comm]

/-- A stack of zeros contributes nothing. -/
theorem slotSum_eq_zero (σ : ℕ → A) {l : List A} (h : ∀ a ∈ l, a = 0) : slotSum σ l = 0 := by
  induction l with
  | nil => rfl
  | cons a rest ih =>
      rw [slotSum_cons, h a List.mem_cons_self, mul_zero, zero_add]
      exact ih fun b hb => h b (List.mem_cons_of_mem _ hb)

theorem slotSum_neg (σ : ℕ → A) (l : List A) : slotSum σ (l.map fun a => -a) = -slotSum σ l := by
  induction l with
  | nil => simp
  | cons a rest ih =>
      rw [List.map_cons, slotSum_cons, slotSum_cons, ih, List.length_map]
      ring

/-- A schedule of products is the sum over its positions. -/
theorem dotSum_eq_sum (v : ℕ → Fin ℓ → A) (ds : List (Fin ℓ → A)) :
    dotSum v ds = ∑ j ∈ Finset.range ds.length, v (ds.length - 1 - j) ⬝ᵥ ds.getD j 0 := by
  induction ds with
  | nil => simp
  | cons D ds ih =>
      rw [dotSum_cons, ih, List.length_cons, Finset.sum_range_succ', add_comm]
      refine congrArg₂ (· + ·) (Finset.sum_congr rfl fun j _ => ?_) (by simp)
      rw [List.getD_cons_succ, show ds.length + 1 - 1 - (j + 1) = ds.length - 1 - j by omega]

/-- **One fold keeps the phase** up to its key error and its decomposition residue. -/
theorem step_phase {i : ℕ} {n : ℕ} (hkey : IsKeyFamily n g σ top body err) (hi : i < n)
    (cur prev : A) (D : Fin ℓ → A) :
    σ i * (prev + top i ⬝ᵥ D) + body i ⬝ᵥ D =
      σ (i + 1) * cur + σ i * prev + err i ⬝ᵥ D - σ (i + 1) * (cur - g ⬝ᵥ D) := by
  have hbody : body i ⬝ᵥ D = -(σ i * (top i ⬝ᵥ D)) + err i ⬝ᵥ D + σ (i + 1) * (g ⬝ᵥ D) := by
    have hrow : body i = -(σ i • top i) + err i + σ (i + 1) • g := by
      ext k
      simp [hkey i hi k]
    rw [hrow]
    simp only [add_dotProduct, neg_dotProduct, smul_dotProduct, smul_eq_mul]
  rw [hbody]
  ring

/-- **The phase of a cascade.**  Folding a whole stack leaves its phase, plus every key error times
its digits, minus every decomposition residue times the secret image it was meant for. -/
theorem phase_foldSlots (cur : A) (below : List A) (ds : List (Fin ℓ → A))
    (hlen : ds.length = below.length) (hkey : IsKeyFamily below.length g σ top body err) :
    σ 0 * foldSlots top cur below ds + dotSum body ds =
      slotSum σ (cur :: below) + dotSum err ds -
        slotSum (fun i => σ (i + 1)) (residues g top cur below ds) := by
  induction below generalizing cur ds with
  | nil =>
      obtain rfl : ds = [] := List.length_eq_zero_iff.mp hlen
      simp [residues]
  | cons prev below ih =>
      obtain ⟨D, ds, rfl⟩ : ∃ D ds', ds = D :: ds' := by
        cases ds with
        | nil => simp at hlen
        | cons D ds => exact ⟨D, ds, rfl⟩
      have hlen' : ds.length = below.length := by simpa using hlen
      have hrun := ih (prev + top below.length ⬝ᵥ D) ds hlen' fun i hi => hkey i (by simp; omega)
      have hstep := step_phase hkey (i := below.length) (by simp) cur prev D
      have hres : (residues g top (prev + top below.length ⬝ᵥ D) below ds).length =
          below.length := by
        rw [length_residues, hlen', min_self]
      simp only [slotSum_cons, dotSum_cons, foldSlots_cons, residues_cons, List.length_cons, hlen',
        hres] at hrun ⊢
      linear_combination hrun + hstep

/-- The phase of a cascade whose digits represent every component exactly. -/
theorem phase_foldSlots_of_exact (cur : A) (below : List A) (ds : List (Fin ℓ → A))
    (hlen : ds.length = below.length) (hkey : IsKeyFamily below.length g σ top body err)
    (hexact : ∀ r ∈ residues g top cur below ds, r = 0) :
    σ 0 * foldSlots top cur below ds + dotSum body ds =
      slotSum σ (cur :: below) + dotSum err ds := by
  rw [phase_foldSlots cur below ds hlen hkey, slotSum_eq_zero _ hexact, sub_zero]

end Algebra

end KeySwitch
