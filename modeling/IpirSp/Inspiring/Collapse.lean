import IpirSp.Inspiring.KeySwitching

/-!
# The collapse

The third stage of packing turns a wide ciphertext with `d` components into an RLWE pair.  Each
half of the components is a cascade in the sense of `IpirSp.KeySwitch.Cascade`: the last component
is switched and added to the one before it until one is left.  The two survivors are merged by one
switch with `K_h`.

A `CollapseState` keeps the `Vec` of components with the last one first, so that the components
still below it form a list and the index of the key image to use is the length of the rest.

Whether a cascade decomposes its components itself, records the digits it used, or replays digits
recorded earlier, its first component is `foldLast`, its digits are `foldDigits` and its body is
`foldBody`; `collapseHalfLoop_eq` and `collectHalfDigits_eq` say so.  In these terms the component
side never looks at a key body.  The last section carries the three functions over to the ring,
where they are the generic cascade.
-/

namespace Inspiring

open Negacyclic SpiralRs KeySwitch

/-- An RLWE ciphertext under the base secret. -/
structure RlweCiphertext (P : RlweParams) where
  c1 : Ntt P.d P.q
  c2 : Ntt P.d P.q
deriving DecidableEq

/-- The intermediate ciphertext `(â, b̃)`. -/
structure IRCtx (P : RlweParams) where
  aHat : List (Ntt P.d P.q)
  bTilde : Poly P.d

/-- Running state of a cascade: the last component, those below it from the top down, and the
body. -/
structure CollapseState (P : RlweParams) where
  last : Ntt P.d P.q
  below : List (Ntt P.d P.q)
  b : Ntt P.d P.q

/-- Indexing a `Vec`. -/
def index {ε α : Type} (v : List α) (i : ℕ) : Except (Failure ε) α :=
  match v[i]? with
  | some a => .ok a
  | none => .error (.panic "index out of bounds")

variable {P : RlweParams}

/-- A state over the components of a `Vec`. -/
def CollapseState.ofVec (a : List (Ntt P.d P.q)) (b : Ntt P.d P.q) : Outcome (CollapseState P) :=
  match a.reverse with
  | last :: below => .ok ⟨last, below, b⟩
  | [] => .error (.panic "collapse_half leaves one component")

/-- The loop of `collapse_half`, with `collapse_one` as its body: what is left of `a` and `b`. -/
def collapseHalfLoop (kgImages : List (KeySwitchingMatrix P)) :
    Ntt P.d P.q → List (Ntt P.d P.q) → Ntt P.d P.q → Outcome (Ntt P.d P.q × Ntt P.d P.q)
  | last, [], b => .ok (last, b)
  | last, prev :: below, b => do
      let image ← index kgImages below.length
      let (deltaA, deltaB) ← ksSwitch image last b
      collapseHalfLoop kgImages (P.spiral.addInto prev deltaA) below deltaB

/-- `collapse_half`. -/
def collapseHalf (state : CollapseState P) (kgImages : List (KeySwitchingMatrix P)) :
    Outcome (Ntt P.d P.q × Ntt P.d P.q) :=
  if kgImages.length = state.below.length then
    collapseHalfLoop kgImages state.last state.below state.b
  else .error (.panic "collapse::collapse_half expects one K_g image per collapse step")

/-- `collapse`. -/
def collapse (agg : IRCtx P) (kgImagesLeft kgImagesRight : List (KeySwitchingMatrix P))
    (kh : KeySwitchingMatrix P) : Outcome (RlweCiphertext P) :=
  if agg.aHat.length ≠ P.d then
    .error (.panic "collapse::collapse expects d a_hat slots")
  else if kgImagesLeft.length ≠ P.d / 2 - 1 then
    .error (.panic "collapse::collapse expects d/2 - 1 left K_g images")
  else if kgImagesRight.length ≠ P.d / 2 - 1 then
    .error (.panic "collapse::collapse expects d/2 - 1 right K_g images")
  else do
    let left := agg.aHat.take (P.d / 2)
    let right := agg.aHat.drop (P.d / 2)
    let b := P.spiral.toNttAlloc agg.bTilde
    let leftState ← CollapseState.ofVec left b
    let (leftA, b) ← collapseHalf leftState kgImagesLeft
    let rightState ← CollapseState.ofVec right b
    let (rightA, b) ← collapseHalf rightState kgImagesRight
    let (deltaA, deltaB) ← ksSwitch kh rightA b
    .ok ⟨P.spiral.addInto leftA deltaA, deltaB⟩

/-- The loop of `collect_half_digits`, with the digits it pushes. -/
def collectHalfDigits (kgImages : List (KeySwitchingMatrix P)) :
    Ntt P.d P.q → List (Ntt P.d P.q) → Ntt P.d P.q →
      Outcome ((Ntt P.d P.q × Ntt P.d P.q) × List (PolyMatrixNTT P.d P.q))
  | last, [], b => .ok ((last, b), [])
  | last, prev :: below, b => do
      let image ← index kgImages below.length
      let digits ← ksDigitsNttFromC1 P last
      let (deltaA, deltaB) ← ksSwitchWithDigitsNtt image digits b
      let (out, ds) ← collectHalfDigits kgImages (P.spiral.addInto prev deltaA) below deltaB
      .ok (out, digits :: ds)

/-! ## The cascade without its bookkeeping -/

section Fold

variable (top body : ℕ → Fin P.gadget.ell → Ntt P.d P.q)

/-- One component after the component above it, with digits `D`, has been switched. -/
def foldPrev (i : ℕ) (prev : Ntt P.d P.q) (D : PolyMatrixNTT P.d P.q) : Ntt P.d P.q :=
  P.spiral.addInto prev (P.spiral.multiply (top i) (D.col P.gadget.ell))

/-- The digits that a cascade decomposes its components into, in execution order. -/
def foldDigits : Ntt P.d P.q → List (Ntt P.d P.q) → List (PolyMatrixNTT P.d P.q)
  | _, [] => []
  | last, prev :: below =>
      digitsNtt P last :: foldDigits (foldPrev top below.length prev (digitsNtt P last)) below

/-- The component that a cascade leaves. -/
def foldLast : Ntt P.d P.q → List (Ntt P.d P.q) → Ntt P.d P.q
  | last, [] => last
  | last, prev :: below =>
      foldLast (foldPrev top below.length prev (digitsNtt P last)) below

/-- The body that a cascade leaves, from the digits it used. -/
def foldBody : List (PolyMatrixNTT P.d P.q) → Ntt P.d P.q → Ntt P.d P.q
  | [], b => b
  | D :: ds, b => foldBody ds
      (P.spiral.addInto (P.spiral.multiply (body ds.length) (D.col P.gadget.ell)) b)

@[simp] theorem length_foldDigits (last : Ntt P.d P.q) (below : List (Ntt P.d P.q)) :
    (foldDigits top last below).length = below.length := by
  induction below generalizing last with
  | nil => rfl
  | cons prev below ih => simp [foldDigits, ih]

theorem foldDigits_shape {last : Ntt P.d P.q} {below : List (Ntt P.d P.q)}
    {D : PolyMatrixNTT P.d P.q} (hD : D ∈ foldDigits top last below) :
    D.rows = P.gadget.ell ∧ D.cols = 1 := by
  induction below generalizing last with
  | nil => cases hD
  | cons prev below ih =>
      rcases List.mem_cons.mp hD with rfl | hD
      · exact ⟨rfl, rfl⟩
      · exact ih hD

end Fold

/-- The images `image 0, …, image (n - 1)` are what a `Vec` of key images holds. -/
def HoldsImages (kgImages : List (KeySwitchingMatrix P)) (n : ℕ)
    (image : ℕ → KeySwitchingMatrix P) : Prop :=
  ∀ i < n, kgImages[i]? = some (image i) ∧ (image i).WellShaped

theorem holdsImages_map_range (n : ℕ) {image : ℕ → KeySwitchingMatrix P}
    (h : ∀ i < n, (image i).WellShaped) :
    HoldsImages ((List.range n).map image) n image := by
  intro i hi
  exact ⟨by simp [hi], h i hi⟩

/-- **A half collapse is the cascade of its key images.** -/
theorem collapseHalfLoop_eq (hfit : DigitsFit P) {kgImages : List (KeySwitchingMatrix P)}
    {image : ℕ → KeySwitchingMatrix P} {below : List (Ntt P.d P.q)}
    (himg : HoldsImages kgImages below.length image) (last b : Ntt P.d P.q) :
    collapseHalfLoop kgImages last below b =
      .ok (foldLast (fun i => (image i).top) last below,
        foldBody (fun i => (image i).body) (foldDigits (fun i => (image i).top) last below) b) := by
  induction below generalizing last b with
  | nil => rfl
  | cons prev below ih =>
      obtain ⟨hget, hshape⟩ := himg below.length (by simp)
      have hrest : HoldsImages kgImages below.length image := fun i hi => himg i (by simp; omega)
      rw [collapseHalfLoop, index, hget]
      show (do
        let (deltaA, deltaB) ← ksSwitch (image below.length) last b
        collapseHalfLoop kgImages (P.spiral.addInto prev deltaA) below deltaB) = _
      rw [ksSwitch_eq hfit hshape]
      show collapseHalfLoop kgImages (foldPrev (fun i => (image i).top) below.length prev
        (digitsNtt P last)) below _ = _
      rw [ih hrest]
      simp only [foldDigits, foldLast, foldBody, length_foldDigits]

/-- **Recording digits changes nothing**: the recorded run is the same cascade, and the digits it
records are those it used. -/
theorem collectHalfDigits_eq (hfit : DigitsFit P) {kgImages : List (KeySwitchingMatrix P)}
    {image : ℕ → KeySwitchingMatrix P} {below : List (Ntt P.d P.q)}
    (himg : HoldsImages kgImages below.length image) (last b : Ntt P.d P.q) :
    collectHalfDigits kgImages last below b =
      .ok ((foldLast (fun i => (image i).top) last below,
        foldBody (fun i => (image i).body) (foldDigits (fun i => (image i).top) last below) b),
        foldDigits (fun i => (image i).top) last below) := by
  induction below generalizing last b with
  | nil => rfl
  | cons prev below ih =>
      obtain ⟨hget, hshape⟩ := himg below.length (by simp)
      have hrest : HoldsImages kgImages below.length image := fun i hi => himg i (by simp; omega)
      rw [collectHalfDigits, index, hget]
      show (do
        let digits ← ksDigitsNttFromC1 P last
        let (deltaA, deltaB) ← ksSwitchWithDigitsNtt (image below.length) digits b
        let (out, ds) ← collectHalfDigits kgImages (P.spiral.addInto prev deltaA) below deltaB
        Except.ok (out, digits :: ds)) = _
      rw [ksDigitsNttFromC1_eq hfit]
      show (do
        let (deltaA, deltaB) ← ksSwitchWithDigitsNtt (image below.length) (digitsNtt P last) b
        let (out, ds) ← collectHalfDigits kgImages (P.spiral.addInto prev deltaA) below deltaB
        Except.ok (out, digitsNtt P last :: ds)) = _
      rw [ksSwitchWithDigitsNtt_eq hshape rfl rfl]
      show (do
        let (out, ds) ← collectHalfDigits kgImages (foldPrev (fun i => (image i).top) below.length
          prev (digitsNtt P last)) below _
        Except.ok (out, digitsNtt P last :: ds)) = _
      rw [ih hrest]
      simp only [foldDigits, foldLast, foldBody, length_foldDigits]
      rfl

/-! ## The cascade in the ring -/

section Ring

variable (top body : ℕ → Fin P.gadget.ell → Ntt P.d P.q)

theorem ring_foldPrev (i : ℕ) (prev : Ntt P.d P.q) (D : PolyMatrixNTT P.d P.q) :
    P.spiral.ring (foldPrev top i prev D) =
      P.spiral.ring prev + dotProduct (ringVec (top i)) (ringDigits D) := by
  rw [foldPrev, P.spiral.ring_addInto, ring_multiply_eq_dotProduct]
  rfl

theorem ring_foldLast (last : Ntt P.d P.q) (below : List (Ntt P.d P.q)) :
    P.spiral.ring (foldLast top last below) =
      foldSlots (fun i => ringVec (top i)) (P.spiral.ring last) (below.map P.spiral.ring)
        ((foldDigits top last below).map ringDigits) := by
  induction below generalizing last with
  | nil => simp [foldLast]
  | cons prev below ih =>
      simp only [foldLast, foldDigits, List.map_cons, foldSlots_cons, List.length_map]
      rw [ih, ring_foldPrev]

/-- The signed digits leave no residue. -/
theorem residues_foldDigits (hfit : DigitsFit P) (last : Ntt P.d P.q)
    (below : List (Ntt P.d P.q)) :
    ∀ r ∈ residues (gadgetVec P) (fun i => ringVec (top i)) (P.spiral.ring last)
      (below.map P.spiral.ring) ((foldDigits top last below).map ringDigits), r = 0 := by
  induction below generalizing last with
  | nil =>
      intro r hr
      simp [residues] at hr
  | cons prev below ih =>
      intro r hr
      simp only [foldDigits, List.map_cons, residues_cons, List.length_map, List.mem_cons] at hr
      rcases hr with rfl | hr
      · rw [gadgetVec_dotProduct_digits hfit, sub_self]
      · rw [← ring_foldPrev] at hr
        exact ih _ r hr

theorem ring_foldBody (ds : List (PolyMatrixNTT P.d P.q)) (b : Ntt P.d P.q) :
    P.spiral.ring (foldBody body ds b) =
      P.spiral.ring b + dotSum (fun i => ringVec (body i)) (ds.map ringDigits) := by
  induction ds generalizing b with
  | nil => simp [foldBody]
  | cons D ds ih =>
      simp only [foldBody, List.map_cons, dotSum_cons, List.length_map]
      rw [ih, P.spiral.ring_addInto, ring_multiply_eq_dotProduct]
      show dotProduct (ringVec (body ds.length)) (ringDigits D) + _ + _ = _
      ring

end Ring

end Inspiring
