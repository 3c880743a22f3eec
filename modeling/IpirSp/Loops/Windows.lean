import IpirSp.Loops.Calls
import IpirSp.Loops.Writes

/-!
# Windows and chunks

A loop that walks an index range in windows of a fixed size, the last one cut at the end of the
range, is `windowLoop`; `windowLoop_ok` is its rule for a state that is a function of the index
reached.

`chunks` are the pieces of a list that a parallel loop hands to its tasks.  A task that owns a piece
of the output and reads the matching piece of a wider input is right on its own columns;
`mapM_zip_chunks` says that the tasks together are then right on all of them, whatever the size of a
piece.
-/

namespace Loops

variable {ε σ : Type}

/-- `while start < n { stop = min(start + size, n); body; start = stop }`. -/
def windowLoop (size : ℕ) (hsize : 0 < size) (n : ℕ) (body : ℕ → ℕ → σ → Except ε σ) (start : ℕ)
    (state : σ) : Except ε σ :=
  if start < n then do
    let next ← body start (min (start + size) n) state
    windowLoop size hsize n body (min (start + size) n) next
  else .ok state
termination_by n - start

/-- **The rule of a loop over aligned windows**: each window that starts at a multiple of the size
takes the state that belongs to its start to the one that belongs to its end. -/
theorem windowLoop_aligned {size : ℕ} {hsize : 0 < size} {n : ℕ} {body : ℕ → ℕ → σ → Except ε σ}
    (value : ℕ → σ)
    (hbody : ∀ start < n, size ∣ start →
      body start (min (start + size) n) (value start) = .ok (value (min (start + size) n)))
    {start : ℕ} (hstart : start ≤ n) (haligned : size ∣ start ∨ start = n) :
    windowLoop size hsize n body start (value start) = .ok (value n) := by
  induction hleft : n - start using Nat.strongRecOn generalizing start with
  | _ left ih =>
      rw [windowLoop]
      split
      · rename_i hlt
        have hdvd : size ∣ start := haligned.resolve_right hlt.ne
        have hnext : size ∣ min (start + size) n ∨ min (start + size) n = n := by
          rcases le_total (start + size) n with hle | hle
          · exact Or.inl (by rw [min_eq_left hle]; exact hdvd.add dvd_rfl)
          · exact Or.inr (min_eq_right hle)
        rw [hbody start hlt hdvd, ok_bind]
        exact ih _ (by omega) (min_le_right _ _) hnext rfl
      · rename_i hdone
        obtain rfl : start = n := by omega
        rfl

/-- **The rule of a loop over windows** from index zero. -/
theorem windowLoop_ok {size : ℕ} {hsize : 0 < size} {n : ℕ} {body : ℕ → ℕ → σ → Except ε σ}
    (value : ℕ → σ)
    (hbody : ∀ start < n,
      body start (min (start + size) n) (value start) = .ok (value (min (start + size) n))) :
    windowLoop size hsize n body 0 (value 0) = .ok (value n) :=
  windowLoop_aligned value (fun start hlt _ => hbody start hlt) (Nat.zero_le n)
    (Or.inl (dvd_zero _))

section Chunks

variable {α β γ : Type}

/-- `chunks(size)`: the pieces of a list, the last one as long as what is left. -/
def chunks (size : ℕ) (l : List α) : List (List α) :=
  (blockStarts l.length size).map fun start => (l.drop start).take size

theorem take_mul_eq_flatMap (l : List α) (size count : ℕ) :
    (List.range count).flatMap (fun b => (l.drop (b * size)).take size) =
      l.take (count * size) := by
  induction count with
  | zero => simp
  | succ count ih =>
      rw [List.range_succ, List.flatMap_append, List.flatMap_singleton, ih, Nat.add_mul, one_mul,
        List.take_add]

/-- **The pieces make the list.** -/
theorem flatten_chunks {size : ℕ} (hsize : 0 < size) (l : List α) :
    (chunks size l).flatten = l := by
  have hceil : l.length ≤ (l.length + size - 1) / size * size := by
    have hdiv := Nat.div_add_mod (l.length + size - 1) size
    have hmod := Nat.mod_lt (l.length + size - 1) hsize
    rw [mul_comm] at hdiv
    omega
  rw [chunks, blockStarts, List.map_map, ← List.flatMap_def]
  show (List.range _).flatMap (fun b => (l.drop (b * size)).take size) = l
  rw [take_mul_eq_flatMap]
  exact List.take_of_length_le hceil

/-- Pieces of the same length. -/
theorem chunks_exact {size count : ℕ} (hsize : 0 < size) {l : List α}
    (hlen : l.length = count * size) :
    chunks size l = (List.range count).map fun i => (l.drop (i * size)).take size := by
  rw [chunks, hlen, blockStarts_mul count hsize, List.map_map]
  rfl

/-- One of the pieces that a list was made of. -/
theorem take_drop_flatten {size : ℕ} {ls : List (List α)} (hlen : ∀ l ∈ ls, l.length = size) {i : ℕ}
    (hi : i < ls.length) : (ls.flatten.drop (i * size)).take size = ls[i] := by
  induction ls generalizing i with
  | nil => exact absurd hi (Nat.not_lt_zero i)
  | cons l ls ih =>
      have hl := hlen l List.mem_cons_self
      cases i with
      | zero => rw [zero_mul, List.drop_zero, List.flatten_cons, List.take_left' hl]; rfl
      | succ i =>
          have hshift : (i + 1) * size = size + i * size := by ring
          rw [List.flatten_cons, hshift, ← List.drop_drop, List.drop_left' hl]
          exact ih (fun l' hl' => hlen l' (List.mem_cons_of_mem _ hl')) (by simpa using hi)

/-- **The pieces that a list was made of.** -/
theorem chunks_flatten {size : ℕ} (hsize : 0 < size) {ls : List (List α)}
    (hlen : ∀ l ∈ ls, l.length = size) : chunks size ls.flatten = ls := by
  have htotal : ls.flatten.length = ls.length * size := by
    rw [List.length_flatten, List.map_congr_left hlen, List.map_const', List.sum_replicate,
      smul_eq_mul]
  rw [chunks_exact hsize htotal]
  refine List.ext_getElem (by rw [List.length_map, List.length_range]) fun i _ hi => ?_
  rw [List.getElem_map, List.getElem_range]
  exact take_drop_flatten hlen hi

/-- **Pieces that are written one after the other are treated one by one.** -/
theorem mapM_chunks_flatMap {ε : Type} {size : ℕ} (hsize : 0 < size) {l : List α}
    {f : α → List β} {g : List β → Except ε γ} {out : α → γ}
    (hlen : ∀ a ∈ l, (f a).length = size) (hg : ∀ a ∈ l, g (f a) = .ok (out a)) :
    (chunks size (l.flatMap f)).mapM g = .ok (l.map out) := by
  have hpieces : chunks size (l.map f).flatten = l.map f := by
    refine chunks_flatten hsize fun piece hpiece => ?_
    obtain ⟨a, ha, rfl⟩ := List.mem_map.mp hpiece
    exact hlen a ha
  rw [List.flatMap_def, hpieces, List.mapM_map]
  exact mapM_eq_ok hg

/-- Pieces of a list whose items are `width` wide each. -/
theorem chunks_mul {size width : ℕ} (hwidth : 0 < width) {count : ℕ} {l : List β}
    (hlen : l.length = count * width) :
    chunks (size * width) l =
      (blockStarts count size).map fun start => (l.drop (start * width)).take (size * width) := by
  have hcount : (count * width + size * width - 1) / (size * width) =
      (count + size - 1) / size := by
    rcases Nat.eq_zero_or_pos size with rfl | hsize
    · simp
    · have hsplit : count * width + size * width - 1 =
          (count + size - 1) * width + (width - 1) := by
        obtain ⟨s, rfl⟩ := Nat.exists_eq_add_of_le' hsize
        rw [← Nat.add_assoc, Nat.add_sub_cancel, Nat.add_mul, Nat.add_mul]
        omega
      rw [hsplit, mul_comm size, ← Nat.div_div_eq_div_mul, flat_div (by omega)]
  rw [chunks, hlen, blockStarts, blockStarts, hcount, List.map_map, List.map_map]
  refine List.map_congr_left fun b _ => ?_
  show (l.drop (b * (size * width))).take _ = (l.drop (b * size * width)).take _
  rw [mul_assoc]

/-- **Tasks on pieces**: each computes its piece of the result from its piece of the output and of
an input that is `width` times as long. -/
theorem mapM_zip_chunks {f : List α × List β → Except ε (List γ)} {size width : ℕ}
    (hwidth : 0 < width) {out : List α} {db : List β} {result : List γ}
    (hdb : db.length = out.length * width) (hresult : result.length = out.length)
    (hf : ∀ start ∈ blockStarts out.length size,
      f ((out.drop start).take size, (db.drop (start * width)).take (size * width)) =
        .ok ((result.drop start).take size)) :
    ((chunks size out).zip (chunks (size * width) db)).mapM f = .ok (chunks size result) := by
  rw [chunks_mul hwidth hdb, chunks, chunks, hresult, List.zip_map', List.mapM_map]
  exact mapM_eq_ok hf

/-- A traversal that returns the item of another list at every position. -/
theorem mapM_getElem_eq_ok {f : α → Except ε β} {l : List α} {l' : List β}
    (hlen : l'.length = l.length)
    (hf : ∀ i (hi : i < l.length) (hi' : i < l'.length), f l[i] = .ok l'[i]) :
    l.mapM f = .ok l' := by
  have hpure : l'.mapM (fun b => (.ok b : Except ε β)) = .ok l' :=
    (mapM_eq_ok fun b _ => rfl).trans (congrArg Except.ok (List.map_id l'))
  rw [← hpure]
  exact mapM_eq_mapM _ _ hlen.symm hf

/-- A traversal of a list with its positions. -/
theorem mapM_zipIdx_eq_ok {f : α × ℕ → Except ε β} {l : List α} {l' : List β}
    (hlen : l'.length = l.length)
    (hf : ∀ i (hi : i < l.length) (hi' : i < l'.length), f (l[i], i) = .ok l'[i]) :
    l.zipIdx.mapM f = .ok l' := by
  refine mapM_getElem_eq_ok (by rw [List.length_zipIdx, hlen]) fun i hi hi' => ?_
  rw [List.getElem_zipIdx, zero_add]
  exact hf i (by rwa [List.length_zipIdx] at hi) hi'

/-- `par_chunks_mut(size).enumerate()` over `n` cells: `f` gets a chunk, its length, and a position
in it. -/
def mapTiles (size n : ℕ) (f : ℕ → ℕ → ℕ → β) : List β :=
  ((chunks size (List.replicate n ())).zipIdx.map fun (dst, tile) =>
    dst.zipIdx.map fun (_, r) => f tile dst.length r).flatten

theorem length_chunks (size : ℕ) (l : List α) :
    (chunks size l).length = (l.length + size - 1) / size := by
  rw [chunks, blockStarts, List.length_map, List.length_map, List.length_range]

theorem getElem_chunks (size : ℕ) (l : List α) (i : ℕ) (hi : i < (chunks size l).length) :
    (chunks size l)[i] = (l.drop (i * size)).take size := by
  simp only [chunks, blockStarts, List.getElem_map, List.getElem_range]

/-- **Chunks of cells** that each get the value of their index. -/
theorem mapTiles_eq {size n : ℕ} (hsize : 0 < size) {f : ℕ → ℕ → ℕ → β} {g : ℕ → β}
    (hf : ∀ tile r, r < size → tile * size + r < n →
      f tile (min size (n - tile * size)) r = g (tile * size + r)) :
    mapTiles size n f = (List.range n).map g := by
  rw [← flatten_chunks hsize ((List.range n).map g), mapTiles]
  refine congrArg List.flatten (List.ext_getElem ?_ fun tile htile htile' => ?_)
  · rw [List.length_map, List.length_zipIdx, length_chunks, length_chunks, List.length_replicate,
      List.length_map, List.length_range]
  rw [List.getElem_map, List.getElem_zipIdx, getElem_chunks, getElem_chunks, zero_add]
  refine List.ext_getElem ?_ fun r hr hr' => ?_
  · simp only [List.length_map, List.length_zipIdx, List.length_take, List.length_drop,
      List.length_replicate, List.length_range]
  simp only [List.length_map, List.length_take, List.length_drop, List.length_range] at hr'
  simp only [List.getElem_map, List.getElem_zipIdx, List.getElem_take, List.getElem_drop,
    List.getElem_range, List.length_take, List.length_drop, List.length_replicate, zero_add]
  exact hf tile r (by omega) (by omega)

end Chunks

end Loops
