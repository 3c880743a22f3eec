import IpirSp.Codec.Cursor

/-!
# Canonical encodings

`Consumes p R` says that every success of `p` has read some bytes that stand in the relation `R` to
its result.  With `R a bytes` as "`bytes` is the encoding of `a`" it is the converse of `Reads`: a
parser with both accepts exactly the encodings, and a byte string that it accepts is the encoding of
what it returns.  The bytes of a program are put together by `Consumes.bind`; `consumes_times` is
the rule for items one after the other.
-/

namespace Codec

variable {ε α β : Type}

/-- Every success of `p` has read bytes in relation `R` to its result. -/
def Consumes (p : Parser ε α) (R : α → List UInt8 → Prop) : Prop :=
  ∀ c a c', p c = .ok (a, c') →
    ∃ bytes, c.rest = bytes ++ c'.rest ∧ c'.pos = c.pos + bytes.length ∧ R a bytes

variable {R : α → List UInt8 → Prop}

theorem Consumes.pure {a : α} (h : R a []) : Consumes (Pure.pure a : Parser ε α) R := by
  rintro c a' c' hrun
  cases hrun
  exact ⟨[], rfl, rfl, h⟩

theorem Consumes.throw (e : ε) : Consumes (throw e : Parser ε α) R := by
  rintro c a c' hrun
  cases hrun

/-- **One step after the other.**  `S` is what the second step reads after `bytes`. -/
theorem Consumes.bind {p : Parser ε α} {f : α → Parser ε β} {S : β → List UInt8 → Prop}
    (hp : Consumes p R)
    (hf : ∀ a bytes, R a bytes → Consumes (f a) fun b more => S b (bytes ++ more)) :
    Consumes (p >>= f) S := by
  rintro c b c' hrun
  obtain ⟨a, c₁, hpc, hfc⟩ := bind_eq_ok_iff.mp hrun
  obtain ⟨bytes, hrest, hpos, hR⟩ := hp c a c₁ hpc
  obtain ⟨more, hrest', hpos', hS⟩ := hf a bytes hR c₁ b c' hfc
  refine ⟨bytes ++ more, ?_, ?_, hS⟩
  · rw [hrest, hrest', List.append_assoc]
  · rw [hpos', hpos, List.length_append, Nat.add_assoc]

theorem Consumes.mono {p : Parser ε α} {S : α → List UInt8 → Prop} (hp : Consumes p R)
    (h : ∀ a bytes, R a bytes → S a bytes) : Consumes p S := by
  intro c a c' hrun
  obtain ⟨bytes, hrest, hpos, hR⟩ := hp c a c' hrun
  exact ⟨bytes, hrest, hpos, h a bytes hR⟩

theorem Consumes.map {p : Parser ε α} {S : β → List UInt8 → Prop} {f : α → β} (hp : Consumes p R)
    (h : ∀ a bytes, R a bytes → S (f a) bytes) : Consumes (f <$> p) S := by
  show Consumes (p >>= fun a => Pure.pure (f a)) _
  refine hp.bind fun a bytes hR => Consumes.pure ?_
  rw [List.append_nil]
  exact h a bytes hR

theorem Consumes.ite {c : Prop} [Decidable c] {p p' : Parser ε α} (hp : c → Consumes p R)
    (hp' : ¬c → Consumes p' R) : Consumes (if c then p else p') R := by
  split
  · next hc => exact hp hc
  · next hc => exact hp' hc

/-- A section that only some files have. -/
theorem Consumes.sectionIf {p : Parser ε α} (hp : Consumes p R) (present : Bool) :
    Consumes (sectionIf present p) fun opt bytes =>
      opt.isSome = present ∧ opt.elim (bytes = []) (R · bytes) := by
  unfold Codec.sectionIf
  split
  · next h => exact hp.map fun a bytes hR => ⟨h.symm, hR⟩
  · next h => exact Consumes.pure ⟨(Bool.eq_false_iff.mpr h).symm, rfl⟩

theorem consumes_take (e : ε) (n : ℕ) :
    Consumes (take e n) fun a bytes => bytes = a ∧ a.length = n := by
  rintro c a c' hrun
  unfold take at hrun
  split at hrun
  · next hle =>
    cases hrun
    have hlen := List.length_take_of_le hle
    refine ⟨c.rest.take n, (List.take_append_drop n c.rest).symm, ?_, rfl, hlen⟩
    rw [hlen]
  · cases hrun

theorem consumes_fromLe (e : ε) (width : ℕ) :
    Consumes (fromLe <$> take e width) fun w bytes =>
      bytes = leBytes width w ∧ w < 256 ^ width := by
  refine (consumes_take e width).map ?_
  rintro a bytes ⟨rfl, rfl⟩
  exact ⟨(leBytes_fromLe bytes).symm, fromLe_lt bytes⟩

theorem consumes_word (e : ε) :
    Consumes (word e) fun w bytes => bytes = leBytes 8 w ∧ w < 256 ^ 8 := consumes_fromLe e 8

theorem consumes_aligned (e : ε) (n : ℕ) : Consumes (aligned e n) fun _ bytes => bytes = [] := by
  rintro c a c' hrun
  unfold aligned at hrun
  split at hrun
  · cases hrun
    exact ⟨[], rfl, rfl, rfl⟩
  · cases hrun

theorem consumes_require (e : ε) (p : Prop) [Decidable p] :
    Consumes (require e p) fun _ bytes => bytes = [] ∧ p := by
  unfold require
  split
  · next hp => exact Consumes.pure ⟨rfl, hp⟩
  · exact Consumes.throw e

theorem consumes_call (r : Except ε α) :
    Consumes (call r) fun a bytes => bytes = [] ∧ r = .ok a := by
  rintro c a c' hrun
  rcases r with e | a'
  · cases hrun
  · cases hrun
    exact ⟨[], rfl, rfl, rfl, rfl⟩

/-- **Items one after the other.** -/
theorem Consumes.times {p : Parser ε α} (hp : Consumes p R) (n : ℕ) :
    Consumes (times p n) fun as bytes =>
      ∃ parts, List.Forall₂ R as parts ∧ parts.length = n ∧ bytes = parts.flatten := by
  induction n with
  | zero => exact Consumes.pure ⟨[], .nil, rfl, rfl⟩
  | succ n ih =>
      refine hp.bind fun a bytes hR => ih.bind ?_
      rintro as more ⟨parts, hparts, hlen, rfl⟩
      refine Consumes.pure ⟨bytes :: parts, .cons hR hparts, ?_, ?_⟩
      · rw [List.length_cons, hlen]
      · rw [List.append_nil, List.flatten_cons]

/-- **Items one after the other** are the encodings of their results. -/
theorem consumes_times {p : Parser ε α} (enc : α → List UInt8) (good : α → Prop)
    (hp : Consumes p fun a bytes => bytes = enc a ∧ good a) (n : ℕ) :
    Consumes (times p n) fun as bytes =>
      bytes = as.flatMap enc ∧ as.length = n ∧ ∀ a ∈ as, good a := by
  refine (hp.times n).mono ?_
  rintro as bytes ⟨parts, hparts, hlen, rfl⟩
  have hsplit := hparts.imp fun a part (h : part = enc a ∧ good a) => And.intro h.2 h.1.symm
  obtain ⟨hgood, henc⟩ := (List.forall₂_and_left _ _).mp hsplit
  rw [← List.forall₂_map_left_iff, List.forall₂_eq_eq_eq] at henc
  refine ⟨?_, hparts.length_eq.trans hlen, hgood⟩
  rw [List.flatMap_def, henc]

/-- **A complete file** stands in the relation to what is read from it. -/
theorem Consumes.run {e : ε} {p : Parser ε α} (hp : Consumes p R) {start : ℕ} {bytes : List UInt8}
    {a : α} (h : run e p start bytes = .ok a) : R a bytes := by
  unfold Codec.run at h
  rcases hpc : p ⟨start, bytes⟩ with f | ⟨a', c⟩
  · rw [hpc] at h
    cases h
  · rw [hpc] at h
    dsimp only at h
    split at h
    · next hnil =>
      cases h
      obtain ⟨used, hrest, -, hR⟩ := hp _ _ _ hpc
      rw [hnil, List.append_nil] at hrest
      obtain rfl : bytes = used := hrest
      exact hR
    · cases h

/-! ## Words of a file -/

/-- The word with index `i` behind the first `skip` bytes. -/
def wordAt (bytes : List UInt8) (skip i : ℕ) : ℕ := fromLe ((bytes.drop (skip + 8 * i)).take 8)

/-- The words of a file that consists of a start and of words. -/
theorem wordAt_words {start : List UInt8} {ws : List ℕ} (hws : ∀ w ∈ ws, w < 256 ^ 8) {i : ℕ}
    (hi : i < ws.length) :
    wordAt (start ++ ws.flatMap (leBytes 8)) start.length i = ws[i] := by
  have hsplit : ws.flatMap (leBytes 8) = (ws.take i).flatMap (leBytes 8) ++
      (leBytes 8 ws[i] ++ (ws.drop (i + 1)).flatMap (leBytes 8)) := by
    rw [← List.flatMap_cons, ← List.flatMap_append, List.getElem_cons_drop, List.take_append_drop]
  have hlen : ((ws.take i).flatMap (leBytes 8)).length = 8 * i := by
    rw [length_words, List.length_take_of_le hi.le]
  rw [wordAt, ← List.drop_drop, List.drop_left, hsplit, List.drop_left' hlen,
    List.take_left' (length_leBytes 8 _), fromLe_leBytes (hws _ (List.getElem_mem hi))]

end Codec
