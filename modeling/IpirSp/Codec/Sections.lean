import Mathlib.Tactic

/-!
# Optional sections

A string with optional sections: each section has a tag, a fixed width and, if it is present, a
body after its tag.  Nothing says which sections are present or how long the string is.  If no tag
is a prefix of another one, the string still determines the bodies (`sections_injective`).
-/

namespace Codec

variable {α : Type*}

/-- The tag of a section and the width of its body. -/
structure Section (α : Type*) where
  tag : List α
  width : ℕ

/-- A section as it is written: its tag and its body, or nothing. -/
def Section.write (s : Section α) : Option (List α) → List α
  | none => []
  | some body => s.tag ++ body

@[simp] theorem Section.write_none (s : Section α) : s.write none = [] := rfl

@[simp] theorem Section.write_some (s : Section α) (body : List α) :
    s.write (some body) = s.tag ++ body := rfl

/-- The sections of a string, one after the other. -/
def sections (ss : List (Section α)) (bodies : List (Option (List α))) : List α :=
  (List.zipWith Section.write ss bodies).flatten

/-- A body has the width of its section. -/
def Section.Fits (s : Section α) (body : Option (List α)) : Prop := ∀ b ∈ body, b.length = s.width

/-- Two tags that no string starts with at once. -/
def Separated (tag tag' : List α) : Prop := ¬tag <+: tag' ∧ ¬tag' <+: tag

@[simp] theorem sections_nil (bodies : List (Option (List α))) :
    sections ([] : List (Section α)) bodies = [] := rfl

@[simp] theorem sections_cons (s : Section α) (ss : List (Section α)) (body : Option (List α))
    (bodies : List (Option (List α))) :
    sections (s :: ss) (body :: bodies) = s.write body ++ sections ss bodies := rfl

/-- The sections that follow do not start with a separated tag. -/
theorem Separated.not_prefix_sections {tag : List α} (hne : tag ≠ []) {ss : List (Section α)}
    (hsep : ∀ s ∈ ss, Separated tag s.tag) (bodies : List (Option (List α))) :
    ¬tag <+: sections ss bodies := by
  induction ss generalizing bodies with
  | nil => exact fun h => hne (List.prefix_nil.mp h)
  | cons s ss ih =>
      obtain ⟨hhead, htail⟩ := List.forall_mem_cons.mp hsep
      rcases bodies with _ | ⟨_ | body, bodies⟩
      · exact fun h => hne (List.prefix_nil.mp h)
      · exact ih htail bodies
      · -- two prefixes of one string are comparable
        intro h
        have hown : s.tag <+: sections (s :: ss) (some body :: bodies) := by
          rw [sections_cons, Section.write_some, List.append_assoc]
          exact List.prefix_append _ _
        rcases List.prefix_or_prefix_of_prefix h hown with hle | hle
        · exact hhead.1 hle
        · exact hhead.2 hle

/-- **Optional sections are read back**: with separated tags and fixed widths the string determines
the bodies, and so which of them are present. -/
theorem sections_injective {ss : List (Section α)} (hne : ∀ s ∈ ss, s.tag ≠ [])
    (hsep : ss.Pairwise fun s t => Separated s.tag t.tag) {bodies bodies' : List (Option (List α))}
    (hfit : List.Forall₂ Section.Fits ss bodies) (hfit' : List.Forall₂ Section.Fits ss bodies')
    (h : sections ss bodies = sections ss bodies') : bodies = bodies' := by
  induction ss generalizing bodies bodies' with
  | nil => rw [List.forall₂_nil_left_iff.mp hfit, List.forall₂_nil_left_iff.mp hfit']
  | cons s ss ih =>
      obtain ⟨body, rest, hbody, hrest, rfl⟩ := List.forall₂_cons_left_iff.mp hfit
      obtain ⟨body', rest', hbody', hrest', rfl⟩ := List.forall₂_cons_left_iff.mp hfit'
      obtain ⟨htag, hnes⟩ := List.forall_mem_cons.mp hne
      obtain ⟨hhead, htail⟩ := List.pairwise_cons.mp hsep
      rw [sections_cons, sections_cons] at h
      rcases body with _ | body <;> rcases body' with _ | body'
      · rw [ih hnes htail hrest hrest' h]
      · -- the section is missing on the left
        have hprefix : s.tag <+: sections ss rest := by
          rw [Section.write_none, List.nil_append] at h
          rw [h, Section.write_some, List.append_assoc]
          exact List.prefix_append _ _
        exact absurd hprefix (Separated.not_prefix_sections htag hhead rest)
      · have hprefix : s.tag <+: sections ss rest' := by
          rw [Section.write_none, List.nil_append] at h
          rw [← h, Section.write_some, List.append_assoc]
          exact List.prefix_append _ _
        exact absurd hprefix (Separated.not_prefix_sections htag hhead rest')
      · rw [Section.write_some, Section.write_some, List.append_assoc, List.append_assoc] at h
        have hlen : body.length = body'.length := (hbody body rfl).trans (hbody' body' rfl).symm
        obtain ⟨rfl, htails⟩ := List.append_inj (List.append_cancel_left h) hlen
        rw [ih hnes htail hrest hrest' htails]

end Codec
