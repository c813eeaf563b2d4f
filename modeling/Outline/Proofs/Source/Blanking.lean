import Outline.Proofs.Text.Boundary
import Outline.Source.Mask
import Outline.Text.Line

/-!
# Blanking

Blanking replaces characters by as many spaces as they have bytes and leaves line
feeds alone.  Both views of a source are blankings of it, and the view without
literals is a blanking of the one with them.  What the recognizers rely on is a
matter of blankings alone: offsets, boundaries and lines stay what they were,
and a character that is no space stands where it stood.
-/

namespace Outline

/-- The second text is the first with some characters blanked. -/
inductive Blanks : List Char → List Char → Prop
  | nil : Blanks [] []
  | keep {s t : List Char} (c : Char) (h : Blanks s t) : Blanks (c :: s) (c :: t)
  | blank {s t : List Char} {c : Char} (hc : c ≠ '\n') (h : Blanks s t) :
      Blanks (c :: s) (List.replicate c.utf8Size ' ' ++ t)

namespace Blanks

theorem refl (text : List Char) : Blanks text text := by
  induction text with
  | nil => exact .nil
  | cons c text ih => exact .keep c ih

theorem append_left (a : List Char) {s t : List Char} (h : Blanks s t) :
    Blanks (a ++ s) (a ++ t) := by
  induction a with
  | nil => exact h
  | cons c a ih => exact .keep c ih

theorem width_replicate_space (n : Nat) : Text.width (List.replicate n ' ') = n := by
  induction n with
  | zero => rfl
  | succ n ih =>
    rw [List.replicate_succ, Text.width_cons, ih, show (' ' : Char).utf8Size = 1 from rfl,
      Nat.add_comm]

theorem width_eq {s t : List Char} (h : Blanks s t) : Text.width t = Text.width s := by
  induction h with
  | nil => rfl
  | keep c _ ih => rw [Text.width_cons, Text.width_cons, ih]
  | blank _ _ ih => rw [Text.width_append, width_replicate_space, Text.width_cons, ih]

/-! ## Pieces -/

/-- A place between two characters stays one, and each side is blanked by itself. -/
theorem exists_append {a b t : List Char} (h : Blanks (a ++ b) t) :
    ∃ a' b', t = a' ++ b' ∧ Blanks a a' ∧ Blanks b b' := by
  induction a generalizing t with
  | nil => exact ⟨[], t, rfl, .nil, h⟩
  | cons c a ih =>
    rw [List.cons_append] at h
    cases h with
    | keep _ h =>
      obtain ⟨a', b', rfl, ha, hb⟩ := ih h
      exact ⟨c :: a', b', rfl, .keep c ha, hb⟩
    | blank hc h =>
      obtain ⟨a', b', rfl, ha, hb⟩ := ih h
      exact ⟨_, b', (List.append_assoc _ a' b').symm, .blank hc ha, hb⟩

theorem isBoundary {s t : List Char} (h : Blanks s t) {offset : Nat}
    (ho : Text.IsBoundary s offset) : Text.IsBoundary t offset := by
  obtain ⟨a, b, rfl, rfl⟩ := ho
  obtain ⟨a', b', rfl, ha, _⟩ := h.exists_append
  exact ⟨a', b', rfl, ha.width_eq⟩

/-- A character that is no space comes after the spaces a text begins with. -/
theorem replicate_append_eq {n : Nat} {t a b : List Char} {c : Char} (hc : c ≠ ' ')
    (h : List.replicate n ' ' ++ t = a ++ c :: b) :
    ∃ d, a = List.replicate n ' ' ++ d ∧ t = d ++ c :: b := by
  induction n generalizing a with
  | zero => exact ⟨a, rfl, h⟩
  | succ n ih =>
    rw [List.replicate_succ, List.cons_append] at h
    cases a with
    | nil => exact absurd (List.cons.inj h).1.symm hc
    | cons x a =>
      obtain ⟨rfl, hrest⟩ := List.cons.inj h
      obtain ⟨d, rfl, rfl⟩ := ih hrest
      exact ⟨d, rfl, rfl⟩

/-- A character of the blanked text that is no space was there before. -/
theorem exists_append_cons {s t a b : List Char} {c : Char} (h : Blanks s t) (hc : c ≠ ' ')
    (ht : t = a ++ c :: b) : ∃ a₀ b₀, s = a₀ ++ c :: b₀ ∧ Blanks a₀ a ∧ Blanks b₀ b := by
  induction h generalizing a with
  | nil => simp at ht
  | keep x h ih =>
    cases a with
    | nil =>
      obtain ⟨rfl, rfl⟩ := List.cons.inj ht
      exact ⟨[], _, rfl, .nil, h⟩
    | cons y a =>
      obtain ⟨rfl, hrest⟩ := List.cons.inj ht
      obtain ⟨a₀, b₀, rfl, ha, hb⟩ := ih hrest
      exact ⟨x :: a₀, b₀, rfl, .keep x ha, hb⟩
  | @blank _ _ x hx h ih =>
    obtain ⟨d, rfl, hrest⟩ := replicate_append_eq hc ht
    obtain ⟨a₀, b₀, rfl, ha, hb⟩ := ih hrest
    exact ⟨x :: a₀, b₀, rfl, .blank hx ha, hb⟩

theorem eq_nil {s : List Char} (h : Blanks s []) : s = [] := by
  have hwidth : 0 = Text.width s := h.width_eq
  have hlength := Text.length_le_width s
  exact List.length_eq_zero_iff.mp (by omega)

/-- What a blanked text begins with is there before, if no space is in it. -/
theorem exists_append_of_lead {s word b : List Char} (h : Blanks s (word ++ b))
    (hword : ' ' ∉ word) : ∃ b₀, s = word ++ b₀ ∧ Blanks b₀ b := by
  induction word generalizing s with
  | nil => exact ⟨s, rfl, h⟩
  | cons c word ih =>
    rw [List.mem_cons, not_or] at hword
    obtain ⟨a₀, s₀, rfl, ha, hs⟩ := h.exists_append_cons (a := []) (Ne.symm hword.1) rfl
    obtain rfl := ha.eq_nil
    obtain ⟨b₀, rfl, hb⟩ := ih hs hword.2
    exact ⟨b₀, rfl, hb⟩

theorem head? {s t : List Char} (h : Blanks s t) {c : Char} (hc : c ≠ ' ')
    (ht : t.head? = some c) : s.head? = some c := by
  obtain ⟨b, rfl⟩ := List.head?_eq_some_iff.mp ht
  have hspace : ' ' ∉ [c] := fun hmem => hc (List.mem_singleton.mp hmem).symm
  obtain ⟨b₀, rfl, -⟩ := (show Blanks s ([c] ++ b) from h).exists_append_of_lead hspace
  rfl

theorem charAt? {s t : List Char} (h : Blanks s t) {offset : Nat} {c : Char} (hc : c ≠ ' ')
    (ho : Text.charAt? t offset = some c) : Text.charAt? s offset = some c := by
  obtain ⟨a, b, ht, rfl⟩ := Text.charAt?_eq_some_iff.mp ho
  obtain ⟨a₀, b₀, hs, ha, _⟩ := h.exists_append_cons hc ht
  exact Text.charAt?_eq_some_iff.mpr ⟨a₀, b₀, hs, ha.width_eq.symm⟩

/-! ## Lines -/

theorem startsAfterFeeds_replicate (offset n : Nat) (t : List Char) :
    Text.startsAfterFeeds offset (List.replicate n ' ' ++ t) =
      Text.startsAfterFeeds (offset + n) t := by
  induction n generalizing offset with
  | zero => rfl
  | succ n ih =>
    rw [List.replicate_succ, List.cons_append, Text.startsAfterFeeds, if_neg (by decide),
      show (' ' : Char).utf8Size = 1 from rfl, ih, Nat.add_assoc, Nat.add_comm 1 n]

theorem startsAfterFeeds_eq {s t : List Char} (h : Blanks s t) (offset : Nat) :
    Text.startsAfterFeeds offset t = Text.startsAfterFeeds offset s := by
  induction h generalizing offset with
  | nil => rfl
  | keep c _ ih => rw [Text.startsAfterFeeds, Text.startsAfterFeeds, ih, ih]
  | blank hc _ ih => rw [startsAfterFeeds_replicate, Text.startsAfterFeeds, if_neg hc, ih]

theorem lineIndex_eq {s t : List Char} (h : Blanks s t) :
    LineIndex.ofText t = LineIndex.ofText s := by
  rw [LineIndex.ofText, LineIndex.ofText, h.startsAfterFeeds_eq, h.width_eq]

theorem count_feed_eq {s t : List Char} (h : Blanks s t) : t.count '\n' = s.count '\n' := by
  induction h with
  | nil => rfl
  | keep c _ ih => rw [List.count_cons, List.count_cons, ih]
  | @blank _ _ c hc _ ih =>
    rw [List.count_append, List.count_replicate, List.count_cons, ih]
    simp [hc]

end Blanks

/-! ## The views of a source -/

namespace Mask

theorem blanks_blank_append (c : Char) {s t : List Char} (h : Blanks s t) :
    Blanks (c :: s) (blank c ++ t) := by
  rw [blank]
  split
  · next hc =>
    subst hc
    exact .keep '\n' h
  · next hc => exact .blank hc h

theorem blanks_paint (hidden : Shade → Bool) (shades : List Shade) (text : List Char) :
    Blanks text (paint hidden shades text) := by
  induction text generalizing shades with
  | nil => cases shades <;> exact .nil
  | cons c rest ih =>
    cases shades with
    | nil => exact .refl _
    | cons shade shades =>
      rw [paint]
      split
      · exact blanks_blank_append c (ih shades)
      · exact .keep c (ih shades)

/-- Hiding more is blanking what hiding less leaves. -/
theorem blanks_paint_paint {less more : Shade → Bool}
    (hle : ∀ shade, less shade = true → more shade = true) (shades : List Shade)
    (text : List Char) : Blanks (paint less shades text) (paint more shades text) := by
  induction text generalizing shades with
  | nil => cases shades <;> exact .nil
  | cons c rest ih =>
    cases shades with
    | nil => exact .refl _
    | cons shade shades =>
      rw [paint, paint]
      by_cases hl : less shade = true
      · rw [if_pos hl, if_pos (hle shade hl)]
        exact (ih shades).append_left _
      · rw [if_neg hl]
        split
        · exact blanks_blank_append c (ih shades)
        · exact .keep c (ih shades)

theorem blanks_stripped (rules : MaskRules) (text : List Char) :
    Blanks text (stripped rules text) :=
  blanks_paint _ _ _

theorem blanks_masked (rules : MaskRules) (text : List Char) : Blanks text (masked rules text) :=
  blanks_paint _ _ _

theorem blanks_stripped_masked (rules : MaskRules) (text : List Char) :
    Blanks (stripped rules text) (masked rules text) :=
  blanks_paint_paint (fun shade h => by cases shade <;> simp_all) _ _

end Mask
end Outline
