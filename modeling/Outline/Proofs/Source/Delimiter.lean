import Outline.Proofs.Text.Boundary
import Outline.Source.Delimiter

/-!
# Where a delimiter closes

The match of a delimiter is a later offset that holds the closing delimiter, or
the last offset of the text.
-/

namespace Outline
namespace Delimiter

/-- A delimiter and the one that closes it are two characters of one byte. -/
theorem closing?_some {c d : Char} (h : closing? c = some d) :
    c.utf8Size = 1 ∧ d.utf8Size = 1 ∧ c ≠ d ∧ c ≠ ' ' ∧ d ≠ ' ' := by
  unfold closing? at h
  split at h <;> cases h <;> decide

theorem exists_of_closeFrom {opening closing : Char} {mode : Mode} {depth offset close : Nat}
    {rest : List Char} (h : closeFrom opening closing mode depth offset rest = some close) :
    ∃ before after, rest = before ++ closing :: after ∧ close = offset + Text.width before := by
  induction rest generalizing mode depth offset with
  | nil => simp [closeFrom] at h
  | cons c rest ih =>
    have hlater : ∀ {mode depth}, closeFrom opening closing mode depth (offset + c.utf8Size) rest
        = some close → ∃ before after, c :: rest = before ++ closing :: after ∧
          close = offset + Text.width before := by
      intro mode depth h
      obtain ⟨before, after, rfl, rfl⟩ := ih h
      exact ⟨c :: before, after, rfl, by rw [Text.width_cons, Nat.add_assoc]⟩
    rw [closeFrom] at h
    split at h
    · exact hlater h
    · split at h
      · next hc =>
        split at h
        · rw [Option.some.injEq] at h
          exact ⟨[], rest, by rw [hc.2]; rfl, h.symm⟩
        · exact hlater h
      · exact hlater h

/-- A group that closes does so after its opening delimiter. -/
theorem exists_of_closeOf? {c : Char} {offset close : Nat} {rest : List Char}
    (h : closeOf? offset (c :: rest) = some close) :
    ∃ d before after, closing? c = some d ∧ rest = before ++ d :: after ∧
      close = offset + 1 + Text.width before := by
  rw [closeOf?, Option.bind_eq_some_iff] at h
  obtain ⟨d, hd, h⟩ := h
  obtain ⟨hc, _, hne, _⟩ := closing?_some hd
  obtain ⟨before, after, hrest, rfl⟩ := exists_of_closeFrom h
  cases before with
  | nil => exact absurd (List.cons.inj hrest).1 hne
  | cons x before =>
    obtain ⟨rfl, htail⟩ := List.cons.inj hrest
    exact ⟨d, before, after, hd, htail, by rw [Text.width_cons, hc, Nat.add_assoc]⟩

/-- The match of a delimiter that stands at an offset. -/
theorem find_of_closing (before rest : List Char) {c d : Char} (hd : closing? c = some d) :
    (∃ inner after, rest = inner ++ d :: after ∧
      find (before ++ c :: rest) (Text.width before) =
        ⟨Text.width before + 1 + Text.width inner, true⟩) ∨
    find (before ++ c :: rest) (Text.width before) = ⟨lastOffset (before ++ c :: rest), false⟩ := by
  rw [find, Text.dropWidth?_width_append]
  cases hclose : closeOf? (Text.width before) (c :: rest) with
  | none => exact Or.inr (by simp [hd, hclose])
  | some close =>
    obtain ⟨d', inner, after, hd', hrest, rfl⟩ := exists_of_closeOf? hclose
    rw [hd, Option.some.injEq] at hd'
    exact Or.inl ⟨inner, after, hd' ▸ hrest, by simp [hd, hclose]⟩

section

variable {text : List Char} {offset : Nat} {c d : Char}

/-- A delimiter that closes does so where its closing delimiter stands. -/
theorem charAt?_find_close (hd : closing? c = some d) (hc : Text.charAt? text offset = some c)
    (ht : (find text offset).terminated = true) :
    Text.charAt? text (find text offset).close = some d ∧
      offset + 1 ≤ (find text offset).close := by
  obtain ⟨before, rest, rfl, rfl⟩ := Text.charAt?_eq_some_iff.mp hc
  obtain ⟨hsize, _⟩ := closing?_some hd
  rcases find_of_closing before rest hd with ⟨inner, after, rfl, hfind⟩ | hfind
  · rw [hfind]
    refine ⟨Text.charAt?_eq_some_iff.mpr ⟨before ++ c :: inner, after, ?_, ?_⟩, ?_⟩
    · rw [List.append_assoc, List.cons_append]
    · rw [Text.width_append, Text.width_cons, hsize, Nat.add_assoc]
    · exact Nat.le_add_right _ _
  · rw [hfind] at ht
    exact absurd ht (by simp)

/-- The offset after the match of a delimiter is a boundary, no matter whether it
closes. -/
theorem isBoundary_find_close_succ (hd : closing? c = some d)
    (hc : Text.charAt? text offset = some c) :
    Text.IsBoundary text ((find text offset).close + 1) := by
  obtain ⟨before, rest, rfl, rfl⟩ := Text.charAt?_eq_some_iff.mp hc
  obtain ⟨hsize, hsize', _⟩ := closing?_some hd
  rcases find_of_closing before rest hd with ⟨inner, after, rfl, hfind⟩ | hfind
  · rw [hfind]
    refine ⟨before ++ c :: inner ++ [d], after, by simp, ?_⟩
    simp only [Text.width_append, Text.width_cons, Text.width_nil, hsize, hsize']
    omega
  · have hlast : lastOffset (before ++ c :: rest) + 1 = Text.width (before ++ c :: rest) := by
      rw [lastOffset, Text.width_append, Text.width_cons, hsize]
      omega
    rw [hfind, hlast]
    exact Text.isBoundary_width _

/-- A delimiter is matched no further back than where it stands. -/
theorem le_find_close (hd : closing? c = some d) (hc : Text.charAt? text offset = some c) :
    offset ≤ (find text offset).close := by
  obtain ⟨before, rest, rfl, rfl⟩ := Text.charAt?_eq_some_iff.mp hc
  obtain ⟨hsize, _⟩ := closing?_some hd
  rcases find_of_closing before rest hd with ⟨inner, after, rfl, hfind⟩ | hfind
  · rw [hfind]
    show Text.width before ≤ Text.width before + 1 + Text.width inner
    omega
  · rw [hfind]
    show Text.width before ≤ lastOffset (before ++ c :: rest)
    rw [lastOffset, Text.width_append, Text.width_cons, hsize]
    omega

end

end Delimiter
end Outline
