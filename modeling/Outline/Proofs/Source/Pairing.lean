import Outline.Proofs.Source.Brace

/-!
# The matcher against the index

What the matcher skips is as good as blank to it, so it finds the place where the
count of the braces it sees comes to zero.  It agrees with the index on a brace
exactly when that is where the count of all braces comes to zero, and agrees on
all of them when it sees every brace.
-/

namespace Outline

namespace Delimiter

/-! ## What the matcher sees -/

/-- A text as the matcher sees it: what it skips is blank. -/
def seenFrom : Mode → List Char → List Char
  | _, [] => []
  | mode, c :: rest =>
    (if mode = .code then [c] else Mask.blank c) ++ seenFrom (mode.after c rest) rest

/-- A text as the matcher sees it that begins at an offset. -/
def seen (text : List Char) (offset : Nat) : List Char :=
  Text.before text offset ++ seenFrom .code (Text.suffixAt text offset)

theorem width_seenFrom (mode : Mode) (text : List Char) :
    Text.width (seenFrom mode text) = Text.width text := by
  induction text generalizing mode with
  | nil => rfl
  | cons c rest ih =>
    rw [seenFrom, Text.width_append, ih, Text.width_cons]
    split
    · rfl
    · rw [Mask.width_blank]

/-- The matcher counts the braces it sees. -/
theorem closeFrom_braces (mode : Mode) (depth offset : Nat) (text : List Char) :
    closeFrom '\x7b' '\x7d' mode depth offset text =
      Brace.closeFrom depth offset (seenFrom mode text) := by
  induction text generalizing mode depth offset with
  | nil => rfl
  | cons c rest ih =>
    rw [closeFrom, seenFrom]
    by_cases hm : mode = .code
    · rw [if_pos hm, List.singleton_append]
      by_cases ho : c = '\x7b'
      · subst ho
        rw [if_pos ⟨hm, rfl⟩, Brace.closeFrom_open]
        exact ih _ _ _
      · by_cases hc : c = '\x7d'
        · subst hc
          rw [if_neg (fun h => ho h.2), if_pos ⟨hm, rfl⟩, Brace.closeFrom_close]
          split
          · rfl
          · exact ih _ _ _
        · rw [if_neg (fun h => ho h.2), if_neg (fun h => hc h.2), Brace.closeFrom_other ho hc]
          exact ih _ _ _
    · rw [if_neg hm, if_neg (fun h => hm h.1), if_neg (fun h => hm h.1), Brace.closeFrom_blank]
      exact ih _ _ _

/-- Whether the matcher sees every brace of a text. -/
def SeesBraces : Mode → List Char → Prop
  | _, [] => True
  | mode, c :: rest =>
    (c = '\x7b' ∨ c = '\x7d' → mode = .code) ∧ SeesBraces (mode.after c rest) rest

theorem closeFrom_seenFrom {mode : Mode} {text : List Char} (h : SeesBraces mode text)
    (depth offset : Nat) :
    Brace.closeFrom depth offset (seenFrom mode text) = Brace.closeFrom depth offset text := by
  induction text generalizing mode depth offset with
  | nil => rfl
  | cons c rest ih =>
    have hrest := ih h.2
    rw [seenFrom]
    by_cases ho : c = '\x7b'
    · rw [if_pos (h.1 (Or.inl ho)), ho, List.singleton_append, Brace.closeFrom_open,
        Brace.closeFrom_open, ← ho, hrest]
    · by_cases hc : c = '\x7d'
      · rw [if_pos (h.1 (Or.inr hc)), hc, List.singleton_append, Brace.closeFrom_close,
          Brace.closeFrom_close, ← hc, hrest]
      · rw [Brace.closeFrom_other ho hc]
        by_cases hm : mode = .code
        · rw [if_pos hm, List.singleton_append, Brace.closeFrom_other ho hc, hrest]
        · rw [if_neg hm, Brace.closeFrom_blank, hrest]

theorem SeesBraces.of_append {mode : Mode} {before rest : List Char}
    (h : SeesBraces mode (before ++ rest)) : ∃ mode', SeesBraces mode' rest := by
  induction before generalizing mode with
  | nil => exact ⟨mode, h⟩
  | cons c before ih => exact ih h.2

end Delimiter

/-! ## Agreement -/

namespace Brace

/-- The index and the matcher agree on a brace: it is around the offsets behind it
up to the match, or around all of them when it is not matched. -/
def AgreesAt (text : List Char) (p : Nat) : Prop :=
  ∀ q ≤ Text.width text, p ∈ (BraceIndex.ofText text).enclosingChain q ↔
    p < q ∧ ((Delimiter.find text p).terminated = false ∨ q ≤ (Delimiter.find text p).close)

section

variable {text : List Char} {p : Nat}

/-- The match of a brace is where the count of the braces that are seen comes to zero. -/
theorem find_brace (hp : Text.charAt? text p = some '\x7b') :
    Delimiter.find text p =
      match close? (Delimiter.seen text p) p with
      | some close => ⟨close, true⟩
      | none => ⟨Delimiter.lastOffset text, false⟩ := by
  obtain ⟨before, after, rfl, rfl⟩ := Text.charAt?_eq_some_iff.mp hp
  have hclosing : Delimiter.closing? '\x7b' = some '\x7d' := rfl
  rw [Delimiter.find, Text.dropWidth?_width_append, Delimiter.seen, Text.before_width_append,
    Text.suffixAt_width_append, close?, Text.suffixAt_width_append]
  simp only [Delimiter.closeOf?, hclosing, Option.bind_some, Delimiter.closeFrom_braces]
  rfl

theorem close?_bounds {before rest : List Char} {close : Nat}
    (h : close? (before ++ rest) (Text.width before) = some close) :
    Text.width before ≤ close ∧ close < Text.width (before ++ rest) := by
  rw [close?, Text.suffixAt_width_append] at h
  rw [Text.width_append]
  exact closeFrom_bounds h

/-- A place that a brace may not reach behind is told by the offset after it. -/
theorem exists_le_of_reaches {width x : Nat} {a b : Option Nat} (hb : b = some x) (hp : p ≤ x)
    (hx : x < width) (h : ∀ q ≤ width, p < q →
      (∀ close, a = some close → q ≤ close) → ∀ close, b = some close → q ≤ close) :
    ∃ y, a = some y ∧ y ≤ x := by
  have hstop := h (x + 1) hx (by omega)
  cases a with
  | none =>
    have hle := hstop (by simp) x hb
    omega
  | some y =>
    refine ⟨y, rfl, ?_⟩
    by_cases hy : y ≤ x
    · exact hy
    · have hle := hstop (fun close hc => by cases hc; omega) x hb
      omega

/-- Two places up to which a brace reaches are one if no offset tells them apart. -/
theorem close_eq_of_reaches {width : Nat} {a b : Option Nat}
    (ha : ∀ x, a = some x → p ≤ x ∧ x < width) (hb : ∀ x, b = some x → p ≤ x ∧ x < width)
    (h : ∀ q ≤ width, p < q →
      ((∀ close, a = some close → q ≤ close) ↔ ∀ close, b = some close → q ≤ close)) : a = b := by
  have hab : ∀ x, b = some x → ∃ y, a = some y ∧ y ≤ x := fun x hx =>
    exists_le_of_reaches hx (hb x hx).1 (hb x hx).2 fun q hq hp => (h q hq hp).mp
  have hba : ∀ x, a = some x → ∃ y, b = some y ∧ y ≤ x := fun x hx =>
    exists_le_of_reaches hx (ha x hx).1 (ha x hx).2 fun q hq hp => (h q hq hp).mpr
  cases a with
  | none =>
    cases b with
    | none => rfl
    | some y =>
      obtain ⟨x, hx, _⟩ := hab y rfl
      cases hx
  | some x =>
    obtain ⟨y, rfl, hyx⟩ := hba x rfl
    obtain ⟨z, hz, hzy⟩ := hab y rfl
    cases hz
    rw [Nat.le_antisymm hzy hyx]

/-- The index and the matcher agree on a brace exactly when the count over all
braces and the count over those that are seen come to zero at one place. -/
theorem agreesAt_iff (hp : Text.charAt? text p = some '\x7b') :
    AgreesAt text p ↔ close? text p = close? (Delimiter.seen text p) p := by
  have hmatch : ∀ q,
      (Delimiter.find text p).terminated = false ∨ q ≤ (Delimiter.find text p).close ↔
        ∀ close, close? (Delimiter.seen text p) p = some close → q ≤ close := by
    intro q
    rw [find_brace hp]
    cases close? (Delimiter.seen text p) p with
    | none => simp
    | some close => simp
  simp only [AgreesAt, BraceIndex.mem_enclosingChain_iff hp, hmatch]
  constructor
  · intro h
    obtain ⟨before, after, rfl, rfl⟩ := Text.charAt?_eq_some_iff.mp hp
    have hwidth : Text.width (Delimiter.seen (before ++ '\x7b' :: after) (Text.width before)) =
        Text.width (before ++ '\x7b' :: after) := by
      rw [Delimiter.seen, Text.before_width_append, Text.suffixAt_width_append, Text.width_append,
        Text.width_append, Delimiter.width_seenFrom]
    refine close_eq_of_reaches (fun x hx => close?_bounds hx) (fun x hx => ?_) fun q hq hpq => ?_
    · rw [← hwidth]
      rw [Delimiter.seen, Text.before_width_append] at hx ⊢
      exact close?_bounds hx
    · have hiff := h q hq
      simpa [hpq] using hiff
  · intro h q _
    rw [h]

theorem agreesAt_of_seesBraces (h : Delimiter.SeesBraces .code text)
    (hp : Text.charAt? text p = some '\x7b') : AgreesAt text p := by
  obtain ⟨before, after, rfl, rfl⟩ := Text.charAt?_eq_some_iff.mp hp
  obtain ⟨mode, hmode⟩ := h.of_append
  rw [hmode.1 (Or.inl rfl)] at hmode
  rw [agreesAt_iff hp, Delimiter.seen, Text.before_width_append, Text.suffixAt_width_append, close?,
    close?, Text.suffixAt_width_append, Text.suffixAt_width_append,
    Delimiter.closeFrom_seenFrom hmode]

end

end Brace

end Outline
