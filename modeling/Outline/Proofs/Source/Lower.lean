import Outline.Extraction.Statement
import Outline.Proofs.Source.Blanking
import Outline.Proofs.Text.Lower

/-!
# A source further down

Masking, pairing braces and looking for the ends of statements see a text that has
line feeds in front of it as they see the text itself, only further down.
-/

namespace Outline

open Text (lower)

/-- A range so many bytes further down. -/
def downRange (n : Nat) (range : Nat × Nat) : Nat × Nat := (range.1 + n, range.2 + n)

/-! ## The views -/

namespace Mask

variable (rules : MaskRules) (feeds : Nat) (text : List Char)

/-- A line feed in front of a text is to the pass like nothing in front of it. -/
theorem shadesFrom_afterFeed (fresh : Bool) :
    shadesFrom rules .code fresh (some '\n') text = shadesFrom rules .code fresh none text := by
  cases text with
  | nil => rfl
  | cons c rest =>
    have hstep : step rules .code fresh (some '\n') c rest = step rules .code fresh none c rest := by
      simp [step, endsName, separatesDigits, isHexDigit]
    rw [shadesFrom, shadesFrom, hstep]

theorem shades_feed : shades rules ('\n' :: text) = .plain :: shades rules text := by
  have hstep : step rules .code true none '\n' text = (.plain, .code, true) := by
    simp [step, freshAfter]
  rw [shades, shadesFrom, hstep, shades, ← shadesFrom_afterFeed]

theorem stripped_lower : stripped rules (lower feeds text) = lower feeds (stripped rules text) := by
  induction feeds with
  | zero => rfl
  | succ feeds ih =>
    rw [Text.lower_succ, Text.lower_succ, ← ih, stripped, shades_feed]
    rfl

theorem masked_lower : masked rules (lower feeds text) = lower feeds (masked rules text) := by
  induction feeds with
  | zero => rfl
  | succ feeds ih =>
    rw [Text.lower_succ, Text.lower_succ, ← ih, masked, shades_feed]
    rfl

end Mask

/-! ## Delimiters -/

namespace Delimiter

/-- A match so many bytes further down. -/
def Match.down (n : Nat) (found : Match) : Match := { found with close := found.close + n }

@[simp] theorem Match.close_down (n : Nat) (found : Match) :
    (found.down n).close = found.close + n := rfl

@[simp] theorem Match.terminated_down (n : Nat) (found : Match) :
    (found.down n).terminated = found.terminated := rfl

theorem closeFrom_add (opening closing : Char) (n : Nat) (mode : Mode) (depth offset : Nat)
    (text : List Char) :
    closeFrom opening closing mode depth (offset + n) text =
      (closeFrom opening closing mode depth offset text).map (· + n) := by
  induction text generalizing mode depth offset with
  | nil => rfl
  | cons c text ih =>
    rw [closeFrom, closeFrom, Nat.add_right_comm offset n, ih, ih, ih]
    split
    · rfl
    · split
      · split <;> rfl
      · rfl

@[simp] theorem closeOf?_add (offset n : Nat) (text : List Char) :
    closeOf? (offset + n) text = (closeOf? offset text).map (· + n) := by
  cases text with
  | nil => rfl
  | cons c text =>
    rw [closeOf?, closeOf?]
    cases closing? c with
    | none => rfl
    | some closing => exact closeFrom_add c closing n .code 0 offset (c :: text)

theorem find_behind (front : List Char) {text : List Char} (h : text ≠ []) (offset : Nat) :
    find (front ++ text) (offset + Text.width front) =
      (find text offset).down (Text.width front) := by
  have hlast : lastOffset (front ++ text) = lastOffset text + Text.width front := by
    obtain ⟨c, rest, rfl⟩ := List.exists_cons_of_ne_nil h
    have hsize := Char.utf8Size_pos c
    rw [lastOffset, lastOffset, Text.width_append, Text.width_cons]
    omega
  rw [find, find, Text.dropWidth?_behind, hlast, Text.width_append, Nat.add_comm (Text.width front)]
  simp only [Nat.add_le_add_iff_right, closeOf?_add]
  cases Text.dropWidth? offset text with
  | none => dsimp only; split <;> rfl
  | some rest =>
    cases rest with
    | nil => dsimp only; split <;> rfl
    | cons c rest =>
      dsimp only
      split
      · rfl
      · cases closeOf? offset (c :: rest) <;> rfl

theorem find_lower (feeds : Nat) {text : List Char} (h : text ≠ []) (offset : Nat) :
    find (lower feeds text) (offset + feeds) = (find text offset).down feeds := by
  have hfind := find_behind (List.replicate feeds '\n') h offset
  rwa [Text.width_feeds] at hfind

end Delimiter

theorem Text.Behind.find_eq {n : Nat} {rest text : List Char} (h : Behind n rest text)
    (hne : rest ≠ []) (offset : Nat) :
    Delimiter.find text (offset + n) = (Delimiter.find rest offset).down n := by
  obtain ⟨front, rfl, rfl⟩ := h
  exact Delimiter.find_behind front hne offset

/-! ## Statements -/

namespace Statement

/-- Where a reader that passes over groups goes on, seen from further down: after an
offset both readings have, or have not, left the group behind. -/
def ResumesAt (n offset resume resume' : Nat) : Prop :=
  ∀ x, offset ≤ x → (x + n < resume' ↔ x < resume)

variable {n offset resume resume' : Nat}

theorem ResumesAt.zero (n offset : Nat) : ResumesAt n offset 0 0 :=
  fun _ _ => iff_of_false (Nat.not_lt_zero _) (Nat.not_lt_zero _)

theorem ResumesAt.start (n start : Nat) : ResumesAt n 0 start (start + n) :=
  fun _ _ => Nat.add_lt_add_iff_right

theorem ResumesAt.later (h : ResumesAt n offset resume resume') (k : Nat) :
    ResumesAt n (offset + k) resume resume' :=
  fun x hx => h x (Nat.le_trans (Nat.le_add_right _ _) hx)

theorem ResumesAt.after (n offset close : Nat) :
    ResumesAt n offset (close + 1) (close + n + 1) := by
  intro x _
  omega

theorem bodyOpenFrom_add (h : ResumesAt n offset resume resume') (text : List Char) :
    bodyOpenFrom resume' (offset + n) text = (bodyOpenFrom resume offset text).map (· + n) := by
  induction text generalizing offset resume resume' with
  | nil => rfl
  | cons c text ih =>
    have hrest := ih (h.later c.utf8Size)
    rw [bodyOpenFrom, bodyOpenFrom, Nat.add_right_comm offset n, Delimiter.closeOf?_add]
    simp only [h offset (Nat.le_refl _), hrest]
    split
    · rfl
    · split
      · rfl
      · split
        · rfl
        · split
          · cases Delimiter.closeOf? offset (c :: text) with
            | none => rfl
            | some close => exact ih (.after n _ close)
          · rfl

theorem bodyOpen?_behind (front masked : List Char) (start : Nat) :
    bodyOpen? (front ++ masked) (start + Text.width front) =
      (bodyOpen? masked start).map (· + Text.width front) := by
  rw [bodyOpen?, bodyOpen?, bodyOpenFrom_of_le masked (by omega)]
  exact bodyOpenFrom_add (.start _ _) _

theorem bodyOpen?_lower (feeds : Nat) (masked : List Char) (start : Nat) :
    bodyOpen? (lower feeds masked) (start + feeds) = (bodyOpen? masked start).map (· + feeds) := by
  have hopen := bodyOpen?_behind (List.replicate feeds '\n') masked start
  rwa [Text.width_feeds] at hopen

theorem endFrom_add (h : ResumesAt n offset resume resume') (stop : Nat) (text : List Char) :
    endFrom (stop + n) resume' (offset + n) text = endFrom stop resume offset text + n := by
  induction text generalizing offset resume resume' with
  | nil => rfl
  | cons c text ih =>
    have hrest := ih (h.later c.utf8Size)
    rw [endFrom, endFrom, Nat.add_right_comm offset n, Delimiter.closeOf?_add]
    simp only [h offset (Nat.le_refl _), hrest]
    split
    · rfl
    · split
      · rfl
      · split
        · cases Delimiter.closeOf? offset (c :: text) with
          | none => rfl
          | some close => exact ih (.after n _ close)
        · rfl

theorem endAt_behind (front masked : List Char) (start : Nat) :
    endAt (front ++ masked) (start + Text.width front) = endAt masked start + Text.width front := by
  rw [endAt, endAt, endFrom_of_le _ masked (by omega), Text.width_append,
    Nat.add_comm (Text.width front)]
  exact endFrom_add (.start _ _) _ _

theorem endsWithAccess_lower (feeds : Nat) (text : List Char) :
    endsWithAccess (lower feeds text) = endsWithAccess text := by
  have hword : ∀ word ∈ ["public", "protected", "private"], '\n' ∉ word.toList := by decide
  rw [endsWithAccess, endsWithAccess, Bool.eq_iff_iff, List.any_eq_true, List.any_eq_true]
  refine exists_congr fun word => and_congr_right fun hmem => ?_
  rw [Text.endsWith_lower feeds text (hword word hmem)]

/-- Line feeds in front of a text tell nothing about whether a declaration starts after it. -/
theorem startsAfter_lower (feeds : Nat) (before : List Char) (labels : Bool) :
    startsAfter (lower feeds before) labels = startsAfter before labels := by
  have haccess : ∀ lead : List Char,
      endsWithAccess ((lead ++ List.replicate feeds '\n').dropWhile Text.isBlank).reverse =
        endsWithAccess (lead.dropWhile Text.isBlank).reverse := by
    intro lead
    rw [Text.dropWhile_append_feeds]
    split
    · next hempty => rw [List.isEmpty_iff.mp hempty]
    · rw [List.reverse_append, List.reverse_replicate]
      exact endsWithAccess_lower feeds _
  rw [startsAfter, startsAfter, Text.reverse_lower, Text.dropWhile_append_feeds]
  cases before.reverse.dropWhile Text.isBlank with
  | nil => rfl
  | cons c lead =>
    rw [List.isEmpty_cons, if_neg Bool.false_ne_true, List.cons_append]
    by_cases hc : c = ':'
    · subst hc
      exact congrArg (labels && ·) (haccess lead)
    · simp

end Statement

theorem Text.Behind.bodyOpen?_eq {n : Nat} {rest text : List Char} (h : Behind n rest text)
    (start : Nat) :
    Statement.bodyOpen? text (start + n) = (Statement.bodyOpen? rest start).map (· + n) := by
  obtain ⟨front, rfl, rfl⟩ := h
  exact Statement.bodyOpen?_behind front rest start

theorem Text.Behind.endAt_eq {n : Nat} {rest text : List Char} (h : Behind n rest text)
    (start : Nat) : Statement.endAt text (start + n) = Statement.endAt rest start + n := by
  obtain ⟨front, rfl, rfl⟩ := h
  exact Statement.endAt_behind front rest start

end Outline
