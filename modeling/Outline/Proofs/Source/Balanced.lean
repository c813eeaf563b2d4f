import Outline.Proofs.Source.Brace
import Outline.Proofs.Source.Delimiter
import Outline.Source.Mask

/-!
# Texts without quotes and comments, and balanced texts

Nothing in such a text is hidden from the recognizers: the masking of Java leaves it as it
is, and the matching of delimiters never leaves the code.  So a group whose delimiters are
balanced closes where it ends.
-/

namespace Outline

/-- Whether a text has no quotes and no comments. -/
def Text.isBare : List Char → Bool
  | [] => true
  | c :: rest =>
    c != '"' && c != '\'' && !(c == '/' && (rest.head? == some '/' || rest.head? == some '*'))
      && isBare rest

section

variable {c : Char} {a b rest : List Char}

theorem Text.isBare_cons : isBare (c :: rest) = true ↔
    c ≠ '"' ∧ c ≠ '\'' ∧ ¬ (c = '/' ∧ (rest.head? = some '/' ∨ rest.head? = some '*')) ∧
      isBare rest = true := by
  simp [isBare, and_assoc, Decidable.imp_iff_not_or]

/-- Two such texts in a row begin no comment where the second one starts with neither of
the marks that would be its second character. -/
theorem Text.isBare_append_cons (ha : isBare a = true) (hb : isBare (c :: b) = true)
    (hslash : c ≠ '/') (hstar : c ≠ '*') : isBare (a ++ c :: b) = true := by
  induction a with
  | nil => exact hb
  | cons d a ih =>
    obtain ⟨hquote, hmark, hcomment, hrest⟩ := isBare_cons.mp ha
    refine isBare_cons.mpr ⟨hquote, hmark, fun h => ?_, ih hrest⟩
    cases a with
    | nil =>
      rcases h.2 with h | h
      · exact hslash (Option.some.inj h)
      · exact hstar (Option.some.inj h)
    | cons e a => exact hcomment h

theorem Text.isBare_of_append (h : isBare (a ++ b) = true) : isBare b = true := by
  induction a with
  | nil => exact h
  | cons c a ih => exact ih (isBare_cons.mp h).2.2.2

theorem Text.isBare_left (h : isBare (a ++ b) = true) : isBare a = true := by
  induction a with
  | nil => rfl
  | cons c a ih =>
    obtain ⟨hquote, hmark, hcomment, hrest⟩ := isBare_cons.mp h
    refine isBare_cons.mpr ⟨hquote, hmark, fun hc => ?_, ih hrest⟩
    cases a with
    | nil => exact hc.2.elim nofun nofun
    | cons d a => exact hcomment hc

theorem Text.isBare_group {inner : List Char} {closing : Char}
    (h : isBare (c :: (inner ++ closing :: rest)) = true) :
    isBare (c :: (inner ++ [closing])) = true := by
  refine isBare_left (b := rest) ?_
  rwa [List.cons_append, List.append_assoc]

/-- In front of such a text characters may stand that begin neither quotes nor comments. -/
theorem Text.isBare_append_of_forall (h : ∀ c ∈ a, c ≠ '"' ∧ c ≠ '\'' ∧ c ≠ '/')
    (hb : isBare b = true) : isBare (a ++ b) = true := by
  induction a with
  | nil => exact hb
  | cons c a ih =>
    obtain ⟨hquote, hmark, hslash⟩ := h c List.mem_cons_self
    exact isBare_cons.mpr ⟨hquote, hmark, fun hc => hslash hc.1,
      ih fun d hd => h d (List.mem_cons_of_mem c hd)⟩

/-! ## Masking -/

namespace Mask

/-- What begins neither a literal nor a comment is code. -/
theorem step_code (hquote : c ≠ '"') (hmark : c ≠ '\'')
    (hcomment : ¬ (c = '/' ∧ (rest.head? = some '/' ∨ rest.head? = some '*'))) {fresh : Bool}
    {previous : Option Char} :
    step .java .code fresh previous c rest = (.plain, .code, freshAfter fresh c) := by
  have hline : ¬ (c = '/' ∧ rest.head? = some '/') := fun hc => hcomment ⟨hc.1, .inl hc.2⟩
  have hblock : ¬ (c = '/' ∧ rest.head? = some '*') := fun hc => hcomment ⟨hc.1, .inr hc.2⟩
  simp [step, hline, hblock, hquote, hmark, MaskRules.java]

theorem step_of_isBare (h : Text.isBare (c :: rest) = true) (fresh : Bool)
    (previous : Option Char) :
    step .java .code fresh previous c rest = (.plain, .code, freshAfter fresh c) := by
  obtain ⟨hquote, hmark, hcomment, -⟩ := Text.isBare_cons.mp h
  exact step_code hquote hmark hcomment

theorem paint_of_isBare {text : List Char} (h : Text.isBare text = true) (hidden : Shade → Bool)
    (hplain : hidden .plain = false) (fresh : Bool) (previous : Option Char) :
    paint hidden (shadesFrom .java .code fresh previous text) text = text := by
  induction text generalizing fresh previous with
  | nil => rfl
  | cons c rest ih =>
    rw [shadesFrom, step_of_isBare h]
    show (if hidden .plain then blank c else [c]) ++ paint hidden _ rest = c :: rest
    rw [hplain, ih (Text.isBare_cons.mp h).2.2.2]
    rfl

/-- The two views of a text without quotes and comments are the text. -/
theorem views_of_isBare {text : List Char} (h : Text.isBare text = true) :
    stripped .java text = text ∧ masked .java text = text :=
  ⟨paint_of_isBare h _ rfl true none, paint_of_isBare h _ rfl true none⟩

end Mask

/-! ## Groups -/

namespace Delimiter

/-- Whether what closes in a text has been opened before, with `depth` open at its start, and
all that is open closes. -/
def balancedFrom (opening closing : Char) : Nat → List Char → Bool
  | depth, [] => depth == 0
  | depth, c :: rest =>
    if c = opening then balancedFrom opening closing (depth + 1) rest
    else if c = closing then 0 < depth && balancedFrom opening closing (depth - 1) rest
    else balancedFrom opening closing depth rest

def balanced (opening closing : Char) (text : List Char) : Bool :=
  balancedFrom opening closing 0 text

theorem Mode.after_code (hquote : c ≠ '"') (hmark : c ≠ '\'')
    (hcomment : ¬ (c = '/' ∧ (rest.head? = some '/' ∨ rest.head? = some '*'))) :
    Mode.code.after c rest = .code := by
  have hline : ¬ (c = '/' ∧ rest.head? = some '/') := fun hc => hcomment ⟨hc.1, .inl hc.2⟩
  have hblock : ¬ (c = '/' ∧ rest.head? = some '*') := fun hc => hcomment ⟨hc.1, .inr hc.2⟩
  simp [Mode.after, hline, hblock, hquote, hmark]

/-- What stands behind a group is not asked for in front of its end. -/
theorem Mode.after_of_group {inner : List Char} {closing : Char}
    (h : Text.isBare (c :: (inner ++ [closing])) = true) :
    Mode.code.after c (inner ++ closing :: rest) = .code := by
  obtain ⟨hquote, hmark, hcomment, -⟩ := Text.isBare_cons.mp h
  refine Mode.after_code hquote hmark ?_
  cases inner with
  | nil => exact hcomment
  | cons d inner => exact hcomment

/-- Behind a balanced text the delimiter closes that was open before it. -/
theorem closeFrom_of_balancedFrom {opening closing : Char} {depth offset : Nat}
    {inner : List Char} (hne : closing ≠ opening)
    (h : balancedFrom opening closing depth inner = true)
    (hbare : Text.isBare (inner ++ [closing]) = true) :
    closeFrom opening closing .code (depth + 1) offset (inner ++ closing :: rest) =
      some (offset + Text.width inner) := by
  induction inner generalizing depth offset with
  | nil =>
    have hdepth : depth = 0 := beq_iff_eq.mp h
    rw [List.nil_append, closeFrom, if_neg (fun h => hne h.2), if_pos ⟨rfl, rfl⟩,
      if_pos (by omega), Text.width_nil, Nat.add_zero]
  | cons c inner ih =>
    have hmode : Mode.code.after c (inner ++ closing :: rest) = .code := Mode.after_of_group hbare
    have hrest := (Text.isBare_cons.mp hbare).2.2.2
    rw [List.cons_append, closeFrom, hmode, Text.width_cons, ← Nat.add_assoc]
    rw [balancedFrom] at h
    by_cases hopen : c = opening
    · rw [if_pos hopen] at h
      rw [if_pos ⟨rfl, hopen⟩]
      exact ih h hrest
    · rw [if_neg hopen] at h
      rw [if_neg fun h => hopen h.2]
      by_cases hclose : c = closing
      · rw [if_pos hclose, Bool.and_eq_true, decide_eq_true_eq] at h
        rw [if_pos ⟨rfl, hclose⟩, if_neg (by omega), show depth + 1 - 1 = depth - 1 + 1 by omega]
        exact ih h.2 hrest
      · rw [if_neg hclose] at h
        rw [if_neg fun h => hclose h.2]
        exact ih h hrest

/-- A balanced group closes where it ends. -/
theorem closeOf?_of_balanced {opening closing : Char} {inner : List Char}
    (hc : closing? opening = some closing) (h : balanced opening closing inner = true)
    (hbare : Text.isBare (opening :: (inner ++ [closing])) = true) (offset : Nat) :
    closeOf? offset (opening :: (inner ++ closing :: rest)) =
      some (offset + 1 + Text.width inner) := by
  obtain ⟨hsize, -, hne, -⟩ := closing?_some hc
  rw [closeOf?, hc, Option.bind_some, closeFrom, if_pos ⟨rfl, rfl⟩, Mode.after_of_group hbare,
    hsize]
  exact closeFrom_of_balancedFrom hne.symm h (Text.isBare_cons.mp hbare).2.2.2

end Delimiter

end

end Outline

/-!
## Balanced texts

A balanced text can be passed over: behind it the same braces are open as in front of it, and a
group that it fills closes behind it.
-/

namespace Outline

variable {opening closing : Char} {a b inner before rest : List Char} {depth : Nat}

/-! ### Balance -/

namespace Delimiter

/-- What is open in front of a text stays open in the part of it that is balanced. -/
theorem balancedFrom_append {extra : Nat} (ha : balancedFrom opening closing depth a = true)
    (hb : balancedFrom opening closing extra b = true) :
    balancedFrom opening closing (depth + extra) (a ++ b) = true := by
  induction a generalizing depth with
  | nil =>
    obtain rfl : depth = 0 := beq_iff_eq.mp ha
    rwa [Nat.zero_add]
  | cons c a ih =>
    rw [List.cons_append, balancedFrom]
    rw [balancedFrom] at ha
    by_cases hopen : c = opening
    · rw [if_pos hopen] at ha ⊢
      rw [Nat.add_right_comm]
      exact ih ha
    · rw [if_neg hopen] at ha ⊢
      by_cases hclose : c = closing
      · rw [if_pos hclose, Bool.and_eq_true, decide_eq_true_eq] at ha ⊢
        rw [show depth + extra - 1 = depth - 1 + extra by omega]
        exact ⟨by omega, ih ha.2⟩
      · rw [if_neg hclose] at ha ⊢
        exact ih ha

theorem balanced_append (ha : balanced opening closing a = true)
    (hb : balanced opening closing b = true) : balanced opening closing (a ++ b) = true :=
  show balancedFrom opening closing (0 + 0) (a ++ b) = true from balancedFrom_append ha hb

theorem balanced_of_not_mem (ho : opening ∉ a) (hc : closing ∉ a) :
    balanced opening closing a = true := by
  induction a with
  | nil => rfl
  | cons c a ih =>
    rw [List.mem_cons, not_or] at ho hc
    rw [balanced, balancedFrom, if_neg (Ne.symm ho.1), if_neg (Ne.symm hc.1)]
    exact ih ho.2 hc.2

/-- Where nothing opens, nothing closes. -/
theorem not_mem_of_balanced (h : balanced opening closing a = true) (ho : opening ∉ a) :
    closing ∉ a := by
  induction a with
  | nil => exact List.not_mem_nil
  | cons c a ih =>
    rw [List.mem_cons, not_or] at ho
    rw [balanced, balancedFrom, if_neg (Ne.symm ho.1)] at h
    split at h
    · exact absurd h (by simp)
    · next hc =>
      rw [List.mem_cons, not_or]
      exact ⟨Ne.symm hc, ih h ho.2⟩

theorem balanced_flatMap {α : Type} {entries : List α} {text : α → List Char}
    (h : ∀ entry ∈ entries, balanced opening closing (text entry) = true) :
    balanced opening closing (entries.flatMap text) = true := by
  induction entries with
  | nil => rfl
  | cons entry entries ih =>
    rw [List.flatMap_cons]
    exact balanced_append (h entry List.mem_cons_self)
      (ih fun other ho => h other (List.mem_cons_of_mem _ ho))

/-- A balanced group is matched at the place where it opens. -/
theorem find_of_balanced (hc : closing? opening = some closing)
    (h : balanced opening closing inner = true)
    (hbare : Text.isBare (opening :: (inner ++ [closing])) = true) :
    find (before ++ opening :: (inner ++ closing :: rest)) (Text.width before) =
      ⟨Text.width before + 1 + Text.width inner, true⟩ := by
  rw [find, Text.dropWidth?_width_append]
  dsimp only
  rw [hc, closeOf?_of_balanced hc h hbare]
  rfl

end Delimiter

/-! ### Open braces -/

namespace BraceIndex

variable {q offset : Nat} {stack extra : List Nat}

/-- In front of a text none of its braces is open. -/
theorem stackFrom_of_le (hq : q ≤ offset) : stackFrom q stack offset rest = stack := by
  induction rest generalizing offset stack with
  | nil => rfl
  | cons c rest ih =>
    by_cases hopen : c = '\x7b'
    · rw [hopen, stackFrom_open, if_neg (by omega)]
    · by_cases hclose : c = '\x7d'
      · subst hclose
        cases stack with
        | nil =>
          rw [stackFrom_close_nil]
          exact ih (by omega)
        | cons top stack => rw [stackFrom_close_cons, if_neg (by omega)]
      · rw [stackFrom_other _ _ _ _ hopen hclose]
        exact ih (by omega)

/-- A text that closes the innermost open braces leaves the others as they are. -/
theorem stackFrom_append_of_balancedFrom
    (h : Delimiter.balancedFrom '\x7b' '\x7d' extra.length inner = true)
    (hq : offset + Text.width inner ≤ q) : stackFrom q (extra ++ stack) offset (inner ++ rest) =
      stackFrom q stack (offset + Text.width inner) rest := by
  induction inner generalizing extra offset with
  | nil =>
    obtain rfl : extra = [] := List.length_eq_zero_iff.mp (beq_iff_eq.mp h)
    rfl
  | cons c inner ih =>
    rw [Text.width_cons] at hq ⊢
    rw [List.cons_append, ← Nat.add_assoc]
    rw [Delimiter.balancedFrom] at h
    by_cases hopen : c = '\x7b'
    · rw [if_pos hopen] at h
      subst hopen
      have hsize : ('\x7b' : Char).utf8Size = 1 := rfl
      rw [stackFrom_open, if_pos (by omega)]
      show stackFrom q ((offset :: extra) ++ stack) (offset + 1) (inner ++ rest) = _
      exact ih h (by omega)
    · rw [if_neg hopen] at h
      by_cases hclose : c = '\x7d'
      · rw [if_pos hclose, Bool.and_eq_true, decide_eq_true_eq] at h
        subst hclose
        have hsize : ('\x7d' : Char).utf8Size = 1 := rfl
        cases extra with
        | nil => exact absurd h.1 (Nat.lt_irrefl 0)
        | cons top extra =>
          rw [List.cons_append, stackFrom_close_cons, if_pos (by omega)]
          exact ih h.2 (by omega)
      · rw [if_neg hclose] at h
        rw [stackFrom_other _ _ _ _ hopen hclose]
        exact ih h (by omega)

theorem stackFrom_append_of_balanced (h : Delimiter.balanced '\x7b' '\x7d' inner = true)
    (hq : offset + Text.width inner ≤ q) : stackFrom q stack offset (inner ++ rest) =
      stackFrom q stack (offset + Text.width inner) rest :=
  have hfrom : Delimiter.balancedFrom '\x7b' '\x7d' ([] : List Nat).length inner = true := h
  stackFrom_append_of_balancedFrom hfrom hq

/-- Behind a brace and a balanced text the brace is the innermost one that is open. -/
theorem enclosingOpen_of_balanced (hb : Delimiter.balanced '\x7b' '\x7d' before = true)
    (hi : Delimiter.balanced '\x7b' '\x7d' inner = true) :
    (ofText (before ++ '\x7b' :: (inner ++ rest))).enclosingOpen
      (Text.width (before ++ '\x7b' :: inner)) = some (Text.width before) := by
  have hwidth : Text.width (before ++ '\x7b' :: inner) =
      0 + Text.width before + 1 + Text.width inner := by
    rw [Text.width_append, Text.width_cons, ← Nat.add_assoc, Nat.zero_add]
    rfl
  have hbefore : 0 + Text.width before ≤ 0 + Text.width before + 1 + Text.width inner := by omega
  rw [enclosingOpen, enclosingChain_eq, hwidth, stackFrom_append_of_balanced hb hbefore,
    stackFrom_open, if_pos (by omega), stackFrom_append_of_balanced hi (Nat.le_refl _),
    stackFrom_of_le (Nat.le_refl _), List.head?_cons, Nat.zero_add]

end BraceIndex
end Outline
