import Outline.Proofs.Source.Bytes
import Outline.Proofs.Source.Stretch

/-!
# Looking ahead in the masked view

Behind a character that the masking pass shows in code stands what the pass shows of the rest.
Whatever the pass looks ahead for in the rest, it would find there as well, and nothing else: what
it finds begins a literal or separates digits, and then it shows; and what the view has besides
blanks is in the text.
-/

namespace Outline
namespace Mask

/-! ## The view of the rest -/

/-- What the masked view shows of a text that the pass enters in some mode. -/
def viewFrom (rules : MaskRules) (mode : Mode) (fresh : Bool) (previous : Option Char)
    (text : List Char) : List Char :=
  paint (· != .plain) (shadesFrom rules mode fresh previous text) text

/-- What it shows behind one more character. -/
def viewBehind (rules : MaskRules) (mode : Mode) (fresh : Bool) (previous : Option Char) (c : Char)
    (rest : List Char) : List Char :=
  viewFrom rules (step rules mode fresh previous c rest).2.1
    (step rules mode fresh previous c rest).2.2 (some c) rest

theorem blanks_viewBehind (rules : MaskRules) (mode : Mode) (fresh : Bool) (previous : Option Char)
    (c : Char) (rest : List Char) : Blanks rest (viewBehind rules mode fresh previous c rest) :=
  blanks_paint _ _ _

section Rest

variable {rules : MaskRules} {mode : Mode} {fresh lead : Bool} {previous previous' : Option Char}
  {c : Char} {rest : List Char}

theorem viewFrom_cons : viewFrom rules mode fresh previous (c :: rest) =
    (if (step rules mode fresh previous c rest).1 != .plain then blank c else [c]) ++
      viewBehind rules mode fresh previous c rest := rfl

theorem viewFrom_cons_shown (hs : (step rules mode fresh previous c rest).1 = .plain) :
    viewFrom rules mode fresh previous (c :: rest) =
      c :: viewBehind rules mode fresh previous c rest := by
  rw [viewFrom_cons, hs]
  rfl

theorem viewFrom_cons_hidden (hs : (step rules mode fresh previous c rest).1 ≠ .plain) :
    viewFrom rules mode fresh previous (c :: rest) =
      blank c ++ viewBehind rules mode fresh previous c rest := by
  rw [viewFrom_cons, if_pos (bne_iff_ne.mpr hs)]

/-- The rest of a delimiter shows. -/
theorem exists_viewFrom_passing (next : Mode) (word : List Char) :
    ∃ view, viewFrom rules (.passing word.length .plain next) fresh previous (word ++ rest) =
      word ++ view := by
  have htints : Tints rules (.passing word.length .plain next) previous (tint .plain word) next
      rest := .passing word
  obtain ⟨fresh', hshades⟩ := htints fresh
  rw [wordOf_tint] at hshades
  have hpaint := paint_shadesOf_append (· != .plain) (tint .plain word)
    (shadesFrom rules next fresh' (lastOf previous word) rest) rest
  rw [wordOf_tint, view_tint] at hpaint
  exact ⟨_, (congrArg (paint _ · _) hshades).trans hpaint⟩

/-- In code a hexadecimal digit shows. -/
theorem step_digit (hc : isHexDigit c = true) :
    (step rules .code fresh previous c rest).1 = .plain := by
  have hne : ∀ d, isHexDigit d = false → c ≠ d := by
    rintro d hd rfl
    exact absurd hc (by simp [hd])
  simp only [step, hne '/' (by decide), hne '#' (by decide), hne '"' (by decide),
    hne 'R' (by decide), hne '\'' (by decide), false_and, and_false, if_false]

/-! ## Shown characters in code -/

section Code

variable (hs : (step rules .code fresh previous c rest).1 = .plain)

include hs

theorem not_lineComment : ¬ (c = '/' ∧ rest.head? = some '/') := by
  intro h
  simp [step, h] at hs

theorem not_blockComment : ¬ (c = '/' ∧ rest.head? = some '*') := by
  intro h
  simp [step, h] at hs

theorem not_directive : ¬ (rules.directives = true ∧ fresh = true ∧ c = '#') := by
  intro h
  simp [step, h] at hs

/-- A text block opens in the view where one opens in the text. -/
theorem opensBlock_view_iff :
    (rules.textBlocks = true ∧ c = '"' ∧
      Text.startsWith (viewBehind rules .code fresh previous c rest) ['"', '"'] = true) ↔
    (rules.textBlocks = true ∧ c = '"' ∧ Text.startsWith rest ['"', '"'] = true) := by
  constructor
  · rintro ⟨hrules, hc, hstarts⟩
    obtain ⟨tail, htail⟩ := Text.startsWith_iff.mp hstarts
    have hblanks := blanks_viewBehind rules .code fresh previous c rest
    rw [htail] at hblanks
    obtain ⟨tail₀, hrest, -⟩ := hblanks.exists_append_of_lead (by decide)
    exact ⟨hrules, hc, Text.startsWith_iff.mpr ⟨tail₀, hrest⟩⟩
  · intro h
    have hstep : step rules .code fresh previous c rest =
        (.plain, .pass 1 .plain .textBlock, fresh) := by
      simp only [step, if_neg (not_lineComment hs), if_neg (not_blockComment hs),
        if_neg (not_directive hs), if_pos h]
    obtain ⟨tail, rfl⟩ := Text.startsWith_iff.mp h.2.2
    obtain ⟨view, hview⟩ := @exists_viewFrom_passing rules fresh (some c) tail .textBlock ['"', '"']
    refine ⟨h.1, h.2.1, Text.startsWith_iff.mpr ⟨view, ?_⟩⟩
    rw [viewBehind, hstep]
    exact hview

/-- The delimiter of a raw string shows as it is. -/
theorem exists_opensRaw_view (h : rules.rawStrings = true ∧ c = 'R' ∧ rest.head? = some '"' ∧
      endsName previous = false ∧ '(' ∈ rest.tail) :
    ∃ view, viewBehind rules .code fresh previous c rest =
      '"' :: (rest.tail.takeWhile (· != '(') ++ '(' :: view) := by
  have hblock : ¬ (rules.textBlocks = true ∧ c = '"' ∧ Text.startsWith rest ['"', '"'] = true) := by
    rintro ⟨-, hc, -⟩
    rw [h.2.1] at hc
    exact absurd hc (by decide)
  have hstep : step rules .code fresh previous c rest =
      (.plain, .pass ((rest.tail.takeWhile (· != '(')).length + 1) .plain
        (.raw (')' :: rest.tail.takeWhile (· != '(') ++ ['"'])), fresh) := by
    simp only [step, if_neg (not_lineComment hs), if_neg (not_blockComment hs),
      if_neg (not_directive hs), if_neg hblock, if_pos h]
  obtain ⟨tail, rfl⟩ := List.head?_eq_some_iff.mp h.2.2.1
  obtain ⟨more, hmore⟩ := Text.exists_takeWhile_append h.2.2.2.2
  rw [viewBehind, hstep]
  rw [List.tail_cons] at hmore ⊢
  generalize tail.takeWhile (· != '(') = delimiter at hmore ⊢
  subst hmore
  obtain ⟨view, hview⟩ := @exists_viewFrom_passing rules fresh (some c) more
    (.raw (')' :: delimiter ++ ['"'])) ('"' :: (delimiter ++ ['(']))
  refine ⟨view, ?_⟩
  simpa [Mode.passing] using hview

end Code

/-- A raw string opens in the text where one opens in the view. -/
theorem opensRaw_of_blanks {view : List Char} (hblanks : Blanks rest view)
    (hquote : view.head? = some '"') (hopen : '(' ∈ view.tail) :
    rest.head? = some '"' ∧ '(' ∈ rest.tail := by
  obtain ⟨tail, rfl⟩ := List.head?_eq_some_iff.mp hquote
  obtain ⟨tail₀, rfl, htail⟩ :=
    (show Blanks rest (['"'] ++ tail) from hblanks).exists_append_of_lead (by decide)
  obtain ⟨a, b, hab⟩ := List.append_of_mem hopen
  obtain ⟨a₀, b₀, rfl, -, -⟩ := htail.exists_append_cons (by decide) hab
  exact ⟨rfl, by simp⟩

/-- Digits are separated in the view where they are in the text. -/
theorem separatesDigits_view_iff (hc : c = '\'') (hends : SameEnd previous previous') :
    (rules.digitSeparators = true ∧
      separatesDigits previous' (viewBehind rules .code fresh previous c rest) = true) ↔
    (rules.digitSeparators = true ∧ separatesDigits previous rest = true) := by
  have hblanks := blanks_viewBehind rules .code fresh previous c rest
  simp only [separatesDigits, Bool.and_eq_true, ← hends.2]
  constructor
  · rintro ⟨hrules, hprevious, hdigit⟩
    generalize viewBehind rules .code fresh previous c rest = view at hblanks hdigit
    cases view with
    | nil => exact absurd hdigit Bool.false_ne_true
    | cons d view =>
      have hspace : d ≠ ' ' := by
        rintro rfl
        exact absurd hdigit (by simp [isHexDigit])
      rw [hblanks.head? hspace rfl]
      exact ⟨hrules, hprevious, hdigit⟩
  · rintro ⟨hrules, hprevious, hdigit⟩
    cases rest with
    | nil => exact absurd hdigit Bool.false_ne_true
    | cons d rest =>
      have hd : isHexDigit d = true := hdigit
      have hstep : step rules .code fresh previous c (d :: rest) =
          (.plain, .code, freshAfter fresh c) := by
        simp [hc, step, separatesDigits, hrules, hprevious, hd]
      rw [viewBehind, hstep]
      dsimp only
      rw [viewFrom_cons_shown (step_digit hd)]
      exact ⟨hrules, hprevious, hdigit⟩

/-- In code the pass finds in the view of the rest what it found in the rest. -/
theorem step_code_view (hs : (step rules .code fresh previous c rest).1 = .plain)
    (hends : SameEnd previous previous') (lead : Bool) :
    step rules .code lead previous' c (viewBehind rules .code fresh previous c rest) =
      step rules .code lead previous c rest := by
  have hblanks := blanks_viewBehind rules .code fresh previous c rest
  have hblock := opensBlock_view_iff hs
  have hraw := exists_opensRaw_view hs
  have hdigits := fun hc : c = '\'' => @separatesDigits_view_iff rules fresh _ _ c rest hc hends
  have hline := not_lineComment hs
  have hcomment := not_blockComment hs
  -- from here on the view is any blanking of the rest with these properties
  generalize viewBehind rules .code fresh previous c rest = view at hblanks hblock hraw hdigits ⊢
  have hline' : ¬ (c = '/' ∧ view.head? = some '/') :=
    fun h => hline ⟨h.1, hblanks.head? (by decide) h.2⟩
  have hcomment' : ¬ (c = '/' ∧ view.head? = some '*') :=
    fun h => hcomment ⟨h.1, hblanks.head? (by decide) h.2⟩
  simp only [step, if_neg hline, if_neg hline', if_neg hcomment, if_neg hcomment', ← hends.1]
  refine ite_congr rfl (fun _ => rfl) fun _ =>
    ite_congr (propext hblock) (fun _ => rfl) fun _ => ?_
  by_cases hopens : rules.rawStrings = true ∧ c = 'R' ∧ rest.head? = some '"' ∧
      endsName previous = false ∧ '(' ∈ rest.tail
  · obtain ⟨behind, rfl⟩ := hraw hopens
    have hfence : ∀ x ∈ rest.tail.takeWhile (· != '('), (x != '(') = true :=
      List.all_eq_true.mp List.all_takeWhile
    generalize rest.tail.takeWhile (· != '(') = delimiter at hfence ⊢
    have hdelimiter : (delimiter ++ '(' :: behind).takeWhile (· != '(') = delimiter := by
      rw [List.takeWhile_append_of_pos hfence]
      simp
    rw [if_pos ⟨hopens.1, hopens.2.1, rfl, hopens.2.2.2.1, by simp⟩, if_pos hopens, List.tail_cons,
      hdelimiter]
  · have hopens' : ¬ (rules.rawStrings = true ∧ c = 'R' ∧ view.head? = some '"' ∧
        endsName previous = false ∧ '(' ∈ view.tail) := by
      rintro ⟨hrules, hc, hquote, hname, hopen⟩
      obtain ⟨hquote, hopen⟩ := opensRaw_of_blanks hblanks hquote hopen
      exact hopens ⟨hrules, hc, hquote, hname, hopen⟩
    rw [if_neg hopens, if_neg hopens']
    refine ite_congr rfl (fun _ => rfl) fun _ =>
      ite_congr (propext (and_congr_right fun hc => ?_)) (fun _ => rfl) fun _ => rfl
    exact not_congr (hdigits hc)

end Rest

end Mask
end Outline
