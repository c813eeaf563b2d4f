import Outline.Proofs.Source.LineStart
import Outline.Proofs.Source.ViewAhead

/-!
# Masking what is masked

The masked view of a text can be masked once more.  The second pass finds no comments, and it goes
through the literals of the view as the first one went through those of the text, as long as
nothing misleads it.  Two things do.  A plain literal that goes on behind a line feed, because a
backslash stands in front of it, ends there in the view, where the backslash is blank, and the
quote that closes it opens another one.  And a `#` that shows, because a comment or the contents of
a raw string come before it on its line, begins a directive in the view, where these are blank.
-/

namespace Outline
namespace Mask

/-! ## The second pass -/

/-- What the pass over the masked view is inside of where the pass over the text is inside of
`mode`. -/
def Mode.reread : Mode → Mode
  | .lineComment | .blockComment | .directive => .code
  | .pass _ .comment _ | .pass _ .plain .directive => .code
  | .escape back => back
  | mode => mode

/-- The shade that what a shade leaves in the masked view has there. -/
def Shade.reread : Shade → Shade
  | .comment => .plain
  | shade => shade

/-- The shades of the masked view of a text where nothing misleads the second pass: one for each
character that the view has for one of the text. -/
def rereadShades : List Shade → List Char → List Shade
  | shade :: shades, c :: rest =>
    (if shade != .plain then blank c else [c]).map (fun _ => shade.reread) ++
      rereadShades shades rest
  | _, _ => []

/-- The pass over the masked view gives each character the shade that it should have there. -/
def Rereads (rules : MaskRules) (text : List Char) : Prop :=
  shades rules (masked rules text) = rereadShades (shades rules text) text

instance (rules : MaskRules) (text : List Char) : Decidable (Rereads rules text) :=
  inferInstanceAs (Decidable (_ = _))

/-! ## What misleads it -/

/-- Whether only blanks have come in the masked view since the line began, behind one more
character of the text: a hidden one is blank there, and one that shows is read once more. -/
def leadAfter (rules : MaskRules) (mode : Mode) (fresh lead : Bool) (previous : Option Char)
    (c : Char) (rest : List Char) : Bool :=
  if (step rules mode fresh previous c rest).1 = .plain then
    (step rules mode.reread lead previous c rest).2.2
  else c == '\n' || lead

/-- Whether a test holds at every character of a text.  It is given what the pass is inside of,
whether the line is still blank in the text, and whether it is still blank in the masked view. -/
def holdsFrom (rules : MaskRules) (test : Mode → Bool → Bool → Char → Bool) :
    Mode → Bool → Bool → Option Char → List Char → Bool
  | _, _, _, _, [] => true
  | mode, fresh, lead, previous, c :: rest =>
    let (_, next, fresh') := step rules mode fresh previous c rest
    test mode fresh lead c &&
      holdsFrom rules test next fresh' (leadAfter rules mode fresh lead previous c rest) (some c)
        rest

/-- This is no line feed behind a backslash in a plain literal. -/
def endsLiteral (mode : Mode) (c : Char) : Bool :=
  match mode with
  | .escape (.quoted _) => c != '\n'
  | _ => true

/-- This is no `#` in code that has only blanks in front of it on its line in the masked view, but
not in the text. -/
def startsDirective (rules : MaskRules) (mode : Mode) (fresh lead : Bool) (c : Char) : Bool :=
  !(mode == .code && rules.directives && lead && !fresh && c == '#')

/-- No plain literal goes on behind a line feed. -/
def literalsEnd (rules : MaskRules) (text : List Char) : Bool :=
  holdsFrom rules (fun mode _ _ c => endsLiteral mode c) .code true true none text

/-- No `#` that shows has only blanks in front of it on its line in the masked view. -/
def directivesStart (rules : MaskRules) (text : List Char) : Bool :=
  holdsFrom rules (startsDirective rules) .code true true none text

section Steps

variable {rules : MaskRules} {mode : Mode} {fresh lead : Bool} {previous previous' : Option Char}
  {c : Char} {rest : List Char}

/-! ## Marks of directives -/

/-- Where nothing misleads the second pass, it shows the character in code that the first one
showed, and goes on as that one did. -/
theorem step_code_reread (hs : (step rules .code fresh previous c rest).1 = .plain)
    (hstarts : startsDirective rules .code fresh lead c = true) :
    (step rules .code lead previous c rest).1 = .plain ∧
      (step rules .code lead previous c rest).2.1 =
        (step rules .code fresh previous c rest).2.1.reread := by
  have hdirective := not_directive hs
  have hdirective' : ¬ (rules.directives = true ∧ lead = true ∧ c = '#') := by
    rintro ⟨hrules, rfl, rfl⟩
    have hfresh : fresh = true := by simpa [startsDirective, hrules] using hstarts
    exact hdirective ⟨hrules, hfresh, rfl⟩
  simp only [step, if_neg (not_lineComment hs), if_neg (not_blockComment hs), if_neg hdirective,
    if_neg hdirective']
  split
  · exact ⟨rfl, rfl⟩
  split
  · exact ⟨rfl, rfl⟩
  split
  · exact ⟨rfl, rfl⟩
  split <;> exact ⟨rfl, rfl⟩

/-- A `#` that only the masked view has blanks in front of is hidden in it by the second pass. -/
theorem step_code_misled (hstarts : ¬ startsDirective rules mode fresh lead c = true) :
    mode = .code ∧ c = '#' ∧
      (∀ previous rest, (step rules .code fresh previous c rest).1 = .plain) ∧
      ∀ previous rest, (step rules .code lead previous c rest).1 = .comment := by
  simp only [startsDirective, Bool.not_eq_true', Bool.not_eq_false, Bool.and_eq_true,
    beq_iff_eq] at hstarts
  obtain ⟨⟨⟨⟨hmode, hrules⟩, hlead⟩, hfresh⟩, rfl⟩ := hstarts
  exact ⟨hmode, rfl, fun _ _ => by simp [step, hfresh], fun _ _ => by simp [step, hrules, hlead]⟩

/-! ## What the first pass may be inside of -/

/-- Code and literals, between two tokens.  The second pass is inside of nothing else over what the
first one hid. -/
def Mode.Rests : Mode → Prop
  | .code | .textBlock => True
  | .quoted quote => IsQuote quote
  | .raw close => IsClosing close
  | _ => False

/-- What the pass may be inside of, behind a character and in front of a text. -/
def Mode.Possible (previous : Option Char) (rest : List Char) : Mode → Prop
  | .quoted quote => IsQuote quote
  | .raw close => IsClosing close
  | .escape back => previous = some '\\' ∧ back.Rests ∧ back.shade = .literal
  | .pass more .comment next => more = 0 ∧
      (next = .lineComment ∨ next = .blockComment ∨ next = .code ∧ rest.head? = some '/')
  | .pass more .plain next =>
      next.Rests ∨ more = 0 ∧ next = .directive ∧ rest.head? = some '\n'
  | .pass _ .literal _ => False
  | .code | .lineComment | .blockComment | .directive | .textBlock => True

theorem Mode.Rests.possible (h : mode.Rests) : mode.Possible previous rest := by
  cases mode with
  | code | textBlock => trivial
  | quoted quote => exact h
  | raw close => exact h
  | lineComment | blockComment | directive | escape | pass => exact h.elim

theorem Mode.Rests.possible_passing (h : mode.Rests) (n : Nat) :
    (Mode.passing n .plain mode).Possible previous rest := by
  cases n with
  | zero => exact h.possible
  | succ more => exact .inl h

theorem Mode.Rests.reread (h : mode.Rests) : mode.reread = mode := by
  cases mode with
  | code | textBlock | quoted | raw => rfl
  | lineComment | blockComment | directive | escape | pass => exact h.elim

theorem Mode.Rests.reread_passing (h : mode.Rests) (n : Nat) :
    (Mode.passing n .plain mode).reread = .passing n .plain mode := by
  cases n with
  | zero => exact h.reread
  | succ more =>
    cases mode with
    | directive => exact h.elim
    | _ => rfl

/-- One step keeps the mode possible. -/
theorem possible_step (h : mode.Possible previous (c :: rest)) :
    (step rules mode fresh previous c rest).2.1.Possible (some c) rest := by
  cases mode with
  | code =>
    simp only [step]
    split
    · exact ⟨rfl, .inl rfl⟩
    split
    · exact ⟨rfl, .inr (.inl rfl)⟩
    split
    · trivial
    split
    · exact .inl trivial
    split
    · exact .inl ⟨_, rfl⟩
    split
    · exact .inl rfl
    split
    · exact .inr rfl
    · trivial
  | lineComment =>
    simp only [step]
    split <;> trivial
  | blockComment =>
    simp only [step]
    split
    · next hclose => exact ⟨rfl, .inr (.inr ⟨rfl, hclose.2⟩)⟩
    · trivial
  | directive =>
    simp only [step]
    split
    · next hcontinued => exact .inr ⟨rfl, rfl, hcontinued.2⟩
    split <;> trivial
  | quoted quote =>
    simp only [step]
    split
    · next hback => exact ⟨congrArg some hback, h, rfl⟩
    split
    · trivial
    · exact h
  | textBlock =>
    simp only [step]
    split
    · exact .inl trivial
    split
    · next hback => exact ⟨congrArg some hback, trivial, rfl⟩
    · trivial
  | raw close =>
    simp only [step]
    split
    · exact (show Mode.Rests .code from trivial).possible_passing _
    · exact h
  | escape back => exact h.2.1.possible
  | pass more shade next =>
    cases shade with
    | literal => exact h.elim
    | comment => obtain ⟨rfl, rfl | rfl | ⟨rfl, -⟩⟩ := h <;> trivial
    | plain =>
      obtain hnext | ⟨rfl, rfl, -⟩ := h
      · exact hnext.possible_passing more
      · trivial

/-! ## Over what is hidden -/

theorem not_startsWith_closing {close : List Char} (h : IsClosing close) (hc : c ≠ ')') :
    ¬ Text.startsWith (c :: rest) close = true := by
  obtain ⟨delimiter, rfl⟩ := h
  intro hstarts
  obtain ⟨more, hmore⟩ := Text.startsWith_iff.mp hstarts
  exact hc (List.cons.inj hmore).1

theorem step_space (h : mode.Rests) :
    step rules mode lead previous ' ' rest = (mode.shade, mode, lead) := by
  have hfresh : freshAfter lead ' ' = lead := by simp [freshAfter, Text.isAsciiBlank]
  cases mode with
  | code => simp [step, hfresh, Mode.shade]
  | textBlock => simp [step, hfresh, Mode.shade]
  | quoted quote =>
    have hquote : ' ' ≠ quote := by rcases h with rfl | rfl <;> decide
    simp [step, hfresh, hquote, Mode.shade]
  | raw close => simp [step, hfresh, not_startsWith_closing h, Mode.shade]
  | lineComment | blockComment | directive | escape | pass => exact h.elim

theorem step_feed (h : mode.Rests) (hquoted : ∀ quote, mode ≠ .quoted quote) :
    step rules mode lead previous '\n' rest = (mode.shade, mode, true) := by
  have hfresh : freshAfter lead '\n' = true := rfl
  cases mode with
  | code => simp [step, hfresh, Mode.shade]
  | textBlock => simp [step, hfresh, Mode.shade]
  | quoted quote => exact absurd rfl (hquoted quote)
  | raw close => simp [step, hfresh, not_startsWith_closing h, Mode.shade]
  | lineComment | blockComment | directive | escape | pass => exact h.elim

/-- Over what is blank the second pass stays in its mode. -/
theorem shadesFrom_blank (h : mode.Rests) (hfeed : c = '\n' → ∀ quote, mode ≠ .quoted quote)
    (view : List Char) : shadesFrom rules mode lead previous (blank c ++ view) =
      (blank c).map (fun _ => mode.shade) ++
        shadesFrom rules mode (c == '\n' || lead) (lastOf previous (blank c)) view := by
  rw [blank]
  split
  · next hc =>
    subst hc
    rw [List.singleton_append, shadesFrom, step_feed h (hfeed rfl)]
    rfl
  · next hc =>
    rw [beq_false_of_ne hc, Bool.false_or]
    generalize c.utf8Size = n
    induction n generalizing previous with
    | zero => rfl
    | succ n ih =>
      rw [List.replicate_succ, List.cons_append, shadesFrom, step_space h]
      dsimp only
      rw [ih]
      rfl

/-- Where the first pass hides a character, the second one stays in its mode over what is blank.
Only the end of a comment is hidden right in front of code. -/
structure Hides (mode : Mode) (c : Char) (shade : Shade) (next : Mode) : Prop where
  rests : mode.reread.Rests
  next_reread : next.reread = mode.reread
  shade_reread : shade.reread = mode.reread.shade
  slash : next = .code → c = '/'

theorem hides_step (h : mode.Possible previous (c :: rest))
    (hs : (step rules mode fresh previous c rest).1 ≠ .plain) :
    Hides mode c (step rules mode fresh previous c rest).1
      (step rules mode fresh previous c rest).2.1 := by
  revert hs
  cases mode with
  | code =>
    simp only [step]
    split
    · exact fun _ => ⟨trivial, rfl, rfl, Mode.noConfusion⟩
    split
    · exact fun _ => ⟨trivial, rfl, rfl, Mode.noConfusion⟩
    split
    · exact fun _ => ⟨trivial, rfl, rfl, Mode.noConfusion⟩
    split
    · exact fun hs => absurd rfl hs
    split
    · exact fun hs => absurd rfl hs
    split
    · exact fun hs => absurd rfl hs
    split <;> exact fun hs => absurd rfl hs
  | lineComment =>
    simp only [step]
    split
    · exact fun hs => absurd rfl hs
    · exact fun _ => ⟨trivial, rfl, rfl, Mode.noConfusion⟩
  | blockComment =>
    simp only [step]
    split <;> exact fun _ => ⟨trivial, rfl, rfl, Mode.noConfusion⟩
  | directive =>
    simp only [step]
    split
    · exact fun _ => ⟨trivial, rfl, rfl, Mode.noConfusion⟩
    split
    · exact fun hs => absurd rfl hs
    · exact fun _ => ⟨trivial, rfl, rfl, Mode.noConfusion⟩
  | quoted quote =>
    simp only [step]
    split
    · exact fun _ => ⟨h, rfl, rfl, Mode.noConfusion⟩
    split
    · exact fun hs => absurd rfl hs
    · exact fun _ => ⟨h, rfl, rfl, Mode.noConfusion⟩
  | textBlock =>
    simp only [step]
    split
    · exact fun hs => absurd rfl hs
    split <;> exact fun _ => ⟨trivial, rfl, rfl, Mode.noConfusion⟩
  | raw close =>
    simp only [step]
    split
    · exact fun hs => absurd rfl hs
    · exact fun _ => ⟨h, rfl, rfl, Mode.noConfusion⟩
  | escape back =>
    obtain ⟨-, hrests, hliteral⟩ := h
    refine fun _ => ⟨hrests, hrests.reread, hliteral.symm, ?_⟩
    rintro rfl
    exact Shade.noConfusion hliteral
  | pass more shade next =>
    cases shade with
    | plain => exact fun hs => absurd rfl hs
    | literal => exact h.elim
    | comment =>
      obtain ⟨rfl, rfl | rfl | ⟨rfl, hslash⟩⟩ := h
      · exact fun _ => ⟨trivial, rfl, rfl, Mode.noConfusion⟩
      · exact fun _ => ⟨trivial, rfl, rfl, Mode.noConfusion⟩
      · exact fun _ => ⟨trivial, rfl, rfl, fun _ => Option.some.inj hslash⟩

theorem escaped_of_not_endsLiteral (h : ¬ endsLiteral mode c = true) :
    ∃ quote, mode = .escape (.quoted quote) ∧ c = '\n' := by
  cases mode with
  | escape back =>
    cases back with
    | quoted quote => exact ⟨quote, rfl, by simpa [endsLiteral] using h⟩
    | _ => exact absurd rfl h
  | _ => exact absurd rfl h

/-- A line feed that is hidden in a plain literal has a backslash in front of it. -/
theorem not_quoted_reread (hs : (step rules mode fresh previous '\n' rest).1 ≠ .plain)
    (hends : endsLiteral mode '\n' = true) (quote : Char) : mode.reread ≠ .quoted quote := by
  cases mode with
  | quoted quote => exact absurd (by simp [step]) hs
  | escape back =>
    rintro rfl
    exact absurd hends Bool.false_ne_true
  | pass more shade next => cases shade <;> cases next <;> exact Mode.noConfusion
  | _ => exact Mode.noConfusion

/-! ## Over what shows -/

/-- A line feed that shows in front of code, or between two lines of a directive. -/
theorem step_reread_feed (hs : (step rules mode fresh previous '\n' rest).1 = .plain)
    (hmode : mode.reread = .code)
    (hnext : (step rules mode fresh previous '\n' rest).2.1.reread = .code) (view : List Char) :
    step rules mode.reread lead previous' '\n' view =
      (.plain, (step rules mode fresh previous '\n' rest).2.1.reread,
        leadAfter rules mode fresh lead previous '\n' rest) := by
  have hfeed : ∀ previous rest,
      step rules .code lead previous '\n' rest = (.plain, .code, true) :=
    fun previous rest => @step_feed rules .code lead previous rest trivial
      fun _ => Mode.noConfusion
  rw [leadAfter, if_pos hs, hmode, hnext, hfeed, hfeed]

/-- What ends a plain literal does so in the view as well. -/
theorem step_reread_quoted {quote : Char}
    (hs : (step rules (.quoted quote) fresh previous c rest).1 = .plain) (view : List Char) :
    step rules (.quoted quote) lead previous' c view =
      (.plain, (step rules (.quoted quote) fresh previous c rest).2.1.reread,
        leadAfter rules (.quoted quote) fresh lead previous c rest) := by
  have hback : c ≠ '\\' := by
    rintro rfl
    simp [step] at hs
  have hclose : c = quote ∨ c = '\n' := by
    refine Decidable.byContradiction fun hclose => ?_
    simp only [step, if_neg hback, if_neg hclose] at hs
    exact Shade.noConfusion hs
  have hstep : ∀ fresh previous rest, step rules (.quoted quote) fresh previous c rest =
      (.plain, .code, freshAfter fresh c) := by
    intro fresh previous rest
    rw [step, if_neg hback, if_pos hclose]
  rw [leadAfter, if_pos hs, show (Mode.quoted quote).reread = .quoted quote from rfl, hstep, hstep,
    hstep]
  rfl

/-- The end of a text block ends it in the view as well. -/
theorem step_reread_textBlock (hs : (step rules .textBlock fresh previous c rest).1 = .plain) :
    step rules .textBlock lead previous' c (viewBehind rules .textBlock fresh previous c rest) =
      (.plain, (step rules .textBlock fresh previous c rest).2.1.reread,
        leadAfter rules .textBlock fresh lead previous c rest) := by
  have hclose : c = '"' ∧ Text.startsWith rest ['"', '"'] = true := by
    refine Decidable.byContradiction fun hclose => ?_
    simp only [step, if_neg hclose] at hs
    split at hs <;> exact Shade.noConfusion hs
  rw [leadAfter, if_pos hs]
  obtain ⟨rfl, hstarts⟩ := hclose
  obtain ⟨tail, rfl⟩ := Text.startsWith_iff.mp hstarts
  have hstep : ∀ fresh previous tail,
      step rules .textBlock fresh previous '"' (['"', '"'] ++ tail) =
        (.plain, .pass 1 .plain .code, fresh) := by
    intro fresh previous tail
    rw [step, if_pos ⟨rfl, Text.startsWith_iff.mpr ⟨tail, rfl⟩⟩]
  obtain ⟨view, hview⟩ : ∃ view,
      viewBehind rules .textBlock fresh previous '"' (['"', '"'] ++ tail) = ['"', '"'] ++ view := by
    rw [viewBehind, hstep]
    exact exists_viewFrom_passing .code ['"', '"']
  rw [hview, show Mode.textBlock.reread = .textBlock from rfl, hstep, hstep, hstep]
  rfl

/-- The end of a raw string ends it in the view as well. -/
theorem step_reread_raw {close : List Char} (h : IsClosing close)
    (hs : (step rules (.raw close) fresh previous c rest).1 = .plain) :
    step rules (.raw close) lead previous' c (viewBehind rules (.raw close) fresh previous c rest) =
      (.plain, (step rules (.raw close) fresh previous c rest).2.1.reread,
        leadAfter rules (.raw close) fresh lead previous c rest) := by
  have hstarts : Text.startsWith (c :: rest) close = true := by
    refine Decidable.byContradiction fun hstarts => ?_
    simp only [step, if_neg hstarts] at hs
    exact Shade.noConfusion hs
  rw [leadAfter, if_pos hs]
  obtain ⟨delimiter, rfl⟩ := h
  obtain ⟨tail, htail⟩ := Text.startsWith_iff.mp hstarts
  obtain rfl : c = ')' := (List.cons.inj htail).1
  obtain rfl : rest = delimiter ++ ['"'] ++ tail := (List.cons.inj htail).2
  generalize delimiter ++ ['"'] = close at hs hstarts htail ⊢
  have hstep : ∀ fresh previous tail, step rules (.raw (')' :: close)) fresh previous ')'
      (close ++ tail) = (.plain, .passing close.length .plain .code, fresh) := by
    intro fresh previous tail
    have hstarts : Text.startsWith (')' :: (close ++ tail)) (')' :: close) = true :=
      Text.startsWith_iff.mpr ⟨tail, rfl⟩
    rw [step, if_pos hstarts]
    rfl
  obtain ⟨view, hview⟩ : ∃ view, viewBehind rules (.raw (')' :: close)) fresh previous ')'
      (close ++ tail) = close ++ view := by
    rw [viewBehind, hstep]
    exact exists_viewFrom_passing .code close
  rw [hview, show ∀ close, (Mode.raw close).reread = .raw close from fun _ => rfl, hstep, hstep,
    hstep, (show Mode.Rests .code from trivial).reread_passing]

/-- Where the first pass shows a character, the second one does so as well and goes on as the first
one did. -/
theorem step_reread (h : mode.Possible previous (c :: rest))
    (hs : (step rules mode fresh previous c rest).1 = .plain)
    (hends : mode = .code → SameEnd previous previous')
    (hstarts : startsDirective rules mode fresh lead c = true) :
    step rules mode.reread lead previous' c (viewBehind rules mode fresh previous c rest) =
      (.plain, (step rules mode fresh previous c rest).2.1.reread,
        leadAfter rules mode fresh lead previous c rest) := by
  cases mode with
  | code =>
    obtain ⟨hshade, hnext⟩ := step_code_reread hs hstarts
    rw [leadAfter, if_pos hs, show Mode.code.reread = .code from rfl, step_code_view hs (hends rfl),
      ← hshade, ← hnext]
  | lineComment =>
    obtain rfl : c = '\n' := Decidable.byContradiction fun hc => by simp [step, hc] at hs
    exact step_reread_feed hs rfl rfl _
  | directive =>
    have hcontinued : ¬ (c = '\\' ∧ rest.head? = some '\n') := by
      intro hcontinued
      simp [step, hcontinued] at hs
    obtain rfl : c = '\n' := Decidable.byContradiction fun hc => by
      simp [step, if_neg hcontinued, hc] at hs
    exact step_reread_feed hs rfl (by simp [step, Mode.reread]) _
  | blockComment =>
    simp only [step] at hs
    split at hs <;> exact Shade.noConfusion hs
  | quoted quote => exact step_reread_quoted hs _
  | textBlock => exact step_reread_textBlock hs
  | raw close => exact step_reread_raw h hs
  | escape back => exact Shade.noConfusion hs
  | pass more shade next =>
    cases shade with
    | literal => exact h.elim
    | comment => exact Shade.noConfusion hs
    | plain =>
      obtain hnext | ⟨rfl, rfl, hhead⟩ := h
      · have hmode : (Mode.pass more .plain next).reread = .pass more .plain next :=
          hnext.reread_passing (more + 1)
        rw [leadAfter, if_pos hs, hmode]
        exact congrArg (Shade.plain, ·, lead) (hnext.reread_passing more).symm
      · obtain rfl := Option.some.inj hhead
        exact step_reread_feed hs rfl rfl _

/-! ## Both passes -/

/-- What the passes are inside of in front of a text and of its view, where nothing has misled the
second one. -/
structure Abreast (mode : Mode) (previous previous' : Option Char) (text : List Char) : Prop where
  possible : mode.Possible previous text
  ends : mode = .code → SameEnd previous previous'

theorem Abreast.shown (h : Abreast mode previous previous' (c :: rest)) :
    Abreast (step rules mode fresh previous c rest).2.1 (some c) (some c) rest :=
  ⟨possible_step h.possible, fun _ => ⟨rfl, rfl⟩⟩

theorem Abreast.hidden (h : Abreast mode previous previous' (c :: rest))
    (hs : (step rules mode fresh previous c rest).1 ≠ .plain) :
    Abreast (step rules mode fresh previous c rest).2.1 (some c) (lastOf previous' (blank c))
      rest := by
  refine ⟨possible_step h.possible, fun hcode => ?_⟩
  -- behind a comment the first pass looks back at a slash, the second one at a blank
  obtain rfl := (hides_step h.possible hs).slash hcode
  exact ⟨rfl, rfl⟩

theorem shadesFrom_shown (h : Abreast mode previous previous' (c :: rest))
    (hs : (step rules mode fresh previous c rest).1 = .plain)
    (hstarts : startsDirective rules mode fresh lead c = true) :
    shadesFrom rules mode.reread lead previous' (viewFrom rules mode fresh previous (c :: rest)) =
      .plain :: shadesFrom rules (step rules mode fresh previous c rest).2.1.reread
        (leadAfter rules mode fresh lead previous c rest) (some c)
        (viewBehind rules mode fresh previous c rest) := by
  rw [viewFrom_cons_shown hs, shadesFrom, step_reread h.possible hs h.ends hstarts]

theorem shadesFrom_hidden (h : Abreast mode previous previous' (c :: rest))
    (hs : (step rules mode fresh previous c rest).1 ≠ .plain) (hends : endsLiteral mode c = true) :
    shadesFrom rules mode.reread lead previous' (viewFrom rules mode fresh previous (c :: rest)) =
      (blank c).map (fun _ => (step rules mode fresh previous c rest).1.reread) ++
        shadesFrom rules (step rules mode fresh previous c rest).2.1.reread
          (leadAfter rules mode fresh lead previous c rest) (lastOf previous' (blank c))
          (viewBehind rules mode fresh previous c rest) := by
  have hhides := hides_step h.possible hs
  have hfeed : c = '\n' → ∀ quote, mode.reread ≠ .quoted quote := by
    rintro rfl
    exact not_quoted_reread hs hends
  rw [viewFrom_cons_hidden hs, shadesFrom_blank hhides.rests hfeed, hhides.shade_reread,
    hhides.next_reread, leadAfter, if_neg hs]

end Steps

section Run

variable {rules : MaskRules} {mode : Mode} {fresh lead : Bool} {previous previous' : Option Char}
  {c : Char} {rest text : List Char}

theorem rereadShades_shown (hs : (step rules mode fresh previous c rest).1 = .plain) :
    rereadShades (shadesFrom rules mode fresh previous (c :: rest)) (c :: rest) =
      .plain :: rereadShades (shadesFrom rules (step rules mode fresh previous c rest).2.1
        (step rules mode fresh previous c rest).2.2 (some c) rest) rest := by
  rw [shadesFrom, rereadShades, hs]
  rfl

theorem rereadShades_hidden (hs : (step rules mode fresh previous c rest).1 ≠ .plain) :
    rereadShades (shadesFrom rules mode fresh previous (c :: rest)) (c :: rest) =
      (blank c).map (fun _ => (step rules mode fresh previous c rest).1.reread) ++
        rereadShades (shadesFrom rules (step rules mode fresh previous c rest).2.1
          (step rules mode fresh previous c rest).2.2 (some c) rest) rest := by
  rw [shadesFrom, rereadShades, if_pos (bne_iff_ne.mpr hs)]

/-- What misleads the second pass gets another shade than it should. -/
theorem shadesFrom_misled
    (h : ¬ (endsLiteral mode c = true ∧ startsDirective rules mode fresh lead c = true)) :
    shadesFrom rules mode.reread lead previous' (viewFrom rules mode fresh previous (c :: rest)) ≠
      rereadShades (shadesFrom rules mode fresh previous (c :: rest)) (c :: rest) := by
  intro heq
  by_cases hstarts : startsDirective rules mode fresh lead c = true
  · have hends : ¬ endsLiteral mode c = true := fun hends => h ⟨hends, hstarts⟩
    obtain ⟨quote, rfl, rfl⟩ := escaped_of_not_endsLiteral hends
    have hs : (step rules (.escape (.quoted quote)) fresh previous '\n' rest).1 ≠ .plain :=
      fun h => Shade.noConfusion h
    rw [viewFrom_cons_hidden hs, rereadShades_hidden hs] at heq
    have hshade : (step rules (.quoted quote) lead previous' '\n'
        (viewBehind rules (.escape (.quoted quote)) fresh previous '\n' rest)).1 = .literal :=
      (List.cons.inj heq).1
    simp [step] at hshade
  · obtain ⟨rfl, rfl, hs, hcomment⟩ := step_code_misled hstarts
    rw [viewFrom_cons_shown (hs _ _), rereadShades_shown (hs _ _)] at heq
    have hshade : (step rules .code lead previous' '#' _).1 = .plain := (List.cons.inj heq).1
    exact Shade.noConfusion ((hcomment _ _).symm.trans hshade)

/-- The second pass gives the shades that it should exactly where nothing misleads it. -/
theorem shadesFrom_reread_iff (h : Abreast mode previous previous' text) :
    shadesFrom rules mode.reread lead previous' (viewFrom rules mode fresh previous text) =
        rereadShades (shadesFrom rules mode fresh previous text) text ↔
      holdsFrom rules (fun mode _ _ c => endsLiteral mode c) mode fresh lead previous text = true ∧
        holdsFrom rules (startsDirective rules) mode fresh lead previous text = true := by
  -- a character of the text is one of the view or a stretch of blanks, so the texts are compared
  -- by these stretches
  induction text generalizing mode fresh lead previous previous' with
  | nil => exact iff_of_true rfl ⟨rfl, rfl⟩
  | cons c rest ih =>
    rw [holdsFrom, holdsFrom, Bool.and_eq_true, Bool.and_eq_true]
    by_cases hkeeps : endsLiteral mode c = true ∧ startsDirective rules mode fresh lead c = true
    · obtain ⟨hends, hstarts⟩ := hkeeps
      simp only [hends, hstarts, true_and]
      by_cases hs : (step rules mode fresh previous c rest).1 = .plain
      · rw [shadesFrom_shown h hs hstarts, rereadShades_shown hs, List.cons.injEq]
        exact (and_iff_right rfl).trans (ih h.shown)
      · rw [shadesFrom_hidden h hs hends, rereadShades_hidden hs, List.append_cancel_left_eq]
        exact ih (h.hidden hs)
    · refine iff_of_false (shadesFrom_misled hkeeps) ?_
      rintro ⟨⟨hends, -⟩, hstarts, -⟩
      exact hkeeps ⟨hends, hstarts⟩

/-! ## What it shows -/

/-- What is blank in a view stays so, whatever shade it gets. -/
theorem paint_blank_append (hidden : Shade → Bool) (shade : Shade) (shades : List Shade) (c : Char)
    (view : List Char) : paint hidden ((blank c).map (fun _ => shade) ++ shades) (blank c ++ view) =
      blank c ++ paint hidden shades view := by
  have hblank : (blank c).flatMap blank = blank c := by
    rw [blank]
    split
    · rfl
    · generalize c.utf8Size = n
      induction n with
      | zero => rfl
      | succ n ih =>
        rw [List.replicate_succ, List.flatMap_cons, ih]
        rfl
  have hpaint := paint_shadesOf_append hidden (tint shade (blank c)) shades view
  rw [wordOf_tint, view_tint, hblank, ite_self] at hpaint
  rw [← hpaint]
  simp [shadesOf, tint, Function.comp_def]

/-- With these shades the view of a view is the view. -/
theorem paint_rereadShades {hidden : Shade → Bool} (hplain : hidden .plain = false)
    (shades : List Shade) (text : List Char) :
    paint hidden (rereadShades shades text) (paint (· != .plain) shades text) =
      paint (· != .plain) shades text := by
  induction text generalizing shades with
  | nil => cases shades <;> rfl
  | cons c rest ih =>
    cases shades with
    | nil => rfl
    | cons shade shades =>
      rw [paint, rereadShades]
      split
      · rw [paint_blank_append, ih]
      · next hs =>
        have hs : shade = .plain := by simpa using hs
        subst hs
        show paint hidden (.plain :: rereadShades shades rest)
          (c :: paint (· != .plain) shades rest) = c :: paint (· != .plain) shades rest
        rw [paint, hplain, ih]
        rfl

/-- Where literals end with their lines, the second pass shows the same only if no directive starts
for it alone. -/
theorem holdsFrom_startsDirective (h : Abreast mode previous previous' text)
    (hends : holdsFrom rules (fun mode _ _ c => endsLiteral mode c) mode fresh lead previous text =
      true)
    (heq : paint (· != .plain) (shadesFrom rules mode.reread lead previous'
      (viewFrom rules mode fresh previous text)) (viewFrom rules mode fresh previous text) =
        viewFrom rules mode fresh previous text) :
    holdsFrom rules (startsDirective rules) mode fresh lead previous text = true := by
  induction text generalizing mode fresh lead previous previous' with
  | nil => rfl
  | cons c rest ih =>
    rw [holdsFrom, Bool.and_eq_true] at hends ⊢
    by_cases hstarts : startsDirective rules mode fresh lead c = true
    · refine ⟨hstarts, ?_⟩
      by_cases hs : (step rules mode fresh previous c rest).1 = .plain
      · rw [shadesFrom_shown h hs hstarts, viewFrom_cons_shown hs] at heq
        exact ih h.shown hends.2 (List.cons.inj heq).2
      · rw [shadesFrom_hidden h hs hends.1, viewFrom_cons_hidden hs, paint_blank_append,
          List.append_cancel_left_eq] at heq
        exact ih (h.hidden hs) hends.2 heq
    · -- the mark shows in the view, and not in the view of the view
      obtain ⟨rfl, rfl, hs, hcomment⟩ := step_code_misled hstarts
      rw [viewFrom_cons_shown (hs _ _), show Mode.code.reread = .code from rfl, shadesFrom, paint,
        hcomment] at heq
      exact absurd (List.cons.inj heq).1 (by decide)

/-- A plain literal goes on behind a line feed only where a backslash is right in front of it. -/
theorem holdsFrom_endsLiteral (h : mode.Possible previous text)
    (hno : ¬ ['\\', '\n'] <:+: previous.toList ++ text) :
    holdsFrom rules (fun mode _ _ c => endsLiteral mode c) mode fresh lead previous text =
      true := by
  induction text generalizing mode fresh lead previous with
  | nil => rfl
  | cons c rest ih =>
    rw [holdsFrom, Bool.and_eq_true]
    refine ⟨?_, ih (possible_step h) fun hbehind => hno (hbehind.trans ?_)⟩
    · refine Decidable.byContradiction fun hends => ?_
      obtain ⟨quote, rfl, rfl⟩ := escaped_of_not_endsLiteral hends
      rw [h.1] at hno
      exact hno ⟨[], rest, rfl⟩
    · exact (List.suffix_append _ _).isInfix

/-- Without a `#` no directive starts. -/
theorem holdsFrom_startsDirective_of_not_mem (h : rules.directives = true → '#' ∉ text) :
    holdsFrom rules (startsDirective rules) mode fresh lead previous text = true := by
  induction text generalizing mode fresh lead previous with
  | nil => rfl
  | cons c rest ih =>
    rw [holdsFrom, Bool.and_eq_true]
    refine ⟨?_, ih fun hrules hmem => h hrules (List.mem_cons_of_mem c hmem)⟩
    refine Decidable.byContradiction fun hstarts => ?_
    simp only [startsDirective, Bool.not_eq_true', Bool.not_eq_false, Bool.and_eq_true,
      beq_iff_eq] at hstarts
    obtain ⟨⟨⟨⟨-, hrules⟩, -⟩, -⟩, rfl⟩ := hstarts
    exact h hrules List.mem_cons_self

end Run

theorem abreast_start (text : List Char) : Abreast .code none none text :=
  ⟨trivial, fun _ => ⟨rfl, rfl⟩⟩

theorem rereads_iff (rules : MaskRules) (text : List Char) :
    Rereads rules text ↔ literalsEnd rules text = true ∧ directivesStart rules text = true :=
  shadesFrom_reread_iff (abreast_start text)

/-- The masked view of a text, masked once more.  The second pass reads it as it should exactly
where every plain literal ends with its line and no `#` that shows has only blanks in front of it
in the view.  Then nothing is left in the view for it to hide.  The converse holds where literals
end with their lines: what misleads the pass is then a directive that it hides.  Neither happens
without a backslash in front of a line feed and, where there are directives, without a `#`. -/
theorem masked_masked (rules : MaskRules) (text : List Char) :
    (Rereads rules text ↔ literalsEnd rules text = true ∧ directivesStart rules text = true) ∧
    (Rereads rules text → stripped rules (masked rules text) = masked rules text ∧
      masked rules (masked rules text) = masked rules text) ∧
    (literalsEnd rules text = true → masked rules (masked rules text) = masked rules text →
      Rereads rules text) ∧
    (¬ ['\\', '\n'] <:+: text → (rules.directives = true → '#' ∉ text) → Rereads rules text) := by
  refine ⟨rereads_iff rules text, fun hrereads => ?_, fun hends heq => ?_,
    fun hno hdirectives => ?_⟩
  · rw [stripped, masked.eq_1 rules (masked rules text), hrereads]
    exact ⟨paint_rereadShades rfl _ _, paint_rereadShades rfl _ _⟩
  · exact (rereads_iff rules text).mpr
      ⟨hends, holdsFrom_startsDirective (abreast_start text) hends heq⟩
  · exact (rereads_iff rules text).mpr
      ⟨holdsFrom_endsLiteral trivial hno, holdsFrom_startsDirective_of_not_mem hdirectives⟩

/-- Behind `/*x*/` the mark of a directive shows, and in the view it is one; the quote behind a
continued line opens a literal in the view.  A text with each kind of token shows the same twice. -/
theorem masked_masked_comment :
    (¬ Rereads .cpp "/*x*/ #define A".toList ∧
      masked .cpp (masked .cpp "/*x*/ #define A".toList) ≠
        masked .cpp "/*x*/ #define A".toList) ∧
    ¬ Rereads .java "s = \"a\\\nb\" + c;".toList ∧
    masked .cpp (masked .cpp "#if 1\nR\"x(')x\" /* \" */ 'é' 1'0 // #".toList) =
      masked .cpp "#if 1\nR\"x(')x\" /* \" */ 'é' 1'0 // #".toList := by
  have hmisled : ¬ Rereads .cpp "/*x*/ #define A".toList :=
    fun h => absurd ((masked_masked .cpp _).1.mp h).2 (by decide)
  refine ⟨⟨hmisled, fun heq => hmisled ((masked_masked .cpp _).2.2.1 (by decide) heq)⟩, ?_, ?_⟩
  · exact fun h => absurd ((masked_masked .java _).1.mp h).1 (by decide)
  · exact ((masked_masked .cpp _).2.1 ((masked_masked .cpp _).1.mpr (by decide))).2

end Mask
end Outline
