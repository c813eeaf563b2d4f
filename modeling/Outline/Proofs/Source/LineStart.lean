import Outline.Proofs.Source.Stretch
import Outline.Proofs.Text.Line

/-!
# The start of a line

What the masking pass is inside of where a line starts decides how the line begins in the
masked view.  Escapes and the marks of comments never go over a line feed, so the pass is then
in code, in a comment that goes on over lines, in a literal, or within the delimiter of a raw
string.  Directives are left out here: these are the rules of C++ in which they are text like
any other.
-/

namespace Outline
namespace Mask

/-- The mode of the pass behind a text that has another one behind it, and whether the line is
still blank there. -/
def stateAfter (rules : MaskRules) (state : Mode × Bool) (previous : Option Char) :
    List Char → List Char → Mode × Bool
  | [], _ => state
  | c :: before, rest =>
    stateAfter rules (step rules state.1 state.2 previous c (before ++ rest)).2 (some c) before rest

/-- The mode of the pass between two parts of a text. -/
def modeAt (rules : MaskRules) (before rest : List Char) : Mode :=
  (stateAfter rules (.code, true) none before rest).1

/-- The pass over two parts of a text goes on in the second one as it comes out of the first. -/
theorem exists_shadesFrom_append (rules : MaskRules) (state : Mode × Bool) (previous : Option Char)
    (before rest : List Char) :
    ∃ word, wordOf word = before ∧
      shadesFrom rules state.1 state.2 previous (before ++ rest) = shadesOf word ++
        shadesFrom rules (stateAfter rules state previous before rest).1
          (stateAfter rules state previous before rest).2 (lastOf previous before) rest := by
  induction before generalizing state previous with
  | nil => exact ⟨[], rfl, rfl⟩
  | cons c before ih =>
    obtain ⟨word, hword, hshades⟩ :=
      ih (step rules state.1 state.2 previous c (before ++ rest)).2 (some c)
    refine ⟨((step rules state.1 state.2 previous c (before ++ rest)).1, c) :: word, ?_, ?_⟩
    · rw [wordOf_cons, hword]
    · rw [List.cons_append, shadesFrom]
      exact congrArg _ hshades

/-! ## What the pass may be inside of -/

def IsQuote (c : Char) : Prop := c = '"' ∨ c = '\''

/-- What ends a raw string. -/
def IsClosing (close : List Char) : Prop := ∃ delimiter, close = ')' :: (delimiter ++ ['"'])

/-- What the pass may be inside of, behind a character and in front of a text. -/
def Mode.Fits (previous : Option Char) (rest : List Char) : Mode → Prop
  | .code | .blockComment => True
  | .lineComment => ∃ c, previous = some c ∧ c ≠ '\n'
  | .quoted quote => IsQuote quote
  | .raw close => IsClosing close
  | .escape back => previous = some '\\' ∧ ∃ quote, back = .quoted quote ∧ IsQuote quote
  | .pass more .comment next => more = 0 ∧ (previous = some '/' ∨ previous = some '*') ∧
      (next = .lineComment ∧ rest.head? = some '/' ∨ next = .blockComment ∨ next = .code)
  | .pass more .plain next => (∃ c, rest[more]? = some c ∧ isFence c = true) ∧
      (next = .code ∨ ∃ close, next = .raw close ∧ IsClosing close)
  | .pass _ .literal _ | .textBlock | .directive => False

section Steps

variable {rules : MaskRules} {fresh : Bool} {previous : Option Char} {c : Char} {rest : List Char}

theorem fits_code (hdirectives : rules.directives = false) (hblocks : rules.textBlocks = false) :
    (step rules .code fresh previous c rest).2.1.Fits (some c) rest := by
  simp only [step, hdirectives, hblocks, Bool.false_eq_true, false_and, if_false]
  split
  · next hline => exact ⟨rfl, .inl (congrArg some hline.1), .inl ⟨rfl, hline.2⟩⟩
  split
  · next hblock => exact ⟨rfl, .inl (congrArg some hblock.1), .inr (.inl rfl)⟩
  split
  · next hraw =>
    obtain ⟨-, -, hquote, -, hparen⟩ := hraw
    obtain ⟨tail, rfl⟩ := List.head?_eq_some_iff.mp hquote
    obtain ⟨more, hmore⟩ := Text.exists_takeWhile_append hparen
    refine ⟨⟨'(', ?_, rfl⟩, .inr ⟨_, rfl, _, rfl⟩⟩
    rw [List.tail_cons] at hmore ⊢
    rw [List.getElem?_cons_succ]
    generalize tail.takeWhile (· != '(') = delimiter at hmore ⊢
    rw [hmore, List.getElem?_append_right (Nat.le_refl _), Nat.sub_self, List.getElem?_cons_zero]
  split
  · exact .inl rfl
  split
  · exact .inr rfl
  · trivial

theorem fits_lineComment : (step rules .lineComment fresh previous c rest).2.1.Fits (some c) rest := by
  simp only [step]
  split
  · trivial
  · next hfeed => exact ⟨c, rfl, hfeed⟩

theorem fits_blockComment :
    (step rules .blockComment fresh previous c rest).2.1.Fits (some c) rest := by
  simp only [step]
  split
  · next hclose => exact ⟨rfl, .inr (congrArg some hclose.1), .inr (.inr rfl)⟩
  · trivial

theorem fits_quoted {quote : Char} (hq : IsQuote quote) :
    (step rules (.quoted quote) fresh previous c rest).2.1.Fits (some c) rest := by
  simp only [step]
  split
  · next hback => exact ⟨congrArg some hback, quote, rfl, hq⟩
  split
  · trivial
  · exact hq

theorem fits_raw {close : List Char} (hclose : IsClosing close) :
    (step rules (.raw close) fresh previous c rest).2.1.Fits (some c) rest := by
  simp only [step]
  split
  · next hstarts =>
    obtain ⟨delimiter, rfl⟩ := hclose
    obtain ⟨more, hmore⟩ := Text.startsWith_iff.mp hstarts
    obtain ⟨-, rfl⟩ := List.cons.inj hmore
    rw [List.length_cons, Nat.add_sub_cancel, List.length_append, List.length_singleton]
    refine ⟨⟨'"', ?_, rfl⟩, .inl rfl⟩
    show (delimiter ++ ['"'] ++ more)[delimiter.length]? = some '"'
    rw [List.append_assoc, List.getElem?_append_right (Nat.le_refl _), Nat.sub_self]
    rfl
  · exact hclose

theorem fits_pass {more : Nat} {shade : Shade} {next : Mode}
    (h : (Mode.pass more shade next).Fits previous (c :: rest)) :
    (Mode.passing more shade next).Fits (some c) rest := by
  cases shade with
  | literal => exact h.elim
  | comment =>
    obtain ⟨rfl, -, ⟨rfl, hslash⟩ | rfl | rfl⟩ := h
    · obtain rfl : c = '/' := by simpa using hslash
      exact ⟨'/', rfl, by decide⟩
    · trivial
    · trivial
  | plain =>
    obtain ⟨⟨d, hd, hfence⟩, hnext⟩ := h
    cases more with
    | zero =>
      obtain rfl | ⟨close, rfl, hclose⟩ := hnext
      · trivial
      · exact hclose
    | succ more => exact ⟨⟨d, hd, hfence⟩, hnext⟩

/-- One step keeps the mode fitting. -/
theorem fits_step {mode : Mode} (hdirectives : rules.directives = false)
    (hblocks : rules.textBlocks = false) (h : mode.Fits previous (c :: rest)) :
    (step rules mode fresh previous c rest).2.1.Fits (some c) rest := by
  cases mode with
  | code => exact fits_code hdirectives hblocks
  | lineComment => exact fits_lineComment
  | blockComment => exact fits_blockComment
  | directive | textBlock => exact h.elim
  | quoted quote => exact fits_quoted h
  | raw close => exact fits_raw h
  | escape back =>
    obtain ⟨-, quote, rfl, hquote⟩ := h
    exact hquote
  | pass more shade next => exact fits_pass h

end Steps

/-- Between two parts of a text the mode fits what is on both sides. -/
theorem fits_stateAfter {rules : MaskRules} (hdirectives : rules.directives = false)
    (hblocks : rules.textBlocks = false) {state : Mode × Bool} {previous : Option Char}
    {before rest : List Char} (h : state.1.Fits previous (before ++ rest)) :
    (stateAfter rules state previous before rest).1.Fits (lastOf previous before) rest := by
  induction before generalizing state previous with
  | nil => exact h
  | cons c before ih => exact ih (fits_step hdirectives hblocks h)

/-! ## The first characters of a line -/

/-- Whether the pass is inside of something that the masked view does not show. -/
def Mode.hides : Mode → Bool
  | .blockComment | .quoted _ | .raw _ => true
  | _ => false

/-- The shade that the mode gives to what does not end it. -/
def Mode.tone : Mode → Shade
  | .blockComment => .comment
  | .quoted _ | .raw _ => .literal
  | _ => .plain

/-- What may stand at the start of a line up to the mark of a directive. -/
def IsLead (c : Char) : Prop := c = ' ' ∨ c = '\t' ∨ c = '#'

/-- What the pass may be inside of at the start of a line, with the text behind it. -/
def Mode.Starts (rest : List Char) : Mode → Prop
  | .code | .blockComment => True
  | .quoted quote => IsQuote quote
  | .raw close => IsClosing close
  | .pass more .plain _ => ∃ c, rest[more]? = some c ∧ isFence c = true
  | _ => False

theorem Mode.Fits.starts {mode : Mode} {previous : Option Char} {rest : List Char}
    (h : mode.Fits previous rest) (hline : previous.all (· == '\n') = true) : mode.Starts rest := by
  have hfeed : ∀ c, previous = some c → c = '\n' := by
    rintro c rfl
    simpa using hline
  cases mode with
  | code | blockComment => trivial
  | directive | textBlock => exact h
  | quoted quote => exact h
  | raw close => exact h
  | lineComment =>
    obtain ⟨c, hc, hne⟩ := h
    exact hne (hfeed c hc)
  | escape back => exact absurd (hfeed _ h.1) (by decide)
  | pass more shade next =>
    cases shade with
    | plain => exact h.1
    | literal => exact h
    | comment =>
      obtain ⟨-, hslash | hstar, -⟩ := h
      · exact absurd (hfeed _ hslash) (by decide)
      · exact absurd (hfeed _ hstar) (by decide)

/-- Over one of these characters the pass stays in its mode, or within the delimiter of a raw
string. -/
theorem step_lead {rules : MaskRules} (hdirectives : rules.directives = false) {mode : Mode}
    {fresh : Bool} {previous : Option Char} {c : Char} {rest : List Char}
    (h : mode.Starts (c :: rest)) (hc : IsLead c) :
    ∃ next fresh', step rules mode fresh previous c rest = (mode.tone, next, fresh') ∧
      next.tone = mode.tone ∧ next.Starts rest := by
  have hne : ∀ d, ¬ IsLead d → c ≠ d := by
    rintro d hd rfl
    exact hd hc
  have hslash := hne '/' (by simp [IsLead])
  have hstar := hne '*' (by simp [IsLead])
  have hback := hne '\\' (by simp [IsLead])
  have hdouble := hne '"' (by simp [IsLead])
  have hsingle := hne '\'' (by simp [IsLead])
  have hfeed := hne '\n' (by simp [IsLead])
  have hr := hne 'R' (by simp [IsLead])
  have hclose := hne ')' (by simp [IsLead])
  cases mode with
  | code =>
    refine ⟨.code, freshAfter fresh c, ?_, rfl, trivial⟩
    simp [step, hslash, hdirectives, hdouble, hsingle, hr, Mode.tone]
  | blockComment =>
    refine ⟨.blockComment, freshAfter fresh c, ?_, rfl, trivial⟩
    simp [step, hstar, Mode.tone]
  | quoted quote =>
    have hquote : c ≠ quote := by
      rcases h with rfl | rfl
      · exact hdouble
      · exact hsingle
    refine ⟨.quoted quote, freshAfter fresh c, ?_, rfl, h⟩
    simp [step, hback, hquote, hfeed, Mode.tone]
  | raw close =>
    have hstarts : ¬ Text.startsWith (c :: rest) close = true := by
      obtain ⟨delimiter, rfl⟩ := h
      intro hstarts
      obtain ⟨more, hmore⟩ := Text.startsWith_iff.mp hstarts
      exact hclose (List.cons.inj hmore).1
    refine ⟨.raw close, freshAfter fresh c, ?_, rfl, h⟩
    simp [step, hstarts, Mode.tone]
  | pass more shade next =>
    cases shade with
    | literal | comment => exact h.elim
    | plain =>
      obtain ⟨d, hd, hfence⟩ := h
      cases more with
      | zero =>
        obtain rfl : c = d := by simpa using hd
        rcases hc with rfl | rfl | rfl <;> exact absurd hfence (by decide)
      | succ more => exact ⟨.pass more .plain next, fresh, rfl, rfl, d, hd, hfence⟩
  | lineComment | directive | textBlock | escape => exact h.elim

/-- The pass goes over the first characters of a line, up to the mark of a directive, in the mode
in which the line starts. -/
theorem exists_shadesFrom_lead {rules : MaskRules} (hdirectives : rules.directives = false)
    {mode : Mode} {fresh : Bool} {previous : Option Char} {word rest : List Char}
    (h : mode.Starts (word ++ rest)) (hword : ∀ c ∈ word, IsLead c) :
    ∃ tail, shadesFrom rules mode fresh previous (word ++ rest) =
      shadesOf (tint mode.tone word) ++ tail := by
  induction word generalizing mode fresh previous with
  | nil => exact ⟨_, rfl⟩
  | cons c word ih =>
    obtain ⟨hc, hword⟩ := List.forall_mem_cons.mp hword
    obtain ⟨next, fresh', hstep, htone, hnext⟩ :
        ∃ next fresh', step rules mode fresh previous c (word ++ rest) = (mode.tone, next, fresh') ∧
          next.tone = mode.tone ∧ next.Starts (word ++ rest) := step_lead hdirectives h hc
    obtain ⟨tail, htail⟩ := @ih next fresh' (some c) hnext hword
    refine ⟨tail, ?_⟩
    rw [List.cons_append, shadesFrom, hstep]
    dsimp only
    rw [htail, htone]
    rfl

/-! ## How a line begins in the masked view -/

theorem lastOf_none (word : List Char) : lastOf none word = word.getLast? := by
  rcases List.eq_nil_or_concat word with rfl | ⟨front, last, rfl⟩
  · rfl
  · rw [List.concat_eq_append, lastOf_append, List.getLast?_concat]
    rfl

theorem flatMap_blank_of_isLead {word : List Char} (hword : ∀ c ∈ word, IsLead c) :
    word.flatMap blank = List.replicate word.length ' ' := by
  induction word with
  | nil => rfl
  | cons c word ih =>
    obtain ⟨hc, hword⟩ := List.forall_mem_cons.mp hword
    have hblank : blank c = [' '] := by rcases hc with rfl | rfl | rfl <;> rfl
    rw [List.flatMap_cons, ih hword, hblank]
    rfl

theorem view_lead (mode : Mode) {word : List Char} (hword : ∀ c ∈ word, IsLead c) :
    view (· != .plain) (tint mode.tone word) =
      if mode.hides then List.replicate word.length ' ' else word := by
  rw [view_tint, flatMap_blank_of_isLead hword]
  cases mode <;> rfl

/-- The masked view of a text, cut where a line starts: the first characters of the line show as
they are or are blank, as the mode there has it. -/
theorem exists_masked_lead {rules : MaskRules} (hdirectives : rules.directives = false)
    (hblocks : rules.textBlocks = false) {before word : List Char} (rest : List Char)
    (hline : Text.startsLine before = true) (hword : ∀ c ∈ word, IsLead c) :
    ∃ front tail, Blanks before front ∧ masked rules (before ++ (word ++ rest)) =
      front ++ ((if (modeAt rules before (word ++ rest)).hides then List.replicate word.length ' '
        else word) ++ tail) := by
  obtain ⟨lead, hlead, hshades⟩ :=
    exists_shadesFrom_append rules (.code, true) none before (word ++ rest)
  have hfits : (modeAt rules before (word ++ rest)).Fits (lastOf none before) (word ++ rest) :=
    fits_stateAfter hdirectives hblocks trivial
  have hstarts : (modeAt rules before (word ++ rest)).Starts (word ++ rest) :=
    hfits.starts (by rwa [lastOf_none])
  obtain ⟨behind, hbehind⟩ := exists_shadesFrom_lead hdirectives hstarts hword
  refine ⟨view (· != .plain) lead, paint (· != .plain) behind rest, ?_, ?_⟩
  · rw [← paint_shadesOf, hlead]
    exact blanks_paint _ _ _
  · have hword' : wordOf (tint (modeAt rules before (word ++ rest)).tone word) = word :=
      wordOf_tint _ _
    calc masked rules (before ++ (word ++ rest))
        = paint (· != .plain) (shadesOf lead ++
            (shadesOf (tint (modeAt rules before (word ++ rest)).tone word) ++ behind))
            (wordOf lead ++ (wordOf (tint (modeAt rules before (word ++ rest)).tone word) ++ rest)) := by
          rw [masked, shades, hshades, ← modeAt, hbehind, hlead, hword']
      _ = _ := by rw [paint_shadesOf_append, paint_shadesOf_append, view_lead _ hword]

end Mask
end Outline
