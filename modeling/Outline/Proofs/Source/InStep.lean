import Outline.Proofs.Source.Pairing

/-!
# Literals that leave the matcher in step

Of a literal the masked view keeps the quotes and the line feeds, and the matcher
reads these once more, with rules of its own: a quote opens a literal wherever it
stands, and a line feed ends every literal.  It stays in step with the masking
pass as long as no apostrophe separates digits, no raw string has a delimiter that
reads as the end of a literal, and no literal goes on behind a line feed.  Then it
sees every brace of the view.
-/

namespace Outline

namespace Delimiter

/-- What the delimiter of a raw string is made of when it reads as quoted text. -/
def quiet (c : Char) : Bool :=
  c != '"' && c != '\\' && c != '\n' && c != '\x7b' && c != '\x7d'

/-- The matcher goes over a word without braces, whatever comes after it. -/
inductive Reads : Mode → List Char → Mode → Prop
  | nil (mode : Mode) : Reads mode [] mode
  | cons {mode mode' stop : Mode} {c : Char} {word : List Char} (hc : c ≠ '\x7b' ∧ c ≠ '\x7d')
      (hafter : ∀ rest, mode.after c rest = mode') (h : Reads mode' word stop) :
      Reads mode (c :: word) stop

theorem after_quoted_quiet {c : Char} (hc : quiet c = true) (rest : List Char) :
    (Mode.quoted '"').after c rest = .quoted '"' := by
  simp only [quiet, Bool.and_eq_true, bne_iff_ne] at hc
  obtain ⟨⟨⟨⟨hquote, hback⟩, hfeed⟩, _⟩, _⟩ := hc
  rw [Mode.after, if_neg hback, if_neg (fun h => h.elim hquote hfeed)]

theorem reads_quoted {word : List Char} (hw : ∀ c ∈ word, quiet c = true) :
    Reads (.quoted '"') word (.quoted '"') := by
  induction word with
  | nil => exact .nil _
  | cons c word ih =>
    have hc := hw c List.mem_cons_self
    have hbrace : c ≠ '\x7b' ∧ c ≠ '\x7d' := by
      simp only [quiet, Bool.and_eq_true, bne_iff_ne] at hc
      exact ⟨hc.1.2, hc.2⟩
    exact .cons hbrace (after_quoted_quiet hc) (ih fun x hx => hw x (List.mem_cons_of_mem c hx))

theorem Reads.append {mode mode' stop : Mode} {a b : List Char} (h : Reads mode a mode')
    (k : Reads mode' b stop) : Reads mode (a ++ b) stop := by
  induction h with
  | nil mode => exact k
  | cons hc hafter _ ih => exact .cons hc hafter (ih k)

theorem reads_quote_code : Reads .code ['"'] (.quoted '"') :=
  .cons (by decide) (fun _ => rfl) (.nil _)

theorem reads_code_quote : Reads (.quoted '"') ['"'] .code :=
  .cons (by decide) (fun _ => rfl) (.nil _)

/-- Blanks leave the matcher where it is, in code and in quotes.  A line feed does so
in code only. -/
theorem seesBraces_blank {mode : Mode} {c : Char} {rest : List Char}
    (hm : mode = .code ∨ c ≠ '\n' ∧ ∃ quote, mode = .quoted quote ∧ quote ≠ ' ')
    (h : SeesBraces mode rest) : SeesBraces mode (Mask.blank c ++ rest) := by
  have hspace : ∀ rest, mode.after ' ' rest = mode := by
    intro rest
    rcases hm with rfl | ⟨_, quote, rfl, hquote⟩
    · rfl
    · rw [Mode.after, if_neg (by decide), if_neg]
      rintro (hq | hq)
      · exact hquote hq.symm
      · exact absurd hq (by decide)
  rw [Mask.blank]
  split
  · next hc =>
    rcases hm with rfl | ⟨hne, _⟩
    · exact ⟨fun _ => rfl, h⟩
    · exact absurd hc hne
  · generalize c.utf8Size = n
    induction n with
    | zero => exact h
    | succ n ih =>
      refine ⟨fun hb => absurd hb (by decide), ?_⟩
      rw [hspace]
      exact ih

end Delimiter

namespace Mask

open Delimiter (Reads SeesBraces quiet)

/-! ## Staying in step -/

/-- What keeps the matcher in step at one character.  In code an apostrophe opens a
literal, and a raw string has a quiet delimiter.  A line feed ends a plain literal;
none is escaped, and none stands in a literal of another kind. -/
def keepsStep (rules : MaskRules) (mode : Mode) (previous : Option Char) (c : Char)
    (rest : List Char) : Bool :=
  match mode with
  | .code =>
    !(c == '\'' && rules.digitSeparators && separatesDigits previous rest) &&
      (!(rules.rawStrings && c == 'R' && rest.head? == some '"' && !endsName previous
          && rest.tail.contains '(') ||
        (rest.tail.takeWhile (· != '(')).all quiet)
  | .escape _ | .textBlock | .raw _ => c != '\n'
  | _ => true

/-- Whether the matcher stays in step with the pass over a text. -/
def inStepFrom (rules : MaskRules) : Mode → Bool → Option Char → List Char → Bool
  | _, _, _, [] => true
  | mode, fresh, previous, c :: rest =>
    let (_, next, fresh) := step rules mode fresh previous c rest
    keepsStep rules mode previous c rest && inStepFrom rules next fresh (some c) rest

def inStep (rules : MaskRules) (text : List Char) : Bool := inStepFrom rules .code true none text

/-- What the matcher is inside of when the pass is between tokens. -/
def Mode.reader : Mode → Delimiter.Mode
  | .quoted quote => .quoted quote
  | .textBlock | .raw _ => .quoted '"'
  | _ => .code

/-- The modes between tokens in which the matcher can be in step. -/
def Mode.Quiet : Mode → Prop
  | .quoted quote => quote = '"' ∨ quote = '\''
  | .raw close => ∃ delimiter, close = ')' :: delimiter ++ ['"'] ∧ ∀ c ∈ delimiter, quiet c = true
  | .escape _ | .pass _ _ _ => False
  | _ => True

theorem Mode.Quiet.quote_ne_space {mode : Mode} {quote : Char} (h : mode.Quiet)
    (hr : mode.reader = .quoted quote) : quote ≠ ' ' := by
  cases mode with
  | quoted _ =>
    cases hr
    rcases h with rfl | rfl <;> decide
  | textBlock => cases hr; decide
  | raw _ => cases hr; decide
  | _ => cases hr

/-- The matcher is in step with the pass in front of a text. -/
inductive InStep : Mode → Delimiter.Mode → List Char → Prop
  | between {mode : Mode} {text : List Char} (h : mode.Quiet) : InStep mode mode.reader text
  | escape {back : Mode} {quote : Char} {text : List Char} (h : back.Quiet)
      (hr : back.reader = .quoted quote) : InStep (.escape back) back.reader text
  | blank {next : Mode} {text : List Char} (h : next.Quiet) (hr : next.reader = .code) :
      InStep (.pass 0 .comment next) .code text
  | token {reader : Delimiter.Mode} {next : Mode} {c : Char} {word rest : List Char}
      (h : next.Quiet) (hw : Reads reader (c :: word) next.reader) :
      InStep (.pass word.length .plain next) reader (c :: word ++ rest)

theorem inStep_passing {reader : Delimiter.Mode} {next : Mode} {word : List Char} (h : next.Quiet)
    (hw : Reads reader word next.reader) (rest : List Char) :
    InStep (.passing word.length .plain next) reader (word ++ rest) := by
  cases hw with
  | nil => exact .between h
  | cons hc hafter k => exact .token h (.cons hc hafter k)

/-- How one character leaves the matcher in step: kept, it is seen if it is a brace
and the matcher reads it; blanked, it leaves the matcher where it is. -/
def KeepsReader (shade : Shade) (next : Mode) (reader : Delimiter.Mode) (c : Char)
    (rest : List Char) : Prop :=
  if shade = .plain then
    (c = '\x7b' ∨ c = '\x7d' → reader = .code) ∧
      ∀ seen, Blanks rest seen → InStep next (reader.after c seen) rest
  else
    (reader = .code ∨ c ≠ '\n' ∧ ∃ quote, reader = .quoted quote ∧ quote ≠ ' ') ∧
      InStep next reader rest

theorem KeepsReader.plain {next : Mode} {reader : Delimiter.Mode} {c : Char} {rest : List Char}
    (hb : c = '\x7b' ∨ c = '\x7d' → reader = .code)
    (h : ∀ seen, Blanks rest seen → InStep next (reader.after c seen) rest) :
    KeepsReader .plain next reader c rest := by
  rw [KeepsReader, if_pos rfl]
  exact ⟨hb, h⟩

theorem KeepsReader.code {shade : Shade} {next : Mode} {c : Char} {rest : List Char}
    (hs : shade ≠ .plain) (h : InStep next .code rest) : KeepsReader shade next .code c rest := by
  rw [KeepsReader, if_neg hs]
  exact ⟨Or.inl rfl, h⟩

theorem KeepsReader.quoted {next : Mode} {quote c : Char} {rest : List Char} (hq : quote ≠ ' ')
    (hc : c ≠ '\n') (h : InStep next (.quoted quote) rest) :
    KeepsReader .literal next (.quoted quote) c rest := by
  rw [KeepsReader, if_neg (by decide)]
  exact ⟨Or.inr ⟨hc, quote, rfl, hq⟩, h⟩

/-! ## One step -/

section

variable (rules : MaskRules) (fresh : Bool) (previous : Option Char) (c : Char) (rest : List Char)

/-- A character that stands for itself in code does so for the matcher as well. -/
theorem after_code {c : Char} {rest seen : List Char} (hquote : c ≠ '"') (hchar : c ≠ '\'')
    (hline : ¬ (c = '/' ∧ rest.head? = some '/')) (hblock : ¬ (c = '/' ∧ rest.head? = some '*'))
    (h : Blanks rest seen) : Delimiter.Mode.code.after c seen = .code := by
  rw [Delimiter.Mode.after, if_neg (fun hc => hc.elim hquote hchar),
    if_neg (fun hc => hline ⟨hc.1, h.head? (by decide) hc.2⟩),
    if_neg (fun hc => hblock ⟨hc.1, h.head? (by decide) hc.2⟩)]

theorem keepsReader_code (hk : keepsStep rules .code previous c rest = true) :
    KeepsReader (step rules .code fresh previous c rest).1
      (step rules .code fresh previous c rest).2.1 .code c rest := by
  simp only [step]
  by_cases hline : c = '/' ∧ rest.head? = some '/'
  · rw [if_pos hline]
    show KeepsReader .comment (.pass 0 .comment .lineComment) .code c rest
    exact .code (by decide) (.blank trivial rfl)
  by_cases hblock : c = '/' ∧ rest.head? = some '*'
  · rw [if_neg hline, if_pos hblock]
    show KeepsReader .comment (.pass 0 .comment .blockComment) .code c rest
    exact .code (by decide) (.blank trivial rfl)
  by_cases hdirective : rules.directives = true ∧ fresh = true ∧ c = '#'
  · rw [if_neg hline, if_neg hblock, if_pos hdirective]
    show KeepsReader .comment .directive .code c rest
    exact .code (by decide) (@InStep.between .directive _ trivial)
  by_cases htriple : rules.textBlocks = true ∧ c = '"' ∧ Text.startsWith rest ['"', '"'] = true
  · rw [if_neg hline, if_neg hblock, if_neg hdirective, if_pos htriple]
    obtain ⟨_, rfl, hstart⟩ := htriple
    obtain ⟨after, rfl⟩ := Text.startsWith_iff.mp hstart
    refine .plain (by simp) fun seen _ => ?_
    exact @InStep.token _ .textBlock '"' ['"'] after trivial
      (Delimiter.reads_code_quote.append Delimiter.reads_quote_code)
  rw [if_neg hline, if_neg hblock, if_neg hdirective, if_neg htriple]
  by_cases hraw : rules.rawStrings = true ∧ c = 'R' ∧ rest.head? = some '"' ∧
      endsName previous = false ∧ '(' ∈ rest.tail
  · rw [if_pos hraw]
    obtain ⟨hrules, rfl, hhead, hname, hopen⟩ := hraw
    obtain ⟨after, rfl⟩ := List.head?_eq_some_iff.mp hhead
    rw [List.tail_cons] at hopen ⊢
    obtain ⟨more, hmore⟩ := Text.exists_takeWhile_append hopen
    have hquiet : ∀ x ∈ after.takeWhile (· != '('), quiet x = true := by
      simpa [keepsStep, hrules, hname, hopen] using hk
    generalize after.takeWhile (· != '(') = delimiter at hmore hquiet
    subst hmore
    have hword : Reads .code ('"' :: delimiter ++ ['(']) (.quoted '"') := by
      refine Delimiter.reads_quote_code.append (Delimiter.reads_quoted fun x hx => ?_)
      rcases List.mem_append.mp hx with hx | hx
      · exact hquiet x hx
      · rw [List.mem_singleton.mp hx]
        rfl
    have hclose : Mode.Quiet (.raw (')' :: delimiter ++ ['"'])) := ⟨delimiter, rfl, hquiet⟩
    have htoken := inStep_passing hclose hword more
    have hrest : '"' :: delimiter ++ ['('] ++ more = '"' :: (delimiter ++ '(' :: more) := by simp
    rw [List.length_append, List.length_cons, hrest] at htoken
    exact .plain (by simp) fun seen _ => htoken
  rw [if_neg hraw]
  by_cases hquote : c = '"'
  · rw [if_pos hquote]
    subst hquote
    refine .plain (by simp) fun seen _ => ?_
    exact @InStep.between (.quoted '"') _ (Or.inl rfl)
  rw [if_neg hquote]
  by_cases hchar : c = '\''
  · subst hchar
    have hkeeps : ¬ (rules.digitSeparators = true ∧ separatesDigits previous rest = true) := by
      rintro ⟨hrules, hdigits⟩
      simp [keepsStep, hrules, hdigits] at hk
    rw [if_pos ⟨rfl, hkeeps⟩]
    refine .plain (by simp) fun seen _ => ?_
    exact @InStep.between (.quoted '\'') _ (Or.inr rfl)
  · rw [if_neg (fun h => hchar h.1)]
    refine .plain (fun _ => rfl) fun seen hseen => ?_
    rw [after_code hquote hchar hline hblock hseen]
    exact @InStep.between .code _ trivial

theorem keepsReader_lineComment :
    KeepsReader (step rules .lineComment fresh previous c rest).1
      (step rules .lineComment fresh previous c rest).2.1 .code c rest := by
  simp only [step]
  by_cases hfeed : c = '\n'
  · subst hfeed
    exact .plain (by simp) fun seen _ => @InStep.between .code _ trivial
  · rw [if_neg hfeed]
    show KeepsReader .comment .lineComment .code c rest
    exact .code (by decide) (@InStep.between .lineComment _ trivial)

theorem keepsReader_blockComment :
    KeepsReader (step rules .blockComment fresh previous c rest).1
      (step rules .blockComment fresh previous c rest).2.1 .code c rest := by
  simp only [step]
  by_cases hclose : c = '*' ∧ rest.head? = some '/'
  · rw [if_pos hclose]
    show KeepsReader .comment (.pass 0 .comment .code) .code c rest
    exact .code (by decide) (.blank trivial rfl)
  · rw [if_neg hclose]
    show KeepsReader .comment .blockComment .code c rest
    exact .code (by decide) (@InStep.between .blockComment _ trivial)

/-- The line feed of a continued directive is kept, and in code it changes nothing. -/
theorem keepsReader_directive :
    KeepsReader (step rules .directive fresh previous c rest).1
      (step rules .directive fresh previous c rest).2.1 .code c rest := by
  simp only [step]
  by_cases hcontinued : c = '\\' ∧ rest.head? = some '\n'
  · rw [if_pos hcontinued]
    obtain ⟨after, rfl⟩ := List.head?_eq_some_iff.mp hcontinued.2
    show KeepsReader .comment (.pass 0 .plain .directive) .code c ('\n' :: after)
    exact .code (by decide) (@InStep.token .code .directive '\n' [] after trivial
      (.cons (by decide) (fun _ => rfl) (.nil _)))
  rw [if_neg hcontinued]
  by_cases hfeed : c = '\n'
  · subst hfeed
    exact .plain (by simp) fun seen _ => @InStep.between .code _ trivial
  · rw [if_neg hfeed]
    show KeepsReader .comment .directive .code c rest
    exact .code (by decide) (@InStep.between .directive _ trivial)

theorem keepsReader_quoted {quote : Char} (hq : quote = '"' ∨ quote = '\'') :
    KeepsReader (step rules (.quoted quote) fresh previous c rest).1
      (step rules (.quoted quote) fresh previous c rest).2.1 (.quoted quote) c rest := by
  have hspace : quote ≠ ' ' := @Mode.Quiet.quote_ne_space (.quoted quote) quote hq rfl
  have hbrace : ∀ x : Char, x = quote ∨ x = '\n' → ¬ (x = '\x7b' ∨ x = '\x7d') := by
    rintro x (rfl | rfl)
    · rcases hq with rfl | rfl <;> decide
    · decide
  simp only [step]
  by_cases hslash : c = '\\'
  · subst hslash
    rw [if_pos rfl]
    show KeepsReader .literal (.escape (.quoted quote)) (.quoted quote) '\\' rest
    exact .quoted hspace (by decide) (@InStep.escape (.quoted quote) quote _ hq rfl)
  rw [if_neg hslash]
  by_cases hends : c = quote ∨ c = '\n'
  · rw [if_pos hends]
    refine .plain (fun h => absurd h (hbrace c hends)) fun seen _ => ?_
    rw [Delimiter.Mode.after, if_neg hslash, if_pos hends]
    exact @InStep.between .code _ trivial
  · rw [if_neg hends]
    exact .quoted hspace (fun h => hends (Or.inr h)) (@InStep.between (.quoted quote) _ hq)

theorem keepsReader_textBlock (hk : keepsStep rules .textBlock previous c rest = true) :
    KeepsReader (step rules .textBlock fresh previous c rest).1
      (step rules .textBlock fresh previous c rest).2.1 (.quoted '"') c rest := by
  have hfeed : c ≠ '\n' := by simpa [keepsStep] using hk
  simp only [step]
  by_cases hclose : c = '"' ∧ Text.startsWith rest ['"', '"'] = true
  · rw [if_pos hclose]
    obtain ⟨rfl, hstart⟩ := hclose
    obtain ⟨after, rfl⟩ := Text.startsWith_iff.mp hstart
    refine .plain (by simp) fun seen _ => ?_
    exact @InStep.token _ .code '"' ['"'] after trivial
      (Delimiter.reads_quote_code.append Delimiter.reads_code_quote)
  rw [if_neg hclose]
  by_cases hslash : c = '\\'
  · rw [if_pos hslash]
    exact .quoted (by decide) hfeed (@InStep.escape .textBlock '"' _ trivial rfl)
  · rw [if_neg hslash]
    exact .quoted (by decide) hfeed (@InStep.between .textBlock _ trivial)

theorem keepsReader_raw {close : List Char} (hm : Mode.Quiet (.raw close))
    (hk : keepsStep rules (.raw close) previous c rest = true) :
    KeepsReader (step rules (.raw close) fresh previous c rest).1
      (step rules (.raw close) fresh previous c rest).2.1 (.quoted '"') c rest := by
  have hfeed : c ≠ '\n' := by simpa [keepsStep] using hk
  obtain ⟨delimiter, rfl, hquiet⟩ := hm
  simp only [step]
  by_cases hclose : Text.startsWith (c :: rest) (')' :: delimiter ++ ['"']) = true
  · rw [if_pos hclose]
    obtain ⟨after, hafter⟩ := Text.startsWith_iff.mp hclose
    obtain ⟨rfl, rfl⟩ := List.cons.inj hafter
    have hword := (Delimiter.reads_quoted hquiet).append Delimiter.reads_code_quote
    exact .plain (by simp) fun seen _ => @inStep_passing _ .code _ trivial hword after
  · rw [if_neg hclose]
    exact .quoted (by decide) hfeed (@InStep.between (.raw _) _ ⟨delimiter, rfl, hquiet⟩)

theorem keepsReader_step {mode : Mode} {reader : Delimiter.Mode}
    (h : InStep mode reader (c :: rest)) (hk : keepsStep rules mode previous c rest = true) :
    KeepsReader (step rules mode fresh previous c rest).1
      (step rules mode fresh previous c rest).2.1 reader c rest := by
  cases h with
  | between hquiet =>
    cases mode with
    | code => exact keepsReader_code rules fresh previous c rest hk
    | lineComment => exact keepsReader_lineComment rules fresh previous c rest
    | blockComment => exact keepsReader_blockComment rules fresh previous c rest
    | directive => exact keepsReader_directive rules fresh previous c rest
    | quoted quote => exact keepsReader_quoted rules fresh previous c rest hquiet
    | textBlock => exact keepsReader_textBlock rules fresh previous c rest hk
    | raw close => exact keepsReader_raw rules fresh previous c rest hquiet hk
    | escape back => exact hquiet.elim
    | pass more shade next => exact hquiet.elim
  | @escape back quote _ hquiet hr =>
    have hfeed : c ≠ '\n' := by simpa [keepsStep] using hk
    have hspace := hquiet.quote_ne_space hr
    have hnext := @InStep.between back rest hquiet
    rw [hr] at hnext ⊢
    exact .quoted hspace hfeed hnext
  | @blank next _ hquiet hr =>
    have hnext := @InStep.between next rest hquiet
    rw [hr] at hnext
    show KeepsReader .comment next .code c rest
    exact .code (by decide) hnext
  | @token _ next _ word _ hquiet hw =>
    cases hw with
    | cons hbrace hafter hword =>
      refine .plain (fun h => absurd h (by simp [hbrace])) fun seen _ => ?_
      rw [hafter]
      exact inStep_passing hquiet hword _

end

/-! ## The whole pass -/

/-- In step with the pass the matcher sees every brace of the masked view. -/
theorem seesBraces_paint {rules : MaskRules} {mode : Mode} {fresh : Bool} {previous : Option Char}
    {reader : Delimiter.Mode} {text : List Char} (h : InStep mode reader text)
    (hs : inStepFrom rules mode fresh previous text = true) :
    SeesBraces reader (paint (· != .plain) (shadesFrom rules mode fresh previous text) text) := by
  induction text generalizing mode fresh previous reader with
  | nil => trivial
  | cons c rest ih =>
    rw [inStepFrom, Bool.and_eq_true] at hs
    have hstep := keepsReader_step rules fresh previous c rest h hs.1
    rw [shadesFrom, paint]
    rw [KeepsReader] at hstep
    split at hstep
    · next hplain =>
      rw [hplain, if_neg (by decide), List.singleton_append]
      exact ⟨hstep.1, ih (hstep.2 _ (blanks_paint _ _ _)) hs.2⟩
    · next hplain =>
      rw [if_pos (by simpa using hplain)]
      exact Delimiter.seesBraces_blank hstep.1 (ih hstep.2 hs.2)

theorem seesBraces_masked {rules : MaskRules} {text : List Char} (h : inStep rules text = true) :
    SeesBraces .code (masked rules text) :=
  seesBraces_paint (@InStep.between .code text trivial) h

end Mask

/-- The index and the matcher agree on a brace of the masked view exactly when the
braces that the matcher skips behind it leave the place where the count comes to
zero, and they agree on all of them when the literals keep the matcher in step. -/
theorem Brace.agreesAt_masked_iff (rules : MaskRules) (text : List Char) {p : Nat}
    (hp : Text.charAt? (Mask.masked rules text) p = some '\x7b') :
    (AgreesAt (Mask.masked rules text) p ↔
      close? (Mask.masked rules text) p = close? (Delimiter.seen (Mask.masked rules text) p) p) ∧
    (Mask.inStep rules text = true → AgreesAt (Mask.masked rules text) p) :=
  ⟨agreesAt_iff hp, fun h => agreesAt_of_seesBraces (Mask.seesBraces_masked h) hp⟩

/-- The apostrophe of `1'0` opens a literal for the matcher, which then misses the
end of the first body; in quotes of its own the brace of `'\x7d'` misleads nothing. -/
theorem Brace.agreesAt_masked_separator :
    ¬ AgreesAt (Mask.masked .cpp
      "int f() \x7b return 1'0; \x7d\nint g() \x7b return 2; \x7d\n".toList) 8 ∧
    AgreesAt (Mask.masked .cpp "int f() \x7b return '\x7d'; \x7d\n".toList) 8 :=
  ⟨fun h => absurd ((agreesAt_masked_iff .cpp _ (by decide)).1.mp h) (by decide),
    (agreesAt_masked_iff .cpp _ (by decide)).2 (by decide)⟩

end Outline
