import Mathlib.Data.List.Infix
import Outline.Proofs.Source.Tint
import Outline.Proofs.Text.Boundary

/-!
# Masking C++ tokens

The tokens of a C++ text that stand apart by single spaces: names, punctuators and
numbers, literals between quotes, and raw strings, the last two with an encoding
prefix or without.  The pass reads most sequences of them as they are meant.  It
misreads two kinds of token.  The `8` of `u8` is a hexadecimal digit, so before
another one the apostrophe of a character literal looks like a digit separator.
And a raw string counts as one only if its `R` does not follow a letter or digit,
so one with an encoding prefix is taken for a string that ends at the next quote.
-/

namespace Outline
namespace Cpp

open Mask

inductive Encoding
  | plain
  | utf8
  | utf16
  | utf32
  | wide
  deriving DecidableEq, Repr

/-- The letters in front of a literal. -/
def Encoding.text : Encoding → List Char
  | plain => []
  | utf8 => ['u', '8']
  | utf16 => ['u']
  | utf32 => ['U']
  | wide => ['L']

inductive Token
  /-- A name, punctuators, or a number with or without digit separators. -/
  | code (word : List Char)
  | quoted (encoding : Encoding) (quote : Char) (contents : List Atom)
  | raw (encoding : Encoding) (delimiter contents : List Char)
  deriving DecidableEq, Repr

/-- Every apostrophe of a word after `previous` stands between hexadecimal digits. -/
def separates (previous : Option Char) : List Char → Bool
  | [] => true
  | c :: word => (c != '\'' || separatesDigits previous word) && separates (some c) word

/-- What ends a raw string. -/
def closing (delimiter : List Char) : List Char := ')' :: delimiter ++ ['"']

namespace Token

def text : Token → List Char
  | code word => word
  | quoted encoding quote contents => encoding.text ++ quote :: spell contents ++ [quote]
  | raw encoding delimiter contents =>
    encoding.text ++ 'R' :: '"' :: delimiter ++ '(' :: contents ++ closing delimiter

/-- The token where the contents of literals are hidden. -/
def masked : Token → List Char
  | code word => word
  | quoted encoding quote contents =>
    encoding.text ++ quote :: (spell contents).flatMap blank ++ [quote]
  | raw encoding delimiter contents =>
    encoding.text ++ 'R' :: '"' :: delimiter ++ '(' :: contents.flatMap blank ++ closing delimiter

def Formed : Token → Prop
  | code word => (∀ c ∈ word, c ≠ '"' ∧ c ≠ '#' ∧ c ≠ '/') ∧ separates none word = true
  | quoted _ quote contents =>
    (quote = '"' ∨ quote = '\'') ∧ ∀ atom ∈ contents, atom.Fits quote
  | raw _ delimiter contents =>
    (∀ c ∈ delimiter, c ≠ ' ' ∧ c ≠ '(' ∧ c ≠ ')' ∧ c ≠ '\\') ∧ ¬ closing delimiter <:+: contents

/-- A token that the pass takes for something else. -/
def Misread : Token → Prop
  | code _ => False
  | quoted encoding quote contents =>
    encoding = .utf8 ∧ quote = '\'' ∧ (spell contents).head?.any isHexDigit = true
  | raw encoding _ _ => encoding ≠ .plain

/-- The misreading of a raw string shows at once, unless its delimiter begins by
ending the string that it is taken for. -/
def Shows : Token → Prop
  | raw _ delimiter _ => delimiter.head? ≠ some '"' ∧ delimiter.head? ≠ some '\n'
  | _ => True

instance (token : Token) : Decidable token.Formed := by
  cases token <;> unfold Formed <;> infer_instance

instance (token : Token) : Decidable token.Misread := by
  cases token <;> unfold Misread <;> infer_instance

/-- The characters of a token with the shades its masked view stands for. -/
def tinted : Token → Tinted
  | code word => tint .plain word
  | quoted encoding quote contents =>
    tint .plain encoding.text ++
      ((.plain, quote) :: tint .literal (spell contents) ++ [(.plain, quote)])
  | raw encoding delimiter contents =>
    tint .plain (encoding.text ++ 'R' :: '"' :: delimiter ++ ['(']) ++ tint .literal contents ++
      tint .plain (closing delimiter)

theorem wordOf_tinted (token : Token) : wordOf token.tinted = token.text := by
  cases token <;> simp [tinted, text]

theorem view_tinted_stripped (token : Token) :
    view (· == .comment) token.tinted = token.text := by
  cases token <;> simp [tinted, text]

theorem view_tinted_masked (token : Token) : view (· != .plain) token.tinted = token.masked := by
  cases token <;> simp [tinted, masked]

end Token

/-! ## Names, punctuators and numbers -/

section Tints

variable {previous : Option Char} {rest : List Char}

theorem stepsTo_code {c : Char} (h : c ≠ '"' ∧ c ≠ '#' ∧ c ≠ '/')
    (hraw : c = 'R' → rest.head? ≠ some '"')
    (hsep : c = '\'' → separatesDigits previous rest = true) :
    StepsTo .cpp .code previous c rest .plain .code := by
  obtain ⟨hquote, hhash, hslash⟩ := h
  refine fun fresh => ⟨freshAfter fresh c, ?_⟩
  have hraw' : ¬ (MaskRules.cpp.rawStrings = true ∧ c = 'R' ∧ rest.head? = some '"' ∧
      endsName previous = false ∧ '(' ∈ rest.tail) := fun h => hraw h.2.1 h.2.2.1
  have hsep' : ¬ (c = '\'' ∧ ¬ (MaskRules.cpp.digitSeparators = true ∧
      separatesDigits previous rest = true)) := fun h => h.2 ⟨rfl, hsep h.1⟩
  simp only [step, hslash, hhash, hquote, hraw', hsep', false_and, and_false, if_false]

theorem separatesDigits_append {word : List Char} (h : separatesDigits previous word = true) :
    separatesDigits previous (word ++ rest) = true := by
  cases word with
  | nil => simp [separatesDigits] at h
  | cons c word => exact h

theorem tints_separated {word : List Char} (h : ∀ c ∈ word, c ≠ '"' ∧ c ≠ '#' ∧ c ≠ '/')
    (hsep : separates previous word = true) (hrest : rest.head? ≠ some '"') :
    Tints .cpp .code previous (tint .plain word) .code rest := by
  induction word generalizing previous with
  | nil => exact .nil
  | cons c word ih =>
    rw [separates, Bool.and_eq_true, Bool.or_eq_true, bne_iff_ne] at hsep
    refine .stretch (stepsTo_code (h c (by simp)) (fun _ => ?_) fun hc => ?_)
      (ih (fun c hc => h c (by simp [hc])) hsep.2)
    · cases word with
      | nil => exact hrest
      | cons d word => simpa using (h d (by simp)).1
    · exact separatesDigits_append (hsep.1.resolve_left fun hne => hne hc)

/-- The first character of a word that keeps to separators is none. -/
theorem separates_of_none {word : List Char} (h : separates none word = true)
    (previous : Option Char) : separates previous word = true := by
  cases word with
  | nil => rfl
  | cons c word =>
    rw [separates, Bool.and_eq_true, Bool.or_eq_true] at h ⊢
    exact ⟨.inl (h.1.resolve_right (by simp [separatesDigits])), h.2⟩

theorem tints_encoding (encoding : Encoding) :
    Tints .cpp .code previous (tint .plain encoding.text) .code rest := by
  have hstep : ∀ {previous c rest}, c ∈ ['u', '8', 'U', 'L'] →
      StepsTo .cpp .code previous c rest .plain .code := fun {_ c _} hc => by
    have hplain : (c ≠ '"' ∧ c ≠ '#' ∧ c ≠ '/') ∧ c ≠ 'R' ∧ c ≠ '\'' := by
      revert c
      decide
    exact stepsTo_code hplain.1 (fun h => absurd h hplain.2.1) fun h => absurd h hplain.2.2
  cases encoding with
  | plain => exact .nil
  | utf8 => exact .stretch (hstep (by simp)) (.single (hstep (by simp)))
  | utf16 => exact .single (hstep (by simp))
  | utf32 => exact .single (hstep (by simp))
  | wide => exact .single (hstep (by simp))

/-! ## Literals -/

theorem stepsTo_string : StepsTo .cpp .code previous '"' rest .plain (.quoted '"') :=
  fun fresh => ⟨freshAfter fresh '"', by simp [step, MaskRules.cpp]⟩

theorem stepsTo_char (h : separatesDigits previous rest = false) :
    StepsTo .cpp .code previous '\'' rest .plain (.quoted '\'') := by
  refine fun fresh => ⟨freshAfter fresh '\'', ?_⟩
  simp [step, h, MaskRules.cpp]

/-- No literal is read together with what stands before it when that is a blank or
nothing. -/
def Fresh (previous : Option Char) : Prop := previous = none ∨ previous = some ' '

theorem separatesDigits_encoding (hp : Fresh previous) {encoding : Encoding}
    {contents : List Atom} (h : ¬ (Token.quoted encoding '\'' contents).Misread) :
    separatesDigits (lastOf previous encoding.text) (spell contents ++ '\'' :: rest) = false := by
  have hany : ∀ c, isHexDigit c = false → ∀ rest, separatesDigits (some c) rest = false :=
    fun c hc rest => by simp [separatesDigits, hc]
  cases encoding with
  | plain =>
    rcases hp with rfl | rfl
    · rfl
    · exact hany ' ' (by decide) _
  | utf8 =>
    have hhead : (spell contents).head?.any isHexDigit = false :=
      Bool.eq_false_iff.mpr fun hh => h ⟨rfl, rfl, hh⟩
    cases hword : spell contents with
    | nil => rfl
    | cons c word =>
      rw [hword] at hhead
      simpa [separatesDigits] using fun _ => hhead
  | utf16 => exact hany 'u' (by decide) _
  | utf32 => exact hany 'U' (by decide) _
  | wide => exact hany 'L' (by decide) _

theorem tints_quoted (hp : Fresh previous) {encoding : Encoding} {quote : Char}
    {contents : List Atom} (hf : (Token.quoted encoding quote contents).Formed)
    (hm : ¬ (Token.quoted encoding quote contents).Misread) :
    Tints .cpp .code previous (Token.quoted encoding quote contents).tinted .code rest := by
  refine .append (tints_encoding encoding) ?_
  rw [wordOf_tint]
  obtain ⟨rfl | rfl, hfits⟩ := hf
  · exact tints_literal stepsTo_string (by decide) hfits
  · exact tints_literal (stepsTo_char (separatesDigits_encoding hp hm)) (by decide) hfits

/-- A closing sequence cannot begin inside the contents and end behind them, since
its parenthesis is the only one in it. -/
theorem startsWith_closing_eq_false {delimiter contents : List Char} {c : Char}
    (hd : ')' ∉ delimiter) (h : ¬ closing delimiter <:+: c :: contents) :
    Text.startsWith (c :: contents ++ closing delimiter ++ rest) (closing delimiter) = false := by
  rw [Bool.eq_false_iff, ne_eq, Text.startsWith_iff]
  rintro ⟨tail, htail⟩
  rw [List.append_assoc, List.append_eq_append_iff] at htail
  obtain ⟨more, hclose, hmore⟩ | ⟨more, hcontents, -⟩ := htail
  · cases more with
    | nil => exact h ⟨[], [], by simpa using hclose⟩
    | cons d more =>
      obtain ⟨hd', -⟩ := List.cons.inj hmore
      have hrest : delimiter ++ ['"'] = contents ++ d :: more := (List.cons.inj hclose).2
      have hmem : ')' ∈ delimiter ++ ['"'] := by
        rw [hrest, hd']
        simp
      simp [hd] at hmem
  · exact h ⟨[], more, by simpa using hcontents.symm⟩

theorem tints_rawContents {delimiter contents : List Char} (hd : ')' ∉ delimiter)
    (h : ¬ closing delimiter <:+: contents) :
    Tints .cpp (.raw (closing delimiter)) previous (tint .literal contents)
      (.raw (closing delimiter)) (closing delimiter ++ rest) := by
  induction contents generalizing previous with
  | nil => exact .nil
  | cons c contents ih =>
    have hopen : Text.startsWith (c :: (contents ++ (closing delimiter ++ rest)))
        (closing delimiter) = false := by
      simpa using startsWith_closing_eq_false hd h
    refine .stretch (fun fresh => ⟨freshAfter fresh c, ?_⟩)
      (ih fun hi => h (hi.trans (List.suffix_cons c contents).isInfix))
    rw [step, hopen, if_neg Bool.false_ne_true]

theorem tints_raw (hp : Fresh previous) {delimiter contents : List Char}
    (h : (Token.raw .plain delimiter contents).Formed) :
    Tints .cpp .code previous (Token.raw .plain delimiter contents).tinted .code rest := by
  obtain ⟨hdelimiter, hcontents⟩ := h
  have hopenParen : ∀ c ∈ delimiter, (c != '(') = true := fun c hc => by
    simpa using (hdelimiter c hc).2.1
  have hcloseParen : ')' ∉ delimiter := fun hc => (hdelimiter _ hc).2.2.1 rfl
  have hname : endsName previous = false := by
    rcases hp with rfl | rfl <;> rfl
  have hopen : ∀ rest, Tints .cpp .code previous
      (tint .plain ('R' :: ('"' :: delimiter ++ ['(']))) (.raw (closing delimiter)) rest := by
    intro rest
    have hlook : (delimiter ++ '(' :: rest).takeWhile (· != '(') = delimiter := by
      rw [List.takeWhile_append_of_pos hopenParen]
      simp
    refine .stretch (fun fresh => ⟨fresh, ?_⟩) (.passing ('"' :: delimiter ++ ['(']))
    simp [step, MaskRules.cpp, hname, hlook, closing, Mode.passing]
  have hclose : ∀ previous, Tints .cpp (.raw (closing delimiter)) previous
      (tint .plain (closing delimiter)) .code rest := by
    intro previous
    refine .stretch (fun fresh => ⟨fresh, ?_⟩) (.passing (delimiter ++ ['"']))
    have hstart : Text.startsWith (closing delimiter ++ rest) (closing delimiter) = true :=
      Text.startsWith_iff.mpr ⟨rest, rfl⟩
    simp [step, closing] at hstart ⊢
    simp [hstart]
  refine .append (.append (hopen _) ?_) (hclose _)
  rw [wordOf_tint, wordOf_tint]
  exact tints_rawContents hcloseParen hcontents

theorem tints_token (hp : Fresh previous) {token : Token} (hf : token.Formed)
    (hm : ¬ token.Misread) (hrest : rest.head? ≠ some '"') :
    Tints .cpp .code previous token.tinted .code rest := by
  cases token with
  | code word => exact tints_separated hf.1 (separates_of_none hf.2 previous) hrest
  | quoted encoding quote contents => exact tints_quoted hp hf hm
  | raw encoding delimiter contents =>
    obtain rfl : encoding = .plain := by simpa [Token.Misread] using hm
    exact tints_raw hp hf

/-! ## Misread tokens -/

theorem exists_blank_eq {c : Char} (hc : c ≠ '\n') : ∃ more, blank c = ' ' :: more := by
  obtain ⟨n, hn⟩ : ∃ n, c.utf8Size = n + 1 := Nat.exists_eq_add_one.mpr (Char.utf8Size_pos c)
  exact ⟨List.replicate n ' ', by rw [blank, if_neg hc, hn, List.replicate_succ]⟩

/-- With `rest` behind it the token does not show as it should: the two texts part
after `common`. -/
def Parts (previous : Option Char) (token : Token) (rest : List Char) : Prop :=
  ∃ word mode behind common shown meant, wordOf word ++ behind = token.text ++ rest ∧
    Tints .cpp .code previous word mode behind ∧
    common ++ [shown] <+: view (· != .plain) word ∧ common ++ [meant] <+: token.masked ∧
    shown ≠ meant

/-- The first character behind the apostrophe is taken for a digit. -/
theorem parts_quoted {contents : List Atom}
    (h : (spell contents).head?.any isHexDigit = true) :
    Parts previous (.quoted .utf8 '\'' contents) rest := by
  obtain ⟨c, word, hword⟩ : ∃ c word, spell contents = c :: word := by
    cases hword : spell contents with
    | nil => simp [hword] at h
    | cons c word => exact ⟨c, word, rfl⟩
  have hc : isHexDigit c = true := by simpa [hword] using h
  have hne : c ≠ '"' ∧ c ≠ '#' ∧ c ≠ '/' ∧ c ≠ 'R' ∧ c ≠ '\'' ∧ c ≠ '\n' ∧ c ≠ ' ' := by
    refine ⟨?_, ?_, ?_, ?_, ?_, ?_, ?_⟩ <;> (rintro rfl; exact absurd hc (by decide))
  obtain ⟨hquote, hhash, hslash, hr, hchar, hfeed, hspace⟩ := hne
  obtain ⟨more, hblank⟩ := exists_blank_eq hfeed
  have hseparator : StepsTo .cpp .code (some '8') '\'' (c :: word ++ '\'' :: rest) .plain .code :=
    stepsTo_code (by decide) (fun h => absurd h (by decide)) fun _ => hc
  have hdigit : StepsTo .cpp .code (some '\'') c (word ++ '\'' :: rest) .plain .code :=
    stepsTo_code ⟨hquote, hhash, hslash⟩ (fun h => absurd h hr) fun h => absurd h hchar
  refine ⟨tint .plain ['u', '8', '\'', c], .code, word ++ '\'' :: rest, ['u', '8', '\''], c, ' ',
    ?_, ?_, ?_, ?_, hspace⟩
  · simp [Token.text, hword, Encoding.text]
  · exact .append (tints_encoding .utf8) (.stretch hseparator (.single hdigit))
  · simp
  · simp [Token.masked, Encoding.text, hword, hblank]

/-- The first character behind the quote is taken for the contents of a string. -/
theorem parts_raw {encoding : Encoding} {delimiter contents : List Char}
    (hf : (Token.raw encoding delimiter contents).Formed) (hm : encoding ≠ .plain)
    (hs : (Token.raw encoding delimiter contents).Shows) :
    Parts previous (.raw encoding delimiter contents) rest := by
  obtain ⟨d, word, hword⟩ : ∃ d word, delimiter ++ ['('] = d :: word := by
    cases delimiter with
    | nil => exact ⟨_, _, rfl⟩
    | cons d word => exact ⟨_, _, rfl⟩
  have hd : d ≠ '"' ∧ d ≠ '\n' ∧ d ≠ '\\' ∧ d ≠ ' ' := by
    cases delimiter with
    | nil =>
      obtain rfl : '(' = d := (List.cons.inj hword).1
      decide
    | cons x delimiter =>
      obtain rfl : x = d := (List.cons.inj hword).1
      have hx := hf.1 x (by simp)
      exact ⟨by simpa using hs.1, by simpa using hs.2, hx.2.2.2, hx.1⟩
  obtain ⟨hquote, hfeed, hback, hspace⟩ := hd
  obtain ⟨more, hblank⟩ := exists_blank_eq hfeed
  have hopen : ∀ tail, delimiter ++ '(' :: tail = d :: (word ++ tail) := fun tail => by
    simpa using congrArg (· ++ tail) hword
  have hname : endsName (lastOf previous encoding.text) = true := by
    cases encoding with
    | plain => exact absurd rfl hm
    | utf8 | utf16 | utf32 | wide => rfl
  have hr : ∀ rest, StepsTo .cpp .code (lastOf previous encoding.text) 'R' rest .plain .code :=
    fun rest fresh => ⟨freshAfter fresh 'R', by simp [step, MaskRules.cpp, hname]⟩
  have hfirst : ∀ rest, StepsTo .cpp (.quoted '"') (some '"') d rest .literal (.quoted '"') :=
    fun rest fresh => ⟨freshAfter fresh d, by simp [step, hback, hquote, hfeed]⟩
  refine ⟨tint .plain encoding.text ++ [(.plain, 'R'), (.plain, '"'), (.literal, d)],
    .quoted '"', word ++ contents ++ closing delimiter ++ rest, encoding.text ++ ['R', '"'],
    ' ', d, ?_, ?_, ?_, ?_, Ne.symm hspace⟩
  · simp [Token.text, hopen]
  · refine .append (tints_encoding encoding) ?_
    rw [wordOf_tint]
    exact .cons (hr _) (.cons stepsTo_string (.single (hfirst _)))
  · simp [hblank]
  · simp [Token.masked, hopen]

theorem parts_of_misread {token : Token} (hf : token.Formed) (hm : token.Misread)
    (hs : token.Shows) : Parts previous token rest := by
  cases token with
  | code word => exact hm.elim
  | quoted encoding quote contents =>
    obtain ⟨rfl, rfl, hhead⟩ := hm
    exact parts_quoted hhead
  | raw encoding delimiter contents => exact parts_raw hf hm hs

/-! ## A sequence of tokens -/

/-- Tokens with a space behind each. -/
def spaced (tokens : List Token) : Tinted :=
  tokens.flatMap fun token => token.tinted ++ [(.plain, ' ')]

theorem fresh_spaced (hp : Fresh previous) (tokens : List Token) :
    Fresh (lastOf previous (wordOf (spaced tokens))) := by
  induction tokens generalizing previous with
  | nil => exact hp
  | cons token tokens ih =>
    rw [spaced, List.flatMap_cons, wordOf_append, wordOf_append, lastOf_append, lastOf_append]
    exact ih (.inr rfl)

theorem tints_spaced (hp : Fresh previous) {tokens : List Token}
    (hf : ∀ token ∈ tokens, token.Formed) (hm : ∀ token ∈ tokens, ¬ token.Misread) :
    Tints .cpp .code previous (spaced tokens) .code rest := by
  induction tokens generalizing previous with
  | nil => exact .nil
  | cons token tokens ih =>
    have hspace : ∀ {previous rest}, Tints .cpp .code previous [(.plain, ' ')] .code rest :=
      .single (stepsTo_code (by decide) (fun h => absurd h (by decide))
        fun h => absurd h (by decide))
    have htoken : ∀ {rest}, Tints .cpp .code previous token.tinted .code (' ' :: rest) :=
      tints_token hp (hf token (by simp)) (hm token (by simp)) (by simp)
    rw [spaced, List.flatMap_cons]
    refine .append (.append htoken hspace) (ih ?_ (fun t ht => hf t (by simp [ht]))
      fun t ht => hm t (by simp [ht]))
    rw [wordOf_append, lastOf_append]
    exact .inr rfl

end Tints

theorem wordOf_spaced (tokens : List Token) :
    wordOf (spaced tokens) = tokens.flatMap (·.text ++ [' ']) := by
  rw [wordOf, spaced, List.map_flatMap]
  refine congrArg (List.flatMap · tokens) (funext fun token => ?_)
  rw [← token.wordOf_tinted]
  exact wordOf_append _ _

theorem view_spaced {hidden : Shade → Bool} (hh : hidden .plain = false) (tokens : List Token) :
    view hidden (spaced tokens) = tokens.flatMap (view hidden ·.tinted ++ [' ']) := by
  rw [view, spaced, List.flatMap_assoc]
  refine congrArg (List.flatMap · tokens) (funext fun token => ?_)
  rw [← view, view_append, view_cons, hh]
  rfl

/-- Tokens, each taken as a word, with single spaces between them. -/
def joined (word : Token → List Char) (tokens : List Token) : List Char :=
  [' '].intercalate (tokens.map word)

theorem joined_cons (word : Token → List Char) (token : Token) (after : List Token) :
    joined word (token :: after) = word token ++ after.flatMap (' ' :: word ·) := by
  induction after generalizing token with
  | nil => simp [joined]
  | cons next after ih =>
    have h := ih next
    rw [joined, List.map_cons] at h ⊢
    rw [List.map_cons, List.intercalate_cons_cons, h]
    simp

theorem joined_append_cons (word : Token → List Char) (before : List Token) (token : Token)
    (after : List Token) :
    joined word (before ++ token :: after) =
      before.flatMap (word · ++ [' ']) ++ (word token ++ after.flatMap (' ' :: word ·)) := by
  induction before with
  | nil => exact joined_cons word token after
  | cons first before ih =>
    have hcons : ∀ tokens, tokens ≠ [] →
        joined word (first :: tokens) = word first ++ [' '] ++ joined word tokens := by
      intro tokens ht
      cases tokens with
      | nil => exact absurd rfl ht
      | cons next tokens => exact List.intercalate_cons_cons
    rw [List.cons_append, hcons _ (by simp), ih]
    simp

theorem views_joined_of_not_misread {tokens : List Token} (hf : ∀ token ∈ tokens, token.Formed)
    (hm : ∀ token ∈ tokens, ¬ token.Misread) :
    Mask.stripped .cpp (joined Token.text tokens) = joined Token.text tokens ∧
      Mask.masked .cpp (joined Token.text tokens) = joined Token.masked tokens := by
  obtain rfl | ⟨before, token, htokens⟩ := List.eq_nil_or_concat tokens
  · exact ⟨rfl, rfl⟩
  rw [List.concat_eq_append] at htokens
  subst htokens
  have htokens : Tints .cpp .code none (spaced before ++ token.tinted) .code [] :=
    .append (tints_spaced (.inl rfl) (fun t ht => hf t (by simp [ht]))
        fun t ht => hm t (by simp [ht]))
      (tints_token (fresh_spaced (.inl rfl) before) (hf token (by simp)) (hm token (by simp))
        (by simp))
  have htext : wordOf (spaced before ++ token.tinted) =
      joined Token.text (before ++ [token]) := by
    rw [wordOf_append, wordOf_spaced, token.wordOf_tinted, joined_append_cons]
    simp
  have hview : ∀ hidden : Shade → Bool, hidden .plain = false →
      paint hidden (shades .cpp (joined Token.text (before ++ [token])))
        (joined Token.text (before ++ [token])) =
      joined (view hidden ·.tinted) (before ++ [token]) := by
    intro hidden hh
    rw [← htext, htokens.paint_eq, view_append, view_spaced hh, joined_append_cons]
    simp
  refine ⟨(hview (· == .comment) rfl).trans ?_, (hview (· != .plain) rfl).trans ?_⟩
  · exact congrArg (joined · _) (funext Token.view_tinted_stripped)
  · exact congrArg (joined · _) (funext Token.view_tinted_masked)

theorem masked_joined_ne {before after : List Token} {token : Token}
    (hf : ∀ token ∈ before, token.Formed) (hm : ∀ token ∈ before, ¬ token.Misread)
    (hparts : ∀ previous rest, Parts previous token rest) :
    Mask.masked .cpp (joined Token.text (before ++ token :: after)) ≠
      joined Token.masked (before ++ token :: after) := by
  intro heq
  obtain ⟨word, mode, behind, common, shown, meant, htext, hword, ⟨more, hshown⟩,
    ⟨more', hmeant⟩, hne⟩ := hparts (lastOf none (wordOf (spaced before)))
      (after.flatMap (' ' :: Token.text ·))
  obtain ⟨tail, htail⟩ :=
    (Tints.append (tints_spaced (.inl rfl) hf hm) hword).exists_paint (· != .plain)
  have hjoined : joined Token.text (before ++ token :: after) =
      wordOf (spaced before ++ word) ++ behind := by
    rw [joined_append_cons, wordOf_append, wordOf_spaced, List.append_assoc, htext]
  rw [hjoined, Mask.masked, htail, view_append, view_spaced rfl, joined_append_cons, ← hshown,
    ← hmeant] at heq
  simp only [Token.view_tinted_masked, List.append_assoc, List.append_cancel_left_eq,
    List.cons_append, List.nil_append, List.cons.injEq] at heq
  exact hne heq.1

/-- Tokens that are not misread show one by one as they should.  The first token
that is misread does not, if it shows at all. -/
theorem views_joined {tokens : List Token} (hf : ∀ token ∈ tokens, token.Formed) :
    ((∀ token ∈ tokens, ¬ token.Misread) →
      Mask.stripped .cpp (joined Token.text tokens) = joined Token.text tokens ∧
        Mask.masked .cpp (joined Token.text tokens) = joined Token.masked tokens) ∧
    ∀ before token after, tokens = before ++ token :: after →
      (∀ token ∈ before, ¬ token.Misread) → token.Misread → token.Shows →
      Mask.masked .cpp (joined Token.text tokens) ≠ joined Token.masked tokens := by
  refine ⟨views_joined_of_not_misread hf, ?_⟩
  rintro before token after rfl hbefore hm hs
  exact masked_joined_ne (fun t ht => hf t (by simp [ht])) hbefore fun _ _ =>
    parts_of_misread (hf token (by simp)) hm hs

/-- After `u8` an apostrophe opens a literal before an escape and separates digits
before an `a`. -/
theorem views_joined_digit :
    Mask.masked .cpp "u8'\\x' 1'0 R\"(\"\x7b)\"".toList = "u8'  ' 1'0 R\"(  )\"".toList ∧
      Mask.masked .cpp "u8'a' ;".toList ≠ "u8' ' ;".toList := by
  constructor
  · exact ((@views_joined [.quoted .utf8 '\'' [.escape 'x'], .code "1'0".toList,
      .raw .plain [] "\"\x7b".toList] (by decide)).1 (by decide)).2
  · exact (@views_joined [.quoted .utf8 '\'' [.plain 'a'], .code ";".toList] (by decide)).2
      [] (.quoted .utf8 '\'' [.plain 'a']) [.code ";".toList] rfl (by simp) (by decide) trivial

end Cpp
end Outline
