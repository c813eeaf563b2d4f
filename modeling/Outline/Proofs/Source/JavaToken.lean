import Mathlib.Data.List.Infix
import Outline.Proofs.Source.Tint
import Outline.Proofs.Text.Boundary

/-!
# Masking by the Java lexical grammar

A Java text is taken apart into tokens: stretches of code, two forms of comment,
literals between quotes, and text blocks.  Each token says by itself how it shows
in the two views.  Whatever the tokens hold, the views of the text are the views
of its tokens one after the other, so the pass is back in code behind each.
-/

namespace Outline
namespace Java

open Mask

inductive Token
  /-- Text without quotes, apostrophes and slashes. -/
  | code (word : List Char)
  /-- `//`, the rest of the line, and the line feed. -/
  | lineComment (word : List Char)
  /-- Text between `/*` and the next `*/`. -/
  | blockComment (word : List Char)
  | quoted (quote : Char) (contents : List Atom)
  /-- Text between triple quotes. -/
  | textBlock (contents : List Atom)
  deriving DecidableEq, Repr

namespace Token

def text : Token → List Char
  | code word => word
  | lineComment word => '/' :: '/' :: word ++ ['\n']
  | blockComment word => '/' :: '*' :: word ++ ['*', '/']
  | quoted quote contents => quote :: spell contents ++ [quote]
  | textBlock contents => ['"', '"', '"'] ++ spell contents ++ ['"', '"', '"']

/-- The token where comments are hidden. -/
def stripped : Token → List Char
  | lineComment word => (lineComment word).text.flatMap blank
  | blockComment word => (blockComment word).text.flatMap blank
  | token => token.text

/-- The token where comments and the contents of literals are hidden. -/
def masked : Token → List Char
  | quoted quote contents => quote :: (spell contents).flatMap blank ++ [quote]
  | textBlock contents => ['"', '"', '"'] ++ (spell contents).flatMap blank ++ ['"', '"', '"']
  | token => token.stripped

def Formed : Token → Prop
  | code word => ∀ c ∈ word, c ≠ '"' ∧ c ≠ '\'' ∧ c ≠ '/'
  | lineComment word => '\n' ∉ word
  | blockComment word => ¬ ['*', '/'] <:+: word
  | quoted quote contents => (quote = '"' ∨ quote = '\'') ∧ ∀ atom ∈ contents, atom.Fits quote
  | textBlock contents =>
    .plain '\\' ∉ contents ∧ ¬ [.plain '"', .plain '"', .plain '"'] <:+: contents ∧
      contents.getLast? ≠ some (.plain '"')

instance (token : Token) : Decidable token.Formed := by
  cases token <;> unfold Formed <;> infer_instance

def isCode : Token → Bool
  | code _ => true
  | _ => false

/-- The characters of a token with the shades its two views stand for. -/
def tinted : Token → Tinted
  | code word => tint .plain word
  | lineComment word => tint .comment ('/' :: '/' :: word) ++ [(.plain, '\n')]
  | blockComment word => tint .comment ('/' :: '*' :: word ++ ['*', '/'])
  | quoted quote contents =>
    (.plain, quote) :: tint .literal (spell contents) ++ [(.plain, quote)]
  | textBlock contents =>
    tint .plain ['"', '"', '"'] ++ tint .literal (spell contents) ++ tint .plain ['"', '"', '"']

theorem wordOf_tinted (token : Token) : wordOf token.tinted = token.text := by
  cases token <;> simp [tinted, text]

theorem view_tinted_stripped (token : Token) :
    view (· == .comment) token.tinted = token.stripped := by
  cases token <;> simp [tinted, stripped, text, blank]

theorem view_tinted_masked (token : Token) : view (· != .plain) token.tinted = token.masked := by
  cases token <;> simp [tinted, masked, stripped, text, blank]

end Token

/-- Code stands next, or nothing does. -/
def CodeNext : List Token → Prop
  | [] => True
  | .code word :: rest => word = [] → CodeNext rest
  | _ :: _ => False

/-- Between any two literals or comments there is some code. -/
def Separated : List Token → Prop
  | [] => True
  | token :: rest => (token.isCode = false → CodeNext rest) ∧ Separated rest

theorem head?_ne_of_codeNext {tokens : List Token} (hf : ∀ token ∈ tokens, token.Formed)
    (h : CodeNext tokens) : (tokens.flatMap Token.text).head? ≠ some '"' := by
  induction tokens with
  | nil => simp
  | cons token tokens ih =>
    cases token with
    | code word =>
      cases word with
      | nil => exact ih (fun token ht => hf token (by simp [ht])) (h rfl)
      | cons c word =>
        have hc : c ≠ '"' := (hf (.code (c :: word)) (by simp) c (by simp)).1
        simpa [Token.text] using hc
    | lineComment _ => exact h.elim
    | blockComment _ => exact h.elim
    | quoted _ _ => exact h.elim
    | textBlock _ => exact h.elim

/-! ## One token -/

section Tints

variable {previous : Option Char} {rest : List Char}

theorem tints_code {word : List Char} (h : (Token.code word).Formed) :
    Tints .java .code previous (tint .plain word) .code rest := by
  induction word generalizing previous with
  | nil => exact .nil
  | cons c word ih =>
    obtain ⟨hquote, hchar, hslash⟩ := h c (by simp)
    refine .stretch (fun fresh => ⟨freshAfter fresh c, ?_⟩) (ih fun c hc => h c (by simp [hc]))
    simp [step, MaskRules.java, hquote, hchar, hslash]

theorem tints_lineComment {word : List Char} (h : '\n' ∉ word) :
    Tints .java .lineComment previous (tint .comment word) .lineComment rest := by
  induction word generalizing previous with
  | nil => exact .nil
  | cons c word ih =>
    obtain ⟨hc, hword⟩ := not_or.mp (mt List.mem_cons.mpr h)
    refine .stretch (fun fresh => ⟨freshAfter fresh c, ?_⟩) (ih hword)
    simp [step, Ne.symm hc]

/-- A star in front of the end is no end yet. -/
theorem tints_blockComment {word : List Char} (h : ¬ ['*', '/'] <:+: word) :
    Tints .java .blockComment previous (tint .comment word) .blockComment ('*' :: rest) := by
  induction word generalizing previous with
  | nil => exact .nil
  | cons c word ih =>
    have hopen : ¬ (c = '*' ∧ (word ++ '*' :: rest).head? = some '/') := by
      rintro ⟨rfl, hslash⟩
      cases word with
      | nil => simp at hslash
      | cons d word =>
        obtain rfl : d = '/' := by simpa using hslash
        exact h ⟨[], word, rfl⟩
    refine .stretch (fun fresh => ⟨freshAfter fresh c, ?_⟩)
      (ih fun hw => h (hw.trans (List.suffix_cons c word).isInfix))
    rw [step, if_neg hopen]

/-- After a quote inside a text block no two quotes follow. -/
theorem startsWith_quotes_eq_false {contents : List Atom}
    (h : (Token.textBlock (.plain '"' :: contents)).Formed) :
    Text.startsWith (spell contents ++ '"' :: rest) ['"', '"'] = false := by
  obtain ⟨-, htriple, hlast⟩ := h
  rw [Bool.eq_false_iff, ne_eq, Text.startsWith_iff]
  rintro ⟨tail, htail⟩
  match contents with
  | [] => exact hlast rfl
  | .escape c :: contents => simp at htail
  | [.plain c] =>
    obtain ⟨rfl, -⟩ : c = '"' ∧ _ := by simpa using htail
    exact hlast rfl
  | .plain c :: .escape d :: contents => simp at htail
  | .plain c :: .plain d :: contents =>
    obtain ⟨rfl, rfl, -⟩ : c = '"' ∧ d = '"' ∧ _ := by simpa using htail
    exact htriple ⟨[], contents, rfl⟩

theorem formed_textBlock_tail {atom : Atom} {contents : List Atom}
    (h : (Token.textBlock (atom :: contents)).Formed) : (Token.textBlock contents).Formed := by
  obtain ⟨hback, htriple, hlast⟩ := h
  refine ⟨fun hb => hback (by simp [hb]),
    fun ht => htriple (ht.trans (List.suffix_cons atom contents).isInfix), fun hl => hlast ?_⟩
  rw [List.getLast?_cons, hl]
  rfl

theorem tints_textBlock {contents : List Atom} (h : (Token.textBlock contents).Formed) :
    Tints .java .textBlock previous (tint .literal (spell contents)) .textBlock ('"' :: rest) := by
  induction contents generalizing previous with
  | nil => exact .nil
  | cons atom contents ih =>
    have hrest : (Token.textBlock contents).Formed := formed_textBlock_tail h
    cases atom with
    | escape c => exact tints_escape (fun fresh => ⟨fresh, by simp [step]⟩) (ih hrest)
    | plain c =>
      have hc : c ≠ '\\' := fun hc => h.1 (by simp [hc])
      have hclose : ¬ (c = '"' ∧ Text.startsWith (spell contents ++ '"' :: rest) ['"', '"']) := by
        rintro ⟨rfl, hquotes⟩
        rw [startsWith_quotes_eq_false h] at hquotes
        exact Bool.false_ne_true hquotes
      rw [spell_plain]
      refine .stretch (fun fresh => ⟨freshAfter fresh c, ?_⟩) (ih hrest)
      rw [step, if_neg hclose, if_neg hc]

/-- An empty string in front of code is no text block. -/
theorem stepsTo_quoted {quote : Char} {contents : List Atom}
    (h : (Token.quoted quote contents).Formed) (hrest : rest.head? ≠ some '"') :
    StepsTo .java .code previous quote (spell contents ++ quote :: rest) .plain
      (.quoted quote) := by
  obtain ⟨rfl | rfl, hfits⟩ := h
  · have hopen : Text.startsWith (spell contents ++ '"' :: rest) ['"', '"'] = false := by
      rw [Bool.eq_false_iff, ne_eq, Text.startsWith_iff]
      rintro ⟨tail, htail⟩
      have hhead := head?_spell_ne hfits (by decide)
      cases hword : spell contents with
      | nil => cases rest <;> simp_all
      | cons c word => simp_all
    exact fun fresh => ⟨freshAfter fresh '"', by simp [step, hopen, MaskRules.java]⟩
  · exact fun fresh => ⟨freshAfter fresh '\'', by simp [step, MaskRules.java]⟩

theorem tints_opening (next : Mode) :
    Tints .java (.pass 1 .plain next) (some '"') (tint .plain ['"', '"']) next rest :=
  .cons (fun fresh => ⟨fresh, rfl⟩) (.single fun fresh => ⟨fresh, rfl⟩)

theorem tints_token {token : Token} (h : token.Formed)
    (hrest : token.isCode = false → rest.head? ≠ some '"') :
    Tints .java .code previous token.tinted .code rest := by
  cases token with
  | code word => exact tints_code h
  | lineComment word =>
    have hopen : Tints .java .code previous (tint .comment ['/', '/']) .lineComment
        (word ++ '\n' :: rest) :=
      .cons (fun fresh => ⟨fresh, rfl⟩) (.single fun fresh => ⟨fresh, rfl⟩)
    have hclose : ∀ previous, Tints .java .lineComment previous [(.plain, '\n')] .code rest :=
      fun _ => .single fun _ => ⟨true, rfl⟩
    exact .append (.append (by simpa using hopen) (tints_lineComment h)) (hclose _)
  | blockComment word =>
    have hopen : Tints .java .code previous (tint .comment ['/', '*']) .blockComment
        (word ++ '*' :: '/' :: rest) :=
      .cons (fun fresh => ⟨fresh, rfl⟩) (.single fun fresh => ⟨fresh, rfl⟩)
    have hclose : ∀ previous, Tints .java .blockComment previous (tint .comment ['*', '/']) .code
        rest := fun _ =>
      .cons (fun fresh => ⟨fresh, rfl⟩) (.single fun fresh => ⟨fresh, rfl⟩)
    have htinted : (Token.blockComment word).tinted =
        tint .comment ['/', '*'] ++ tint .comment word ++ tint .comment ['*', '/'] := by
      simp [Token.tinted, tint]
    rw [htinted]
    exact .append (.append (by simpa using hopen) (tints_blockComment h)) (hclose _)
  | quoted quote contents =>
    have hq : quote ≠ '\\' := by
      obtain ⟨rfl | rfl, -⟩ := h <;> decide
    exact tints_literal (stepsTo_quoted h (hrest rfl)) hq h.2
  | textBlock contents =>
    have hopen : ∀ rest, Tints .java .code previous (tint .plain ['"', '"', '"']) .textBlock rest :=
      fun _ => .stretch (fun fresh => ⟨fresh, rfl⟩) (tints_opening _)
    have hclose : ∀ previous,
        Tints .java .textBlock previous (tint .plain ['"', '"', '"']) .code rest := fun _ =>
      .stretch (fun fresh => ⟨fresh, rfl⟩) (tints_opening _)
    exact .append (.append (hopen _) (tints_textBlock h)) (hclose _)

end Tints

/-! ## A sequence of tokens -/

theorem wordOf_flatMap_tinted (tokens : List Token) :
    wordOf (tokens.flatMap Token.tinted) = tokens.flatMap Token.text := by
  rw [wordOf, List.map_flatMap]
  exact congrArg (List.flatMap · tokens) (funext Token.wordOf_tinted)

theorem tints_tokens {tokens : List Token} (hf : ∀ token ∈ tokens, token.Formed)
    (hs : Separated tokens) (previous : Option Char) :
    Tints .java .code previous (tokens.flatMap Token.tinted) .code [] := by
  induction tokens generalizing previous with
  | nil => exact .nil
  | cons token tokens ih =>
    have hrest : ∀ token ∈ tokens, token.Formed := fun token ht => hf token (by simp [ht])
    have hnext : token.isCode = false →
        (wordOf (tokens.flatMap Token.tinted) ++ []).head? ≠ some '"' := fun hc => by
      rw [List.append_nil, wordOf_flatMap_tinted]
      exact head?_ne_of_codeNext hrest (hs.1 hc)
    rw [List.flatMap_cons]
    exact .append (tints_token (hf token (by simp)) hnext) (ih hrest hs.2 _)

/-- The views of a Java text are the views of its tokens, one after the other. -/
theorem views_flatMap_text {tokens : List Token} (hf : ∀ token ∈ tokens, token.Formed)
    (hs : Separated tokens) :
    Mask.stripped .java (tokens.flatMap Token.text) = tokens.flatMap Token.stripped ∧
      Mask.masked .java (tokens.flatMap Token.text) = tokens.flatMap Token.masked := by
  have htints := tints_tokens hf hs none
  have hview : ∀ hidden, paint hidden (shades .java (tokens.flatMap Token.text))
      (tokens.flatMap Token.text) = tokens.flatMap fun token => view hidden token.tinted :=
    fun hidden => by
      rw [← wordOf_flatMap_tinted, htints.paint_eq, view, List.flatMap_assoc]
      rfl
  refine ⟨(hview _).trans ?_, (hview _).trans ?_⟩
  · exact congrArg (List.flatMap · tokens) (funext Token.view_tinted_stripped)
  · exact congrArg (List.flatMap · tokens) (funext Token.view_tinted_masked)

/-- A comment opener inside a string, and an apostrophe in a text block and in a
comment, hide nothing of the code around them. -/
theorem views_flatMap_text_openers :
    Mask.stripped .java "f(\"/*\\\"\", \"\"\"'\n\"\"\"); // it's\n".toList =
        "f(\"/*\\\"\", \"\"\"'\n\"\"\");        \n".toList ∧
      Mask.masked .java "f(\"/*\\\"\", \"\"\"'\n\"\"\"); // it's\n".toList =
        "f(\"    \", \"\"\" \n\"\"\");        \n".toList := by
  have h := @views_flatMap_text
    [.code "f(".toList, .quoted '"' [.plain '/', .plain '*', .escape '"'], .code ", ".toList,
      .textBlock [.plain '\'', .plain '\n'], .code "); ".toList, .lineComment " it's".toList]
    (by decide) (by simp [Separated, CodeNext, Token.isCode])
  exact h

end Java
end Outline
