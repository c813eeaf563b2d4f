import Outline.Proofs.Text.Boundary
import Outline.Source.Mask

/-!
# Tinted words

A word is tinted when each of its characters comes with the shade it is meant to
have.  The masking pass tints a word when, started in some mode in front of it,
it gives exactly these shades and comes out in another mode.  Words are put
together from smaller ones, so what the pass does with a whole text is told
token by token, and with a token part by part.
-/

namespace Outline
namespace Mask

/-- Characters with their shades. -/
abbrev Tinted := List (Shade × Char)

def tint (shade : Shade) (word : List Char) : Tinted := word.map (shade, ·)

def wordOf (word : Tinted) : List Char := word.map Prod.snd

def shadesOf (word : Tinted) : List Shade := word.map Prod.fst

/-- What is left to see of a tinted word. -/
def view (hidden : Shade → Bool) (word : Tinted) : List Char :=
  word.flatMap fun (shade, c) => if hidden shade then blank c else [c]

section Words

variable (hidden : Shade → Bool) (shade : Shade) (c : Char) (word : List Char) (a b : Tinted)

@[simp] theorem tint_nil : tint shade [] = [] := rfl

@[simp] theorem tint_cons : tint shade (c :: word) = (shade, c) :: tint shade word := rfl

@[simp] theorem wordOf_nil : wordOf [] = [] := rfl

@[simp] theorem wordOf_cons : wordOf ((shade, c) :: a) = c :: wordOf a := rfl

@[simp] theorem wordOf_append : wordOf (a ++ b) = wordOf a ++ wordOf b := List.map_append

@[simp] theorem wordOf_tint : wordOf (tint shade word) = word := by
  simp [wordOf, tint, Function.comp_def]

@[simp] theorem view_nil : view hidden [] = [] := rfl

@[simp] theorem view_cons :
    view hidden ((shade, c) :: a) = (if hidden shade then blank c else [c]) ++ view hidden a := rfl

@[simp] theorem view_append : view hidden (a ++ b) = view hidden a ++ view hidden b :=
  List.flatMap_append

@[simp] theorem view_tint :
    view hidden (tint shade word) = if hidden shade then word.flatMap blank else word := by
  induction word with
  | nil => simp
  | cons c word ih =>
    rw [tint_cons, view_cons, ih]
    split <;> rfl

theorem paint_shadesOf_append (shades : List Shade) (rest : List Char) :
    paint hidden (shadesOf a ++ shades) (wordOf a ++ rest) =
      view hidden a ++ paint hidden shades rest := by
  induction a with
  | nil => rfl
  | cons x a ih =>
    obtain ⟨shade, c⟩ := x
    rw [view_cons, List.append_assoc, ← ih]
    rfl

theorem paint_shadesOf : paint hidden (shadesOf a) (wordOf a) = view hidden a := by
  simpa [paint] using paint_shadesOf_append hidden a [] []

end Words

/-- The last character of a word, or the one before it if the word is empty. -/
def lastOf (previous : Option Char) (word : List Char) : Option Char :=
  word.foldl (fun _ c => some c) previous

@[simp] theorem lastOf_nil (previous : Option Char) : lastOf previous [] = previous := rfl

@[simp] theorem lastOf_cons (previous : Option Char) (c : Char) (word : List Char) :
    lastOf previous (c :: word) = lastOf (some c) word := rfl

@[simp] theorem lastOf_append (previous : Option Char) (a b : List Char) :
    lastOf previous (a ++ b) = lastOf (lastOf previous a) b := List.foldl_append

/-- The pass, in `mode` after `previous` and with `rest` to come after the word,
gives the word its shades and goes on in `next`. -/
def Tints (rules : MaskRules) (mode : Mode) (previous : Option Char) (word : Tinted)
    (next : Mode) (rest : List Char) : Prop :=
  ∀ fresh, ∃ fresh', shadesFrom rules mode fresh previous (wordOf word ++ rest) =
    shadesOf word ++ shadesFrom rules next fresh' (lastOf previous (wordOf word)) rest

/-- The pass goes from `mode` to `next` over one character. -/
def StepsTo (rules : MaskRules) (mode : Mode) (previous : Option Char) (c : Char)
    (rest : List Char) (shade : Shade) (next : Mode) : Prop :=
  ∀ fresh, ∃ fresh', step rules mode fresh previous c rest = (shade, next, fresh')

namespace Tints

variable {rules : MaskRules} {mode mid next : Mode} {previous : Option Char} {rest : List Char}

theorem nil : Tints rules mode previous [] mode rest := fun fresh => ⟨fresh, rfl⟩

theorem cons {shade : Shade} {c : Char} {word : Tinted}
    (hc : StepsTo rules mode previous c (wordOf word ++ rest) shade mid)
    (h : Tints rules mid (some c) word next rest) :
    Tints rules mode previous ((shade, c) :: word) next rest := by
  intro fresh
  obtain ⟨fresh₁, hstep⟩ := hc fresh
  obtain ⟨fresh₂, htail⟩ := h fresh₁
  refine ⟨fresh₂, ?_⟩
  rw [wordOf_cons, List.cons_append, shadesFrom, hstep]
  exact congrArg _ htail

/-- One more character of a stretch of one shade. -/
theorem stretch {shade : Shade} {c : Char} {word : List Char}
    (hc : StepsTo rules mode previous c (word ++ rest) shade mid)
    (h : Tints rules mid (some c) (tint shade word) next rest) :
    Tints rules mode previous (tint shade (c :: word)) next rest := by
  have hstep : StepsTo rules mode previous c (wordOf (tint shade word) ++ rest) shade mid := by
    rwa [wordOf_tint]
  exact .cons hstep h

theorem single {shade : Shade} {c : Char} (hc : StepsTo rules mode previous c rest shade next) :
    Tints rules mode previous [(shade, c)] next rest :=
  .cons hc .nil

theorem append {a b : Tinted} (ha : Tints rules mode previous a mid (wordOf b ++ rest))
    (hb : Tints rules mid (lastOf previous (wordOf a)) b next rest) :
    Tints rules mode previous (a ++ b) next rest := by
  intro fresh
  obtain ⟨fresh₁, h₁⟩ := ha fresh
  obtain ⟨fresh₂, h₂⟩ := hb fresh₁
  refine ⟨fresh₂, ?_⟩
  rw [wordOf_append, List.append_assoc, h₁, h₂, lastOf_append]
  simp [shadesOf]

/-- The characters of a delimiter that has been seen. -/
theorem passing {shade : Shade} (word : List Char) :
    Tints rules (.passing word.length shade next) previous (tint shade word) next rest := by
  induction word generalizing previous with
  | nil => exact .nil
  | cons c word ih => exact .stretch (fun fresh => ⟨fresh, rfl⟩) ih

/-- What the pass has tinted shows so, whatever comes after it. -/
theorem exists_paint {word : Tinted} (h : Tints rules .code none word next rest)
    (hidden : Shade → Bool) :
    ∃ tail, paint hidden (shades rules (wordOf word ++ rest)) (wordOf word ++ rest) =
      view hidden word ++ tail := by
  obtain ⟨fresh, h⟩ := h true
  rw [shades, h]
  exact ⟨_, paint_shadesOf_append hidden word _ rest⟩

/-- A whole text that the pass tints shows as it was tinted. -/
theorem paint_eq {word : Tinted} (h : Tints rules .code none word next [])
    (hidden : Shade → Bool) :
    paint hidden (shades rules (wordOf word)) (wordOf word) = view hidden word := by
  obtain ⟨fresh, h⟩ := h true
  have hshades : shades rules (wordOf word) = shadesOf word := by
    simpa [shades, shadesFrom] using h
  rw [hshades, paint_shadesOf]

end Tints

/-! ## What stands between quotes -/

/-- One character of a literal, or two with a backslash first. -/
inductive Atom
  | plain (c : Char)
  | escape (c : Char)
  deriving DecidableEq, Repr

namespace Atom

def text : Atom → List Char
  | plain c => [c]
  | escape c => ['\\', c]

/-- An atom that neither ends a literal between such quotes nor ends the line. -/
def Fits (quote : Char) : Atom → Prop
  | plain c => c ≠ quote ∧ c ≠ '\\' ∧ c ≠ '\n'
  | escape _ => True

instance (quote : Char) (atom : Atom) : Decidable (atom.Fits quote) := by
  cases atom <;> unfold Fits <;> infer_instance

end Atom

/-- The text between the quotes. -/
def spell (atoms : List Atom) : List Char := atoms.flatMap Atom.text

@[simp] theorem spell_nil : spell [] = [] := rfl

@[simp] theorem spell_plain (c : Char) (atoms : List Atom) :
    spell (.plain c :: atoms) = c :: spell atoms := rfl

@[simp] theorem spell_escape (c : Char) (atoms : List Atom) :
    spell (.escape c :: atoms) = '\\' :: c :: spell atoms := rfl

/-- What fits between quotes does not begin with one. -/
theorem head?_spell_ne {quote : Char} {atoms : List Atom} (h : ∀ atom ∈ atoms, atom.Fits quote)
    (hq : quote ≠ '\\') : (spell atoms).head? ≠ some quote := by
  cases atoms with
  | nil => simp
  | cons atom atoms =>
    have hatom : atom.Fits quote := h atom (by simp)
    cases atom with
    | plain c => simpa using hatom.1
    | escape c => simpa using hq.symm

section Literals

variable {rules : MaskRules} {previous : Option Char} {rest : List Char}

/-- An escape is two steps, in whatever literal it stands. -/
theorem tints_escape {back : Mode} {c : Char} {word : Tinted} {next : Mode}
    (hback : StepsTo rules back previous '\\' (c :: wordOf word ++ rest) .literal (.escape back))
    (h : Tints rules back (some c) word next rest) :
    Tints rules back previous ((.literal, '\\') :: (.literal, c) :: word) next rest :=
  .cons hback (.cons (fun _ => ⟨_, rfl⟩) h)

theorem tints_contents {quote : Char} {atoms : List Atom}
    (h : ∀ atom ∈ atoms, atom.Fits quote) :
    Tints rules (.quoted quote) previous (tint .literal (spell atoms)) (.quoted quote) rest := by
  induction atoms generalizing previous with
  | nil => exact .nil
  | cons atom atoms ih =>
    have hatom : atom.Fits quote := h atom (by simp)
    have hrest : ∀ atom ∈ atoms, atom.Fits quote := fun atom ha => h atom (by simp [ha])
    cases atom with
    | plain c =>
      obtain ⟨hquote, hback, hfeed⟩ := hatom
      refine .stretch (fun fresh => ⟨freshAfter fresh c, ?_⟩) (ih hrest)
      simp [step, hquote, hback, hfeed]
    | escape c => exact tints_escape (fun _ => ⟨_, rfl⟩) (ih hrest)

/-- A literal, once its first quote has been taken for one. -/
theorem tints_literal {quote : Char} {atoms : List Atom}
    (hopen : StepsTo rules .code previous quote (spell atoms ++ quote :: rest) .plain
      (.quoted quote))
    (hq : quote ≠ '\\') (h : ∀ atom ∈ atoms, atom.Fits quote) :
    Tints rules .code previous ((.plain, quote) :: tint .literal (spell atoms) ++ [(.plain, quote)])
      .code rest := by
  have hclose : ∀ previous,
      Tints rules (.quoted quote) previous [(.plain, quote)] .code rest := fun previous =>
    .single fun fresh => ⟨freshAfter fresh quote, by simp [step, hq]⟩
  rw [List.cons_append]
  refine .cons (by simpa using hopen) (.append (tints_contents h) (hclose _))

end Literals

end Mask
end Outline
