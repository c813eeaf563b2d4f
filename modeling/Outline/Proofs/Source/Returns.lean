import Mathlib.Data.List.Infix
import Outline.Proofs.Text.Line
import Outline.Source.Mask

/-!
# Line ends with a carriage return

A text is padded when one more blank stands in front of each of its line feeds: the
carriage return of its line ending, or the space that hides one.  The two texts have the
same other characters and start with the same words.

A text whose line feeds get a carriage return in front is read by the masking pass as the
text is, as long as no line feed follows a backslash: a backslash takes the next character
with it, and that is the carriage return then.
-/

namespace Outline
namespace Text

/-! ## Padded texts -/

/-- The second text is the first one with a space or a carriage return in front of each
line feed. -/
inductive Padded : List Char → List Char → Prop
  | nil : Padded [] []
  | keep {c : Char} {s t : List Char} (hc : c ≠ '\n') (h : Padded s t) : Padded (c :: s) (c :: t)
  | feed {x : Char} {s t : List Char} (hx : x = ' ' ∨ x = '\r') (h : Padded s t) :
      Padded ('\n' :: s) (x :: '\n' :: t)

/-- A line feed, or what may stand in front of one in a padded text. -/
def isPad (c : Char) : Bool := c == ' ' || c == '\r' || c == '\n'

theorem isPad_of_pad {x : Char} (h : x = ' ' ∨ x = '\r') : isPad x = true := by
  rcases h with rfl | rfl <;> rfl

theorem ne_feed_of_isPad {c : Char} (h : isPad c = false) : c ≠ '\n' := by
  rintro rfl
  exact absurd h (by decide)

namespace Padded

variable {s t a b a' b' : List Char}

theorem append (h : Padded a a') (k : Padded b b') : Padded (a ++ b) (a' ++ b') := by
  induction h with
  | nil => exact k
  | keep hc _ ih => exact .keep hc ih
  | feed hx _ ih => exact .feed hx ih

/-- A padded text is cut where the text is. -/
theorem exists_append (h : Padded (a ++ b) t) :
    ∃ a' b', t = a' ++ b' ∧ Padded a a' ∧ Padded b b' := by
  induction a generalizing t with
  | nil => exact ⟨[], t, rfl, .nil, h⟩
  | cons c a ih =>
    cases h with
    | keep hc h =>
      obtain ⟨a', b', rfl, ha, hb⟩ := ih h
      exact ⟨c :: a', b', rfl, .keep hc ha, hb⟩
    | @feed x _ _ hx h =>
      obtain ⟨a', b', rfl, ha, hb⟩ := ih h
      exact ⟨x :: '\n' :: a', b', rfl, .feed hx ha, hb⟩

theorem eq_of_notMem (h : Padded s t) (hs : '\n' ∉ s) : t = s := by
  induction h with
  | nil => rfl
  | keep _ _ ih => rw [ih (List.not_mem_of_not_mem_cons hs)]
  | feed => exact absurd List.mem_cons_self hs

theorem nil_iff (h : Padded s t) : t = [] ↔ s = [] := by
  cases h <;> simp

theorem mem_iff {c : Char} (h : Padded s t) (hc : isPad c = false) : c ∈ t ↔ c ∈ s := by
  have hfeed := ne_feed_of_isPad hc
  induction h with
  | nil => rfl
  | keep _ _ ih => simp only [List.mem_cons, ih]
  | @feed x _ _ hx _ ih =>
    have hne : c ≠ x := fun h => absurd (isPad_of_pad hx) (by simp [← h, hc])
    simp only [List.mem_cons, ih, hne, hfeed, false_or]

/-! ### Words at the ends -/

theorem dropLead? (h : Padded s t) {word rest : List Char} (hw : word.all (!isPad ·) = true)
    (hs : dropLead? word s = some rest) : ∃ rest', Text.dropLead? word t = some rest' ∧
      Padded rest rest' := by
  rw [dropLead?_eq_some_iff] at hs
  subst hs
  obtain ⟨word', rest', rfl, hword, hrest⟩ := h.exists_append
  have hfeed : '\n' ∉ word := fun hm => by simpa [isPad] using List.all_eq_true.mp hw '\n' hm
  rw [hword.eq_of_notMem hfeed]
  exact ⟨rest', dropLead?_eq_some_iff.mpr rfl, hrest⟩

theorem dropLead?_none (h : Padded s t) {word : List Char} (hw : word.all (!isPad ·) = true)
    (hs : Text.dropLead? word s = none) : Text.dropLead? word t = none := by
  induction word generalizing s t with
  | nil => cases hs
  | cons w word ih =>
    rw [List.all_cons, Bool.and_eq_true, Bool.not_eq_true'] at hw
    cases h with
    | nil => rfl
    | keep _ h =>
      rw [Text.dropLead?] at hs ⊢
      split
      · next hwc => exact ih h hw.2 (by rwa [if_pos hwc] at hs)
      · rfl
    | feed hx =>
      rw [Text.dropLead?, if_neg]
      rintro rfl
      exact absurd (isPad_of_pad hx) (by simp [hw.1])

theorem startsWith_eq (h : Padded s t) {word : List Char} (hw : word.all (!isPad ·) = true) :
    startsWith t word = startsWith s word := by
  rw [startsWith, startsWith]
  cases hs : Text.dropLead? word s with
  | none => rw [h.dropLead?_none hw hs]
  | some rest =>
    obtain ⟨rest', hrest, -⟩ := h.dropLead? hw hs
    rw [hrest]
    rfl

end Padded
/-! ## Returns -/

/-- A text with a carriage return in front of each line feed. -/
def withReturns (text : List Char) : List Char :=
  text.flatMap fun c => if c = '\n' then ['\r', '\n'] else [c]

section

variable {c : Char} {text word : List Char}

@[simp] theorem withReturns_nil : withReturns [] = [] := rfl

@[simp] theorem withReturns_feed (text : List Char) :
    withReturns ('\n' :: text) = '\r' :: '\n' :: withReturns text := rfl

theorem withReturns_cons (hc : c ≠ '\n') (text : List Char) :
    withReturns (c :: text) = c :: withReturns text := by
  rw [withReturns, List.flatMap_cons, if_neg hc]
  rfl

theorem withReturns_append (a b : List Char) :
    withReturns (a ++ b) = withReturns a ++ withReturns b := List.flatMap_append

theorem padded_withReturns (text : List Char) : Padded text (withReturns text) := by
  induction text with
  | nil => exact .nil
  | cons c text ih =>
    by_cases hc : c = '\n'
    · rw [hc, withReturns_feed]
      exact .feed (.inr rfl) ih
    · rw [withReturns_cons hc]
      exact .keep hc ih

theorem withReturns_ne_nil (h : text ≠ []) : withReturns text ≠ [] :=
  fun heq => h ((padded_withReturns text).nil_iff.mp heq)

theorem head?_withReturns (text : List Char) {x : Char} (hx : isPad x = false) :
    (withReturns text).head? = some x ↔ text.head? = some x := by
  cases text with
  | nil => rfl
  | cons c text =>
    by_cases hc : c = '\n'
    · subst hc
      rw [withReturns_feed, List.head?_cons, List.head?_cons, Option.some.injEq, Option.some.injEq]
      constructor
      · rintro rfl
        cases hx
      · rintro rfl
        cases hx
    · rw [withReturns_cons hc, List.head?_cons, List.head?_cons]

theorem head?_withReturns_ne : (withReturns text).head? ≠ some '\n' := by
  cases text with
  | nil => simp
  | cons c text =>
    by_cases hc : c = '\n'
    · simp [hc]
    · rw [withReturns_cons hc, List.head?_cons, ne_eq, Option.some.injEq]
      exact hc

theorem any_head?_withReturns {test : Char → Bool} (hfeed : test '\n' = false)
    (hreturn : test '\r' = false) : (withReturns text).head?.any test = text.head?.any test := by
  cases text with
  | nil => rfl
  | cons c text =>
    by_cases hc : c = '\n'
    · rw [hc, withReturns_feed, List.head?_cons, List.head?_cons, Option.any_some, Option.any_some,
        hfeed, hreturn]
    · rw [withReturns_cons hc, List.head?_cons, List.head?_cons]

theorem mem_withReturns {x : Char} (hx : isPad x = false) : x ∈ withReturns text ↔ x ∈ text :=
  (padded_withReturns text).mem_iff hx

theorem takeWhile_withReturns {test : Char → Bool} (hfeed : test '\n' = true)
    (hreturn : test '\r' = true) :
    (withReturns text).takeWhile test = withReturns (text.takeWhile test) := by
  induction text with
  | nil => rfl
  | cons c text ih =>
    by_cases hc : c = '\n'
    · rw [hc, withReturns_feed, List.takeWhile_cons_of_pos hreturn, List.takeWhile_cons_of_pos hfeed,
        List.takeWhile_cons_of_pos hfeed, withReturns_feed, ih]
    · rw [withReturns_cons hc, List.takeWhile_cons, List.takeWhile_cons]
      split
      · rw [withReturns_cons hc, ih]
      · rfl

/-- A word stands at the start of a text with returns where it does in the text. -/
theorem startsWith_withReturns (ht : '\r' ∉ text) (hw : '\r' ∉ word) :
    startsWith (withReturns text) (withReturns word) = startsWith text word := by
  rw [Bool.eq_iff_iff, startsWith_iff, startsWith_iff]
  constructor
  · rintro ⟨rest, hrest⟩
    induction word generalizing text with
    | nil => exact ⟨text, rfl⟩
    | cons w word ih =>
      have hword := List.not_mem_of_not_mem_cons hw
      cases text with
      | nil => exact absurd hrest.symm (by simp [withReturns_ne_nil])
      | cons c text =>
        have htext := List.not_mem_of_not_mem_cons ht
        by_cases hc : c = '\n' <;> by_cases hwf : w = '\n'
        · subst hc hwf
          rw [withReturns_feed, withReturns_feed] at hrest
          obtain ⟨after, rfl⟩ := ih htext hword (List.cons.inj (List.cons.inj hrest).2).2
          exact ⟨after, rfl⟩
        · rw [hc, withReturns_feed, withReturns_cons hwf] at hrest
          rw [(List.cons.inj hrest).1] at hw
          exact absurd List.mem_cons_self hw
        · rw [hwf, withReturns_feed, withReturns_cons hc] at hrest
          rw [(List.cons.inj hrest).1] at ht
          exact absurd List.mem_cons_self ht
        · rw [withReturns_cons hwf, withReturns_cons hc] at hrest
          obtain ⟨after, rfl⟩ := ih htext hword (List.cons.inj hrest).2
          exact ⟨after, by rw [(List.cons.inj hrest).1]; rfl⟩
  · rintro ⟨rest, rfl⟩
    exact ⟨withReturns rest, withReturns_append word rest⟩

end
end Text

namespace Mask

open Text (Padded withReturns)

/-- The modes that keep no count and no delimiter. -/
def Mode.IsSimple : Mode → Prop
  | .code | .lineComment | .blockComment | .directive | .textBlock => True
  | .quoted quote => quote = '"' ∨ quote = '\''
  | _ => False

/-- The mode of the text with returns, where the text is in a mode and `rest` is left of it:
a delimiter has its returns, and so has what completes a token. -/
inductive Returned : List Char → Mode → Mode → Prop
  | simple {rest : List Char} {mode : Mode} (h : mode.IsSimple) : Returned rest mode mode
  | escape {rest : List Char} {back : Mode} (h : back.IsSimple) (hrest : rest.head? ≠ some '\n') :
      Returned rest (.escape back) (.escape back)
  | raw {rest delimiter : List Char} (h : '\r' ∉ delimiter) :
      Returned rest (.raw (')' :: delimiter ++ ['"'])) (.raw (')' :: withReturns delimiter ++ ['"']))
  | pass {word rest : List Char} {shade : Shade} {next next' : Mode} (hne : word ≠ [])
      (h : Returned rest next next') : Returned (word ++ rest)
        (.pass (word.length - 1) shade next) (.pass ((withReturns word).length - 1) shade next')

section

variable {rules : MaskRules} {mode mode' : Mode} {fresh : Bool} {previous : Option Char}
  {c : Char} {rest : List Char}

/-- Behind a word that completes a token. -/
theorem returned_passing (word : List Char) {next next' : Mode} (shade : Shade)
    (h : Returned rest next next') : Returned (word ++ rest)
      (.passing word.length shade next) (.passing (withReturns word).length shade next') := by
  cases word with
  | nil => exact h
  | cons w word =>
    have hne := List.cons_ne_nil w word
    obtain ⟨x, more, hx⟩ := List.exists_cons_of_ne_nil (Text.withReturns_ne_nil hne)
    have hpass : Returned _ (.pass _ shade next) _ := .pass hne h
    rw [hx] at hpass ⊢
    exact hpass

/-- Behind the second character of a token. -/
theorem returned_pass {x : Char} {next : Mode} (shade : Shade) (hx : x ≠ '\n')
    (hrest : rest.head? = some x) (h : next.IsSimple) :
    Returned rest (.pass 0 shade next) (.pass 0 shade next) := by
  obtain ⟨tail, rfl⟩ := List.head?_eq_some_iff.mp hrest
  have hpass : Returned (x :: tail) _ _ := returned_passing [x] shade (.simple h)
  rwa [Text.withReturns_cons hx] at hpass

/-- Behind the `R` of a raw string. -/
theorem returned_raw (hrest : rest.head? = some '"') (hopen : '(' ∈ rest.tail) (hr : '\r' ∉ rest) :
    let delimiter := rest.tail.takeWhile (· != '(')
    let delimiter' := (withReturns rest).tail.takeWhile (· != '(')
    Returned rest (.pass (delimiter.length + 1) .plain (.raw (')' :: delimiter ++ ['"'])))
      (.pass (delimiter'.length + 1) .plain (.raw (')' :: delimiter' ++ ['"']))) := by
  obtain ⟨tail, rfl⟩ := List.head?_eq_some_iff.mp hrest
  rw [List.tail_cons] at hopen
  have htail : (withReturns ('"' :: tail)).tail.takeWhile (· != '(') =
      withReturns (tail.takeWhile (· != '(')) := by
    rw [Text.withReturns_cons (by decide), List.tail_cons, Text.takeWhile_withReturns rfl rfl]
  obtain ⟨after, hafter⟩ := Text.exists_takeWhile_append hopen
  rw [htail, List.tail_cons]
  generalize tail.takeWhile (· != '(') = delimiter at hafter ⊢
  have hd : '\r' ∉ delimiter := fun hm => hr (List.mem_cons_of_mem _ (by simp [hafter, hm]))
  have hpass := returned_passing ('"' :: (delimiter ++ ['('])) .plain
    (show Returned after (.raw (')' :: delimiter ++ ['"'])) _ from .raw hd)
  have hword : withReturns ('"' :: (delimiter ++ ['('])) = '"' :: (withReturns delimiter ++ ['(']) := by
    rw [Text.withReturns_cons (by decide), Text.withReturns_append]
    rfl
  have hlength : ∀ text : List Char, ('"' :: (text ++ ['('])).length = text.length + 1 + 1 := by
    simp
  rw [hword, hlength, hlength] at hpass
  rw [List.cons_append, List.append_assoc, List.singleton_append] at hpass
  rw [hafter]
  exact hpass

/-- One step in the text with returns does what the step in the text does. -/
def StepReturned (rules : MaskRules) (mode mode' : Mode) (fresh : Bool) (previous : Option Char)
    (c : Char) (rest : List Char) : Prop :=
  ∃ next', step rules mode' fresh previous c (withReturns rest) =
      ((step rules mode fresh previous c rest).1, next', (step rules mode fresh previous c rest).2.2) ∧
    Returned rest (step rules mode fresh previous c rest).2.1 next'

theorem stepReturned_code (hr : '\r' ∉ rest) :
    StepReturned rules .code .code fresh previous c rest := by
  have hquotes : Text.startsWith (withReturns rest) ['"', '"'] = Text.startsWith rest ['"', '"'] :=
    (Text.padded_withReturns rest).startsWith_eq (by decide)
  have hdigits : separatesDigits previous (withReturns rest) = separatesDigits previous rest := by
    rw [separatesDigits, separatesDigits, Text.any_head?_withReturns rfl rfl]
  have hraw : (withReturns rest).head? = some '"' ∧ endsName previous = false ∧
      '(' ∈ (withReturns rest).tail ↔
        rest.head? = some '"' ∧ endsName previous = false ∧ '(' ∈ rest.tail := by
    rw [Text.head?_withReturns _ rfl]
    refine and_congr_right fun hhead => and_congr_right fun _ => ?_
    obtain ⟨tail, rfl⟩ := List.head?_eq_some_iff.mp hhead
    rw [Text.withReturns_cons (by decide), List.tail_cons, List.tail_cons,
      Text.mem_withReturns rfl]
  rw [StepReturned]
  unfold step
  dsimp only
  simp only [hraw, hquotes, hdigits, Text.head?_withReturns rest (x := '/') rfl,
    Text.head?_withReturns rest (x := '*') rfl]
  split_ifs with hline hblock hdirective htext hdelimited hquote hchar
  · exact ⟨_, rfl, returned_pass _ (by decide) hline.2 trivial⟩
  · exact ⟨_, rfl, returned_pass _ (by decide) hblock.2 trivial⟩
  · exact ⟨_, rfl, .simple trivial⟩
  · obtain ⟨tail, rfl⟩ := Text.startsWith_iff.mp htext.2.2
    exact ⟨_, rfl, returned_passing ['"', '"'] _ (.simple trivial)⟩
  · exact ⟨_, rfl, returned_raw hdelimited.2.2.1 hdelimited.2.2.2.2 hr⟩
  · exact ⟨_, rfl, .simple (.inl rfl)⟩
  · exact ⟨_, rfl, .simple (.inr rfl)⟩
  · exact ⟨_, rfl, .simple trivial⟩

/-- A character that is no line feed. -/
theorem Returned.step (rules : MaskRules) (fresh : Bool) (previous : Option Char) (h : Returned (c :: rest) mode mode') (hc : c ≠ '\n')
    (hr : '\r' ∉ c :: rest) (hcont : ¬ ['\\', '\n'] <:+: c :: rest) :
    StepReturned rules mode mode' fresh previous c rest := by
  have hrest := List.not_mem_of_not_mem_cons hr
  have hfeed : c = '\\' → rest.head? ≠ some '\n' := by
    rintro rfl hhead
    obtain ⟨tail, rfl⟩ := List.head?_eq_some_iff.mp hhead
    exact hcont ⟨[], tail, rfl⟩
  generalize htext : c :: rest = text at h
  cases h with
  | simple h =>
    cases mode with
    | code => exact stepReturned_code hrest
    | lineComment =>
      rw [StepReturned, Mask.step, Mask.step, if_neg hc]
      exact ⟨_, rfl, .simple trivial⟩
    | blockComment =>
      simp only [StepReturned, Mask.step, Text.head?_withReturns rest (x := '/') rfl]
      split_ifs with hclose
      · exact ⟨_, rfl, returned_pass _ (by decide) hclose.2 trivial⟩
      · exact ⟨_, rfl, .simple trivial⟩
    | directive =>
      have hcontinued : ¬ (c = '\\' ∧ rest.head? = some '\n') := fun h => hfeed h.1 h.2
      have hcontinued' : ¬ (c = '\\' ∧ (withReturns rest).head? = some '\n') :=
        fun h => Text.head?_withReturns_ne h.2
      rw [StepReturned, Mask.step, Mask.step, if_neg hcontinued, if_neg hcontinued', if_neg hc]
      exact ⟨_, rfl, .simple trivial⟩
    | quoted quote =>
      rw [StepReturned, Mask.step, Mask.step]
      split_ifs with hescape hclose
      · exact ⟨_, rfl, .escape h (hfeed hescape)⟩
      · exact ⟨_, rfl, .simple trivial⟩
      · exact ⟨_, rfl, .simple h⟩
    | textBlock =>
      have hquotes : Text.startsWith (withReturns rest) ['"', '"'] = Text.startsWith rest ['"', '"'] :=
    (Text.padded_withReturns rest).startsWith_eq (by decide)
      simp only [StepReturned, Mask.step, hquotes]
      split_ifs with hclose hescape
      · obtain ⟨tail, rfl⟩ := Text.startsWith_iff.mp hclose.2
        exact ⟨_, rfl, returned_passing ['"', '"'] _ (.simple trivial)⟩
      · exact ⟨_, rfl, .escape trivial (hfeed hescape)⟩
      · exact ⟨_, rfl, .simple trivial⟩
    | raw | escape | pass => exact h.elim
  | escape h => exact ⟨_, rfl, .simple h⟩
  | @raw _ delimiter h =>
    subst htext
    have hclose : withReturns (')' :: delimiter ++ ['"']) = ')' :: withReturns delimiter ++ ['"'] := by
      rw [List.cons_append, Text.withReturns_cons (by decide), Text.withReturns_append]
      rfl
    have hnot : '\r' ∉ ')' :: delimiter ++ ['"'] := by simpa using h
    have hstart := Text.startsWith_withReturns hr hnot
    rw [Text.withReturns_cons hc, hclose] at hstart
    rw [StepReturned, Mask.step, Mask.step, hstart]
    split_ifs with hend
    · obtain ⟨tail, htail⟩ := Text.startsWith_iff.mp hend
      obtain ⟨rfl, rfl⟩ := List.cons.inj htail
      refine ⟨_, rfl, ?_⟩
      have hpass := returned_passing (delimiter ++ ['"']) .plain
        (show Returned tail .code _ from .simple trivial)
      rw [Text.withReturns_append] at hpass
      exact hpass
    · exact ⟨_, rfl, .raw h⟩
  | @pass word rest' shade next next' hne h =>
    cases word with
    | nil => exact absurd rfl hne
    | cons w word =>
      obtain ⟨rfl, rfl⟩ := List.cons.inj htext
      rw [Text.withReturns_cons hc]
      exact ⟨_, rfl, returned_passing word shade h⟩

/-- The two characters of a line end. -/
theorem Returned.step_feed (rules : MaskRules) (fresh : Bool) (previous : Option Char)
    (h : Returned ('\n' :: rest) mode mode') :
    ∃ shade shade' shade'' next next' between fresh',
      Mask.step rules mode fresh previous '\n' rest = (shade, next, fresh') ∧
      Mask.step rules mode' fresh previous '\r' ('\n' :: withReturns rest) =
        (shade', between, fresh) ∧
      Mask.step rules between fresh (some '\r') '\n' (withReturns rest) =
        (shade'', next', fresh') ∧
      Returned rest next next' := by
  have hfresh : freshAfter fresh '\r' = fresh := by cases fresh <;> rfl
  generalize htext : '\n' :: rest = text at h
  cases h with
  | simple h =>
    cases mode with
    | code =>
      exact ⟨.plain, .plain, .plain, .code, .code, .code, true, by simp [Mask.step, freshAfter],
        by simp [Mask.step, hfresh], by simp [Mask.step, freshAfter], .simple trivial⟩
    | lineComment =>
      exact ⟨.plain, .comment, .plain, .code, .code, .lineComment, true, by simp [Mask.step],
        by simp [Mask.step, hfresh], by simp [Mask.step], .simple trivial⟩
    | blockComment =>
      exact ⟨.comment, .comment, .comment, .blockComment, .blockComment, .blockComment, true,
        by simp [Mask.step, freshAfter], by simp [Mask.step, hfresh],
        by simp [Mask.step, freshAfter], .simple trivial⟩
    | directive =>
      exact ⟨.plain, .comment, .plain, .code, .code, .directive, true, by simp [Mask.step],
        by simp [Mask.step, hfresh], by simp [Mask.step], .simple trivial⟩
    | quoted quote =>
      have hquote : '\r' ≠ quote := by rcases h with rfl | rfl <;> decide
      exact ⟨.plain, .literal, .plain, .code, .code, .quoted quote, true,
        by simp [Mask.step, freshAfter], by simp [Mask.step, hfresh, hquote],
        by simp [Mask.step, freshAfter], .simple trivial⟩
    | textBlock =>
      exact ⟨.literal, .literal, .literal, .textBlock, .textBlock, .textBlock, true,
        by simp [Mask.step, freshAfter], by simp [Mask.step, hfresh],
        by simp [Mask.step, freshAfter], .simple trivial⟩
    | raw | escape | pass => exact h.elim
  | escape h hrest =>
    subst htext
    exact absurd rfl hrest
  | @raw _ delimiter h =>
    have hclose : ∀ (c : Char) (text close : List Char), c ≠ ')' →
        Text.startsWith (c :: text) (')' :: close) = false := by
      intro c text close hc
      rw [Text.startsWith, Text.dropLead?, if_neg hc.symm]
      rfl
    exact ⟨.literal, .literal, .literal, _, _, .raw (')' :: withReturns delimiter ++ ['"']), true,
      by simp [Mask.step, freshAfter, hclose], by simp [Mask.step, hfresh, hclose],
      by simp [Mask.step, freshAfter, hclose], .raw h⟩
  | @pass word rest' shade next next' hne h =>
    cases word with
    | nil => exact absurd rfl hne
    | cons w word =>
      obtain ⟨rfl, rfl⟩ := List.cons.inj htext
      exact ⟨_, _, _, _, _, _, _, rfl, rfl, rfl, returned_passing word shade h⟩

variable {text : List Char}

end

end Mask
end Outline
