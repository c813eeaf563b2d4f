import Outline.Proofs.Source.JavaToken
import Outline.Proofs.Source.Stretch
import Outline.Proofs.Text.Word

/-!
# Runs of comments

Between two pieces of code stand blanks and comments, one after the other.  Such a run is
described here without a pass, by its text alone, and it may break off in the middle of a
comment.  Where the pass is in code in front of a text, the text is a run of comments exactly
when the view without comments shows nothing of it; and whatever that view hides belongs to a
run that starts in code.
-/

namespace Outline
namespace Java

open Mask

/-- Blanks and comments, the last of which may be cut off. -/
inductive CommentText : List Char → Prop
  | nil : CommentText []
  | blank {c : Char} {rest : List Char} (hc : Text.isBlank c = true) (hrest : CommentText rest) :
    CommentText (c :: rest)
  | line {word rest : List Char} (hword : '\n' ∉ word) (hrest : CommentText rest) :
    CommentText ('/' :: '/' :: (word ++ '\n' :: rest))
  | lineCut {word : List Char} (hword : '\n' ∉ word) : CommentText ('/' :: '/' :: word)
  | block {word rest : List Char} (hword : ¬ ['*', '/'] <:+: word) (hrest : CommentText rest) :
    CommentText ('/' :: '*' :: (word ++ '*' :: '/' :: rest))
  | blockCut {word : List Char} (hword : ¬ ['*', '/'] <:+: word) : CommentText ('/' :: '*' :: word)

/-- A word that shows nothing but blanks where comments are hidden. -/
def Unseen (word : Tinted) : Prop := ∀ x ∈ word, x.1 = .comment ∨ Text.isBlank x.2 = true

section Unseen

variable {a b word : Tinted} {text : List Char}

theorem unseen_append : Unseen (a ++ b) ↔ Unseen a ∧ Unseen b := List.forall_mem_append

theorem unseen_tint (text : List Char) : Unseen (tint .comment text) := by
  intro x hx
  obtain ⟨c, -, rfl⟩ := List.mem_map.mp hx
  exact .inl rfl

theorem unseen_cons {shade : Shade} {c : Char} :
    Unseen ((shade, c) :: word) ↔ (shade = .comment ∨ Text.isBlank c = true) ∧ Unseen word :=
  List.forall_mem_cons

theorem unseen_iff_view :
    Unseen word ↔ ∀ c ∈ view (· == .comment) word, Text.isBlank c = true := by
  induction word with
  | nil => simp [Unseen]
  | cons x word ih =>
    obtain ⟨shade, c⟩ := x
    rw [unseen_cons, view_cons, List.forall_mem_append, ih]
    refine and_congr_left fun _ => ?_
    cases shade with
    | comment =>
      refine iff_of_true (.inl rfl) fun d hd => ?_
      rcases mem_blank hd with rfl | rfl <;> rfl
    | plain | literal => simp

end Unseen

/-! ## The pass over a run of comments -/

section Tints

variable {previous : Option Char} {rest : List Char}

theorem tints_openLine : Tints .java .code previous (tint .comment ['/', '/']) .lineComment rest :=
  .cons (fun fresh => ⟨fresh, rfl⟩) (.single fun fresh => ⟨fresh, rfl⟩)

theorem tints_openBlock :
    Tints .java .code previous (tint .comment ['/', '*']) .blockComment rest :=
  .cons (fun fresh => ⟨fresh, rfl⟩) (.single fun fresh => ⟨fresh, rfl⟩)

theorem tints_closeBlock :
    Tints .java .blockComment previous (tint .comment ['*', '/']) .code rest :=
  .cons (fun fresh => ⟨fresh, rfl⟩) (.single fun fresh => ⟨fresh, rfl⟩)

/-- A line comment with its line feed. -/
theorem tints_line {word : List Char} (hword : '\n' ∉ word) :
    Tints .java .code previous (tint .comment ('/' :: '/' :: word) ++ [(.plain, '\n')]) .code
      rest := by
  have hfeed : ∀ previous, Tints .java .lineComment previous [(.plain, '\n')] .code rest :=
    fun _ => .single fun _ => ⟨true, rfl⟩
  exact .append (.append tints_openLine (tints_lineComment hword)) (hfeed _)

/-- A comment from its opening to its closing mark. -/
theorem tints_block {word : List Char} (hword : ¬ ['*', '/'] <:+: word) :
    Tints .java .code previous (tint .comment ['/', '*'] ++ tint .comment word ++
      tint .comment ['*', '/']) .code rest :=
  .append (.append tints_openBlock (tints_blockComment hword)) tints_closeBlock

/-- In a comment that is cut off everything is comment, though a star at its end may close it
with what comes next. -/
theorem exists_tints_blockCut {word : List Char} (hword : ¬ ['*', '/'] <:+: word) :
    ∃ next, Tints .java .blockComment previous (tint .comment word) next rest := by
  induction word generalizing previous with
  | nil => exact ⟨.blockComment, .nil⟩
  | cons c word ih =>
    by_cases hclose : c = '*' ∧ (word ++ rest).head? = some '/'
    · obtain ⟨rfl, hslash⟩ := hclose
      cases word with
      | nil => exact ⟨.pass 0 .comment .code, .single fun fresh => ⟨fresh, by simp_all [step]⟩⟩
      | cons d word =>
        obtain rfl : d = '/' := by simpa using hslash
        exact absurd ⟨[], word, rfl⟩ hword
    · obtain ⟨next, hnext⟩ := @ih (some c) fun h =>
        hword (h.trans (List.suffix_cons c word).isInfix)
      exact ⟨next, .stretch (fun fresh => ⟨freshAfter fresh c, by rw [step, if_neg hclose]⟩) hnext⟩

/-- A blank in code stays, and leaves the pass in code. -/
theorem stepsTo_blank {c : Char} (hc : Text.isBlank c = true) :
    StepsTo .java .code previous c rest .plain .code := by
  have hne : ∀ d, Text.isBlank d = false → c ≠ d := by
    rintro d hd rfl
    rw [hc] at hd
    cases hd
  intro fresh
  refine ⟨freshAfter fresh c, ?_⟩
  simp [step, MaskRules.java, hne '/' rfl, hne '"' rfl, hne '\'' rfl]

end Tints

/-- From code, a run of comments is hidden. -/
theorem CommentText.exists_tints {text : List Char} (h : CommentText text)
    (previous : Option Char) (rest : List Char) :
    ∃ word next, wordOf word = text ∧ Unseen word ∧
      Tints .java .code previous word next rest := by
  induction h generalizing previous with
  | nil => exact ⟨[], .code, rfl, by simp [Unseen], .nil⟩
  | @blank c text hc _ ih =>
    obtain ⟨word, next, rfl, hunseen, htints⟩ := ih (some c)
    exact ⟨(.plain, c) :: word, next, rfl, unseen_cons.mpr ⟨.inr hc, hunseen⟩,
      .cons (stepsTo_blank hc) htints⟩
  | @line comment text hword _ ih =>
    obtain ⟨word, next, rfl, hunseen, htints⟩ := ih (lastOf previous
      (wordOf (tint .comment ('/' :: '/' :: comment) ++ [(.plain, '\n')])))
    refine ⟨_, next, ?_, ?_, .append (tints_line hword) htints⟩
    · simp
    · exact unseen_append.mpr ⟨unseen_append.mpr ⟨unseen_tint _, by simp [Unseen]; decide⟩, hunseen⟩
  | @lineCut comment hword =>
    exact ⟨_, .lineComment, by simp, unseen_append.mpr ⟨unseen_tint _, unseen_tint _⟩,
      .append tints_openLine (tints_lineComment hword)⟩
  | @block comment text hword _ ih =>
    obtain ⟨word, next, rfl, hunseen, htints⟩ := ih (lastOf previous
      (wordOf (tint .comment ['/', '*'] ++ tint .comment comment ++ tint .comment ['*', '/'])))
    refine ⟨_, next, ?_, ?_, .append (tints_block hword) htints⟩
    · simp
    · exact unseen_append.mpr ⟨unseen_append.mpr
        ⟨unseen_append.mpr ⟨unseen_tint _, unseen_tint _⟩, unseen_tint _⟩, hunseen⟩
  | @blockCut comment hword =>
    have hcut : ∃ next, Tints .java .blockComment (lastOf previous ['/', '*'])
        (tint .comment comment) next rest := exists_tints_blockCut hword
    obtain ⟨next, hnext⟩ := hcut
    exact ⟨_, next, by simp, unseen_append.mpr ⟨unseen_tint _, unseen_tint _⟩,
      .append tints_openBlock hnext⟩

/-! ## What is hidden from code on -/

/-- A text behind which more comes, with the shades that the pass gives it from code on. -/
def tintedFrom (fresh : Bool) (previous : Option Char) (text rest : List Char) : Tinted :=
  (shadesFrom .java .code fresh previous (text ++ rest)).zip text

theorem zip_shadesOf_append (word : Tinted) (shades : List Shade) (text : List Char) :
    (shadesOf word ++ shades).zip (wordOf word ++ text) = word ++ shades.zip text := by
  induction word with
  | nil => rfl
  | cons x word ih => exact congrArg (x :: ·) ih

section Unseen

variable {fresh : Bool} {previous : Option Char} {text rest : List Char}

theorem exists_tintedFrom_append {word : Tinted} (fresh : Bool)
    (h : Tints .java .code previous word .code (text ++ rest)) :
    ∃ fresh', tintedFrom fresh previous (wordOf word ++ text) rest =
      word ++ tintedFrom fresh' (lastOf previous (wordOf word)) text rest := by
  obtain ⟨fresh', hshades⟩ := h fresh
  refine ⟨fresh', ?_⟩
  rw [tintedFrom, List.append_assoc, hshades, zip_shadesOf_append]
  rfl

/-- In code, what does not start a comment shows. -/
theorem step_code_plain {c : Char}
    (h : ¬ (c = '/' ∧ (rest.head? = some '/' ∨ rest.head? = some '*'))) :
    (step .java .code fresh previous c rest).1 = .plain := by
  have hline : ¬ (c = '/' ∧ rest.head? = some '/') := fun hc => h ⟨hc.1, .inl hc.2⟩
  have hblock : ¬ (c = '/' ∧ rest.head? = some '*') := fun hc => h ⟨hc.1, .inr hc.2⟩
  simp only [step, if_neg hline, if_neg hblock, MaskRules.java, Bool.false_eq_true, false_and,
    if_false]
  split
  · rfl
  split
  · rfl
  split <;> rfl

/-- The first place where a comment may be closed. -/
theorem exists_first_close {text : List Char} (h : ['*', '/'] <:+: text) :
    ∃ word rest, text = word ++ '*' :: '/' :: rest ∧ ¬ ['*', '/'] <:+: word := by
  induction text with
  | nil => simp at h
  | cons c text ih =>
    by_cases hprefix : ['*', '/'] <+: c :: text
    · obtain ⟨rest, hrest⟩ := hprefix
      exact ⟨[], rest, hrest.symm, by simp⟩
    · obtain ⟨word, rest, rfl, hword⟩ := ih ((List.infix_cons_iff.mp h).resolve_left hprefix)
      refine ⟨c :: word, rest, rfl, fun hinfix => ?_⟩
      rcases List.infix_cons_iff.mp hinfix with hstart | hinfix
      · exact hprefix (hstart.trans (List.prefix_append (c :: word) _))
      · exact hword hinfix

/-- Behind `//` comes the rest of a line, and then a run. -/
theorem commentText_line {text : List Char}
    (hmore : ∀ word more, text = word ++ '\n' :: more → '\n' ∉ word → CommentText more) :
    CommentText ('/' :: '/' :: text) := by
  by_cases hfeed : '\n' ∈ text
  · obtain ⟨word, more, rfl, hword⟩ := List.eq_append_cons_of_mem hfeed
    exact .line hword (hmore word more rfl hword)
  · exact .lineCut hfeed

/-- Behind `/*` comes a text up to the first `*/`, and then a run. -/
theorem commentText_block {text : List Char}
    (hmore : ∀ word more, text = word ++ '*' :: '/' :: more → ¬ ['*', '/'] <:+: word →
      CommentText more) :
    CommentText ('/' :: '*' :: text) := by
  by_cases hclose : ['*', '/'] <:+: text
  · obtain ⟨word, more, rfl, hword⟩ := exists_first_close hclose
    exact .block hword (hmore word more rfl hword)
  · exact .blockCut hclose

/-- What is unseen from code on is a run of comments, if it ends in front of a blank. -/
theorem commentText_of_unseen (hrest : rest.head?.all Text.isBlank = true)
    (h : Unseen (tintedFrom fresh previous text rest)) : CommentText text := by
  -- A run is taken apart from its start, one blank or comment at a time.
  induction hn : text.length using Nat.strongRecOn generalizing text fresh previous with
  | ind n ih =>
    have hbehind : ∀ {word : Tinted} {more : List Char}, word ≠ [] → text = wordOf word ++ more →
        Tints .java .code previous word .code (more ++ rest) → CommentText more := by
      intro word more hne heq htints
      obtain ⟨fresh', htinted⟩ := exists_tintedFrom_append fresh htints
      rw [heq, htinted, unseen_append] at h
      refine ih more.length ?_ h.2 rfl
      have hpos : 0 < word.length := List.length_pos_of_ne_nil hne
      rw [← hn, heq, List.length_append, wordOf, List.length_map]
      omega
    cases text with
    | nil => exact .nil
    | cons c text =>
      by_cases hopen : c = '/' ∧
          ((text ++ rest).head? = some '/' ∨ (text ++ rest).head? = some '*')
      · obtain ⟨rfl, hnext⟩ := hopen
        cases text with
        | nil =>
          rcases hnext with hnext | hnext
          · rw [List.nil_append] at hnext
            simp [hnext, Text.isBlank] at hrest
          · rw [List.nil_append] at hnext
            simp [hnext, Text.isBlank] at hrest
        | cons d text =>
          rw [List.cons_append, List.head?_cons, Option.some.injEq, Option.some.injEq] at hnext
          rcases hnext with rfl | rfl
          · refine commentText_line fun word more heq hword => ?_
            have htext : '/' :: '/' :: text =
                wordOf (tint .comment ('/' :: '/' :: word) ++ [(.plain, '\n')]) ++ more := by
              rw [heq]
              simp
            exact hbehind (List.cons_ne_nil _ _) htext (tints_line hword)
          · refine commentText_block fun word more heq hword => ?_
            have htext : '/' :: '*' :: text =
                wordOf (tint .comment ['/', '*'] ++ tint .comment word ++
                  tint .comment ['*', '/']) ++ more := by
              rw [heq]
              simp
            exact hbehind (List.cons_ne_nil _ _) htext (tints_block hword)
      · have hhead : ∃ tail, tintedFrom fresh previous (c :: text) rest =
            ((step .java .code fresh previous c (text ++ rest)).1, c) :: tail := ⟨_, rfl⟩
        obtain ⟨tail, htail⟩ := hhead
        have hc : Text.isBlank c = true := by
          rw [htail, step_code_plain hopen, unseen_cons] at h
          exact h.1.resolve_left (by decide)
        exact .blank hc (hbehind (List.cons_ne_nil _ _) rfl (.single (stepsTo_blank hc)))

end Unseen

/-! ## Where a comment began -/

/-- What the pass over a Java text can be inside of. -/
def Reached : Mode → Prop
  | .code | .lineComment | .blockComment | .quoted _ | .textBlock => True
  | .escape back => back = .textBlock ∨ ∃ quote, back = .quoted quote
  | .pass _ shade next =>
    shade = .comment ∧ (next = .lineComment ∨ next = .blockComment ∨ next = .code) ∨
      shade = .plain ∧ (next = .textBlock ∨ next = .code)
  | .directive | .raw _ => False

/-- Whether the pass is inside of a comment or about to be. -/
def inComment : Mode → Bool
  | .lineComment | .blockComment | .pass _ .comment _ => true
  | _ => false

/-- What one step of the pass over a Java text does. -/
structure StepDone (mode : Mode) (previous : Option Char) (c : Char) (rest : List Char)
    (shade : Shade) (next : Mode) : Prop where
  reached : Reached next
  steps : StepsTo .java mode previous c rest shade next
  hides : shade = .comment → mode = .code ∨ inComment mode = true
  enters : inComment next = true → shade = .comment

section Steps

variable {mode : Mode} {fresh : Bool} {previous : Option Char} {c : Char} {rest : List Char}

/-- A step that hides nothing and does not enter a comment. -/
theorem StepDone.shown {shade : Shade} {next : Mode} (hreached : Reached next)
    (hsteps : StepsTo .java mode previous c rest shade next) (hshade : shade ≠ .comment)
    (hnext : inComment next = false) : StepDone mode previous c rest shade next where
  reached := hreached
  steps := hsteps
  hides h := absurd h hshade
  enters h := by simp [hnext] at h

theorem stepDone_code : ∃ shade next, StepDone .code previous c rest shade next := by
  by_cases hline : c = '/' ∧ rest.head? = some '/'
  · exact ⟨.comment, .pass 0 .comment .lineComment, by simp [Reached],
      fun fresh => ⟨fresh, by simp [step, hline]⟩, fun _ => .inl rfl, fun _ => rfl⟩
  by_cases hblock : c = '/' ∧ rest.head? = some '*'
  · exact ⟨.comment, .pass 0 .comment .blockComment, by simp [Reached],
      fun fresh => ⟨fresh, by simp [step, hblock]⟩, fun _ => .inl rfl, fun _ => rfl⟩
  by_cases htext : c = '"' ∧ Text.startsWith rest ['"', '"']
  · exact ⟨.plain, .pass 1 .plain .textBlock, .shown (by simp [Reached])
      (fun fresh => ⟨fresh, by simp [step, htext, MaskRules.java]⟩) (by decide) rfl⟩
  by_cases hquote : c = '"'
  · exact ⟨.plain, .quoted '"', .shown trivial
      (fun fresh => ⟨freshAfter fresh c, by simp_all [step, MaskRules.java]⟩) (by decide) rfl⟩
  by_cases hchar : c = '\''
  · exact ⟨.plain, .quoted '\'', .shown trivial
      (fun fresh => ⟨freshAfter fresh c, by simp_all [step, MaskRules.java]⟩) (by decide) rfl⟩
  · exact ⟨.plain, .code, .shown trivial
      (fun fresh => ⟨freshAfter fresh c, by
        simp [step, hline, hblock, hquote, hchar, MaskRules.java]⟩) (by decide) rfl⟩

/-- The pass over a Java text does not depend on whether the line is blank so far. -/
theorem exists_stepDone (h : Reached mode) :
    ∃ shade next, StepDone mode previous c rest shade next := by
  cases mode with
  | code => exact stepDone_code
  | lineComment =>
    by_cases hfeed : c = '\n'
    · exact ⟨.plain, .code, .shown trivial (fun fresh => ⟨true, by simp [step, hfeed]⟩)
        (by decide) rfl⟩
    · exact ⟨.comment, .lineComment, trivial,
        fun fresh => ⟨freshAfter fresh c, by simp [step, hfeed]⟩, fun _ => .inr rfl, fun _ => rfl⟩
  | blockComment =>
    by_cases hclose : c = '*' ∧ rest.head? = some '/'
    · exact ⟨.comment, .pass 0 .comment .code, by simp [Reached],
        fun fresh => ⟨fresh, by simp [step, hclose]⟩, fun _ => .inr rfl, fun _ => rfl⟩
    · exact ⟨.comment, .blockComment, trivial,
        fun fresh => ⟨freshAfter fresh c, by simp [step, hclose]⟩, fun _ => .inr rfl, fun _ => rfl⟩
  | quoted quote =>
    by_cases hback : c = '\\'
    · exact ⟨.literal, .escape (.quoted quote), .shown (.inr ⟨quote, rfl⟩)
        (fun fresh => ⟨fresh, by simp [step, hback]⟩) (by decide) rfl⟩
    by_cases hclose : c = quote ∨ c = '\n'
    · exact ⟨.plain, .code, .shown trivial
        (fun fresh => ⟨freshAfter fresh c, by simp only [step, if_neg hback, if_pos hclose]⟩)
        (by decide) rfl⟩
    · exact ⟨.literal, .quoted quote, .shown trivial
        (fun fresh => ⟨freshAfter fresh c, by simp only [step, if_neg hback, if_neg hclose]⟩)
        (by decide) rfl⟩
  | textBlock =>
    by_cases hclose : c = '"' ∧ Text.startsWith rest ['"', '"']
    · exact ⟨.plain, .pass 1 .plain .code, .shown (by simp [Reached])
        (fun fresh => ⟨fresh, by simp only [step, if_pos hclose]⟩) (by decide) rfl⟩
    by_cases hback : c = '\\'
    · exact ⟨.literal, .escape .textBlock, .shown (.inl rfl)
        (fun fresh => ⟨fresh, by simp only [step, if_neg hclose, if_pos hback]⟩) (by decide) rfl⟩
    · exact ⟨.literal, .textBlock, .shown trivial
        (fun fresh => ⟨freshAfter fresh c, by simp only [step, if_neg hclose, if_neg hback]⟩)
        (by decide) rfl⟩
  | escape back =>
    refine ⟨.literal, back, .shown ?_ (fun fresh => ⟨_, rfl⟩) (by decide) ?_⟩
    · rcases h with rfl | ⟨quote, rfl⟩ <;> trivial
    · rcases h with rfl | ⟨quote, rfl⟩ <;> rfl
  | pass more shade next =>
    refine ⟨shade, .passing more shade next, ?_, fun fresh => ⟨fresh, rfl⟩, ?_, ?_⟩
    · cases more with
      | zero => rcases h with ⟨-, rfl | rfl | rfl⟩ | ⟨-, rfl | rfl⟩ <;> trivial
      | succ more => exact h
    · rintro rfl
      exact .inr rfl
    · intro hin
      rcases h with ⟨hshade, -⟩ | ⟨rfl, hnext⟩
      · exact hshade
      · cases more with
        | zero => rcases hnext with rfl | rfl <;> cases hin
        | succ more => cases hin
  | directive => exact h.elim
  | raw close => exact h.elim

/-- What is hidden in front of a hidden character belongs to the comment it stands in, back to
where that comment or one right before it began: in code, or in front of all. -/
theorem exists_code_before (h : Reached mode) {text : List Char} {before rear : Tinted}
    (heq : (shadesFrom .java mode fresh previous text).zip text =
      before ++ (.comment, c) :: rear) :
    (inComment mode = true ∧ ∀ x ∈ before, x.1 = .comment) ∨
      ∃ front comment, before = front ++ comment ∧ (∀ x ∈ comment, x.1 = .comment) ∧
        Tints .java mode previous front .code (wordOf (comment ++ (.comment, c) :: rear)) := by
  induction text generalizing mode fresh previous before with
  | nil => simp [shadesFrom] at heq
  | cons d text ih =>
    obtain ⟨shade, next, hdone⟩ := @exists_stepDone mode previous d text h
    obtain ⟨fresh', hstep⟩ := hdone.steps fresh
    rw [shadesFrom, hstep, List.zip_cons_cons] at heq
    cases before with
    | nil =>
      obtain rfl : shade = .comment := congrArg Prod.fst (List.cons.inj heq).1
      rcases hdone.hides rfl with rfl | hin
      · exact .inr ⟨[], [], rfl, by simp, .nil⟩
      · exact .inl ⟨hin, by simp⟩
    | cons x before =>
      rw [List.cons_append, List.cons.injEq] at heq
      obtain ⟨rfl, hrest⟩ := heq
      rcases ih hdone.reached hrest with ⟨hin, hall⟩ | ⟨front, comment, rfl, hall, htints⟩
      · have hshade : shade = .comment := hdone.enters hin
        have hall : ∀ x ∈ (shade, d) :: before, x.1 = .comment :=
          List.forall_mem_cons.mpr ⟨hshade, hall⟩
        rcases hdone.hides hshade with rfl | hmode
        · exact .inr ⟨[], _, rfl, hall, .nil⟩
        · exact .inl ⟨hmode, hall⟩
      · have htext : text = wordOf (front ++ comment ++ (.comment, c) :: rear) := by
          rw [← hrest, wordOf,
            List.map_snd_zip (Nat.le_of_eq (length_shadesFrom _ _ _ _ text).symm)]
        rw [List.append_assoc, wordOf_append] at htext
        refine .inr ⟨(shade, d) :: front, comment, rfl, hall, .cons ?_ htints⟩
        rw [← htext]
        exact hdone.steps

end Steps

/-! ## Runs in a source -/

/-- The pass over a text is in code behind its front, with the rest to come. -/
def InCode (front rest : List Char) : Prop :=
  ∃ word, wordOf word = front ∧ Tints .java .code none word .code rest

/-- A run of comments in a text, from a place in code on. -/
structure CommentRun (front comment rear : List Char) : Prop where
  code : InCode front (comment ++ rear)
  text : CommentText comment

section Runs

variable {source : List Char}

/-- The view without comments shows nothing of a run. -/
theorem CommentRun.exists_tinted {front comment rear : List Char}
    (h : CommentRun front comment rear) :
    ∃ before run behind, tinted .java (front ++ (comment ++ rear)) = before ++ (run ++ behind) ∧
      wordOf before = front ∧ wordOf run = comment ∧ Unseen run := by
  obtain ⟨before, rfl, hbefore⟩ := h.code
  obtain ⟨run, next, rfl, hunseen, hrun⟩ := h.text.exists_tints (lastOf none (wordOf before)) rear
  obtain ⟨fresh, hshades⟩ := (hbefore.append hrun) true
  refine ⟨before, run, (shadesFrom .java next fresh (lastOf none (wordOf (before ++ run))) rear).zip
    rear, ?_, rfl, rfl, hunseen⟩
  rw [tinted, shades, ← List.append_assoc, ← wordOf_append, hshades, zip_shadesOf_append,
    List.append_assoc]

theorem tintedFrom_of_tinted {word rear : Tinted} (h : tinted .java source = word ++ rear) :
    tintedFrom true none (wordOf word) (wordOf rear) = word := by
  have hshades : shadesFrom .java .code true none source = shadesOf word ++ shadesOf rear := by
    rw [← shades, ← shadesOf_tinted, h]
    simp [shadesOf]
  rw [tintedFrom, ← wordOf_append, ← h, wordOf_tinted, hshades, ← List.append_nil (wordOf word),
    zip_shadesOf_append, List.zip_nil_right, List.append_nil]

/-- What the view without comments shows nothing of belongs to a run, if it does not start with
a blank and ends in front of one. -/
theorem exists_commentRun {before word behind : Tinted} {c : Char} {text : List Char}
    (h : tinted .java source = before ++ (word ++ behind)) (hword : wordOf word = c :: text)
    (hc : Text.isBlank c = false) (hbehind : (wordOf behind).head?.all Text.isBlank = true)
    (hunseen : Unseen word) :
    ∃ front lead, wordOf before = front ++ lead ∧
      CommentRun front (lead ++ wordOf word) (wordOf behind) := by
  obtain ⟨⟨shade, d⟩, more, rfl⟩ := List.exists_cons_of_ne_nil (l := word) fun hnil => by
    rw [hnil] at hword
    cases hword
  obtain rfl : d = c := (List.cons.inj hword).1
  obtain rfl : shade = .comment :=
    (unseen_cons.mp hunseen).1.resolve_right (by rw [hc]; exact Bool.false_ne_true)
  have hcode : Reached .code := trivial
  rw [List.cons_append] at h
  rcases exists_code_before hcode h with ⟨hin, -⟩ | ⟨front, lead, rfl, hlead, htints⟩
  · cases hin
  have hall : Unseen (lead ++ (.comment, d) :: more) :=
    unseen_append.mpr ⟨fun x hx => .inl (hlead x hx), hunseen⟩
  rw [← List.cons_append, ← List.append_assoc, wordOf_append] at htints
  refine ⟨wordOf front, wordOf lead, wordOf_append front lead, ⟨front, rfl, ?_⟩, ?_⟩
  · rwa [← wordOf_append]
  · obtain ⟨fresh, hfrom⟩ := exists_tintedFrom_append true htints
    have hsource : tinted .java source = (front ++ (lead ++ (.comment, d) :: more)) ++ behind := by
      rw [h]
      simp
    rw [← wordOf_append, tintedFrom_of_tinted hsource] at hfrom
    rw [← wordOf_append]
    exact commentText_of_unseen hbehind (List.append_cancel_left hfrom ▸ hall)

end Runs

end Java
end Outline
