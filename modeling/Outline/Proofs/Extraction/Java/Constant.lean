import Mathlib.Data.List.Forall2
import Outline.Extraction.Java.Rule
import Outline.Proofs.Declaration.TypeText
import Outline.Proofs.Extraction.Statement
import Outline.Proofs.Extraction.Subject
import Outline.Proofs.Pattern.Choice

/-!
# The constants of an enum

A list of constants is split at the commas outside of all groups, and the angle brackets of
a comparison count as groups.  So a constant gets a piece of its own if and only if no angle
bracket is open in front of it; a constant without one is lost in the piece before.
-/

namespace Outline
namespace Java

open Parameter (IsIdent NameOf isIdentChar isDollarStart isDollarChar)

/-! ## The name a piece leads with -/

theorem ends_annotation_of_ne {reach : Reach} (h : reach.cursor.rest.head? ≠ some '@') :
    (Parameter.annotation ++ Pattern.blanks).ends [reach] = [] := by
  refine Pattern.ends_seq_of_nil (Pattern.ends_seq_of_nil (Pattern.ends_seq_of_nil ?_))
  refine Pattern.ends_char_of_not fun r hmem c hc => beq_eq_false_iff_ne.mpr fun heq => ?_
  obtain rfl : r = reach := List.mem_singleton.mp hmem
  exact h (heq ▸ hc)

/-- Where no annotation begins, none is read. -/
theorem ends_annotations {reaches : List Reach}
    (h : ∀ reach ∈ reaches, reach.cursor.rest.head? ≠ some '@')
    (hd : reaches.Pairwise fun a b => a.offset ≠ b.offset) : annotations.ends reaches = reaches :=
  Pattern.ends_star_of_nil (fun reach hr => ends_annotation_of_ne (h reach hr)) hd

theorem ends_blanks_space (reach : Reach) {rest : List Char}
    (hr : reach.cursor.rest = ' ' :: rest) (h : ∀ c, rest.head? = some c → Text.isBlank c = false) :
    Pattern.blanks.ends [reach] = [Reach.after reach [' '] rest, reach] := by
  obtain ⟨⟨previous, offset, text⟩, entered, marks⟩ := reach
  cases hr
  rw [Pattern.blanks, Pattern.run0, Pattern.ends_run, Pattern.alongRun_cons _ _ _ rfl,
    Pattern.alongRun_of_not _ _ _ h]
  rfl

/-- The best end of a name is behind all of its characters. -/
theorem head?_ends_dollarName (reach : Reach) {others : List Reach} {name rest : List Char}
    (hn : NameOf isDollarStart isDollarChar name) (hr : reach.cursor.rest = name ++ rest)
    (hstop : ∀ c, rest.head? = some c → isDollarChar c = false)
    (ho : ∀ r ∈ others, ∀ c, r.cursor.rest.head? = some c → isDollarStart c = false) :
    (Pattern.dollarName.ends (reach :: others)).head? = some (Reach.after reach name rest) := by
  obtain ⟨⟨c, hc, hfirst⟩, hall⟩ := hn
  cases name with
  | nil => exact nomatch hc
  | cons a name =>
    obtain rfl : a = c := Option.some.inj hc
    show ((Pattern.run true isDollarChar).ends
      ((Pattern.char isDollarStart).ends (reach :: others))).head? = _
    have hrun := Pattern.head?_ends_run (Reach.after reach [a] (name ++ rest)) rfl
      (fun d hd => hall d (List.mem_cons_of_mem a hd)) hstop
    rw [Pattern.ends_char_cons reach ho, Pattern.ends_char reach hr hfirst]
    refine hrun.trans ?_
    simp only [Reach.after, Reach.offset, Option.some.injEq, Reach.mk.injEq, Cursor.mk.injEq,
      and_true, Text.width_cons, Text.width_nil, Nat.add_zero, Nat.add_assoc]
    cases name <;> simp [List.getLast?_cons]

theorem isDollarChar_of_isIdentChar {c : Char} (h : isIdentChar c = true) :
    isDollarChar c = true := by
  rcases Bool.or_eq_true_iff.mp h with h | h
  · exact Bool.or_eq_true_iff.mpr (.inl (Parameter.isWordChar_of_plain h))
  · exact Bool.or_eq_true_iff.mpr (.inr h)

theorem isDollarChar_of_isBlank {c : Char} (h : Text.isBlank c = true) :
    isDollarChar c = false := by
  have hdollar : c ≠ '$' := fun hc => absurd (hc ▸ h) (by decide)
  rw [isDollarChar, Text.isWordChar_eq_false_of_isBlank h, Bool.false_or]
  exact beq_eq_false_iff_ne.mpr hdollar

/-- A piece that starts with a space and a name leads with the name. -/
theorem find?_leadingName {name rest : List Char} (hn : IsIdent name)
    (hstop : ∀ c, rest.head? = some c → isDollarChar c = false) :
    (leadingName.find? (' ' :: (name ++ rest))).bind (·.part? .name) = some ⟨1, name⟩ := by
  have hdollar : NameOf isDollarStart isDollarChar name :=
    ⟨hn.head, fun c hc => isDollarChar_of_isIdentChar (hn.all c hc)⟩
  obtain ⟨a, more, rfl, hfirst⟩ := hn.exists_cons
  have hblank : Text.isBlank a = false :=
    Parameter.isBlank_of_isIdentChar (hn.all a List.mem_cons_self)
  have hat : a ≠ '@' := fun h => absurd (h ▸ hfirst) (by decide)
  let start : Reach := .start ⟨none, 0, ' ' :: (a :: more ++ rest)⟩
  have hgap : annotations.ends (Pattern.blanks.ends [start]) =
      [Reach.after start [' '] (a :: more ++ rest), start] := by
    rw [ends_blanks_space start rfl fun c hc => Option.some.inj hc ▸ hblank]
    refine ends_annotations ?_ ?_
    · intro reach hr
      simp only [List.mem_cons, List.not_mem_nil, or_false] at hr
      rcases hr with rfl | rfl
      · exact fun h => hat (Option.some.inj h)
      · exact fun h => absurd (show ' ' = '@' from Option.some.inj h) (by decide)
    · exact List.pairwise_pair.mpr (show 0 + Text.width [' '] ≠ 0 by decide)
  have hends : (leadingName.ends [start]).head? =
      some (((Reach.after start [' '] (a :: more ++ rest)).enter .name).after (a :: more) rest).leave := by
    show ((Pattern.dollarName.ends ((annotations.ends (Pattern.blanks.ends [start])).map
      (Reach.enter .name))).map Reach.leave).head? = _
    rw [hgap, List.head?_map, List.map_cons, List.map_singleton,
      head?_ends_dollarName _ hdollar rfl hstop]
    · rfl
    · intro r hr c hc
      obtain rfl := List.mem_singleton.mp hr
      exact Option.some.inj hc ▸ rfl
  have hreads : (Cursor.mk (some ' ') 1 (a :: more ++ rest)).Reads (a :: more)
      ⟨(a :: more).getLast?.or (some ' '), 1 + Text.width (a :: more), rest⟩ := ⟨rfl, rfl⟩
  rw [Pattern.find?_of_matchAt (Pattern.matchAt_of_head? hends)]
  exact congrArg some (hreads.capture_eq 0)

/-! ## Constants -/

/-- The text between the parentheses of a constant. -/
structure ArgumentText (text : List Char) : Prop where
  bare : Text.isBare text = true
  free : ∀ c ∈ text, c ≠ ';' ∧ c ≠ '\x7b' ∧ c ≠ '\x7d'
  parens : Delimiter.balanced '(' ')' text = true
  brackets : Delimiter.balanced '[' ']' text = true

/-- A constant of an enum, with its arguments if it has any. -/
structure EnumConstant where
  name : List Char
  arguments : Option (List Char)
  ident : IsIdent name
  argued : ∀ text ∈ arguments, ArgumentText text

namespace EnumConstant

variable (constant : EnumConstant)

/-- What follows the name. -/
def trail : List Char :=
  match constant.arguments with
  | none => []
  | some text => '(' :: (text ++ [')'])

def text : List Char := constant.name ++ constant.trail

/-- The angles open behind the constant, with some open in front of it: every `<` opens one,
and every `>` that is no head of an arrow closes one if there is one. -/
def anglesBehind (angles : Nat) : Nat :=
  (constant.text.foldl Nesting.after ⟨0, angles, none⟩).angles

end EnumConstant

/-- The constants in front of which no angle is open, with `angles` open in front of the
first. -/
def kept (angles : Nat) : List EnumConstant → List EnumConstant
  | [] => []
  | constant :: constants =>
    if angles = 0 then constant :: kept (constant.anglesBehind angles) constants
    else kept (constant.anglesBehind angles) constants

/-- The angles open behind some constants. -/
def anglesBehindAll (constants : List EnumConstant) : Nat :=
  constants.foldl (fun angles constant => constant.anglesBehind angles) 0

/-! ## Splitting -/

/-- A text is not split anywhere. -/
def Unsplit (separator : Char) : Nesting → List Char → Prop
  | _, [] => True
  | nesting, c :: rest =>
    nesting.splits separator c = false ∧ Unsplit separator (nesting.after c) rest

section

variable {separator : Char} {nesting : Nesting} {a b text : List Char}

theorem Unsplit.append (ha : Unsplit separator nesting a)
    (hb : Unsplit separator (a.foldl Nesting.after nesting) b) :
    Unsplit separator nesting (a ++ b) := by
  induction a generalizing nesting with
  | nil => exact hb
  | cons c a ih => exact ⟨ha.1, ih ha.2 hb⟩

theorem splitTopLevelFrom_of_unsplit (h : Unsplit separator nesting a) (piece rest : List Char) :
    splitTopLevelFrom separator nesting piece (a ++ rest) =
      splitTopLevelFrom separator (a.foldl Nesting.after nesting) (a.reverse ++ piece) rest := by
  induction a generalizing nesting piece with
  | nil => rfl
  | cons c a ih =>
    rw [List.cons_append, splitTopLevelFrom, if_neg (by simp [h.1]), ih h.2, List.foldl_cons,
      List.reverse_cons, List.append_assoc]
    rfl

theorem unsplit_of_not_mem (h : separator ∉ a) : Unsplit separator nesting a := by
  induction a generalizing nesting with
  | nil => trivial
  | cons c a ih =>
    rw [List.mem_cons, not_or] at h
    refine ⟨?_, ih h.2⟩
    rw [Nesting.splits, beq_eq_false_iff_ne.mpr (Ne.symm h.1)]
    rfl

/-- A character of a name opens and closes nothing. -/
theorem after_of_isIdentChar {c : Char} (h : isIdentChar c = true) (nesting : Nesting) :
    nesting.after c = ⟨nesting.depth, nesting.angles, some c⟩ := by
  have hc := Parameter.isPlainChar_of_isIdentChar h
  simp only [Parameter.isPlainChar, List.contains_eq_mem, List.mem_cons, List.not_mem_nil,
    or_false, Bool.not_eq_true', decide_eq_false_iff_not, not_or] at hc
  simp [Nesting.after, Nesting.isBracket, hc]

theorem foldl_after_ident (h : ∀ c ∈ a, isIdentChar c = true) (nesting : Nesting) :
    a.foldl Nesting.after nesting =
      ⟨nesting.depth, nesting.angles, a.getLast?.or nesting.previous⟩ := by
  induction a generalizing nesting with
  | nil => rfl
  | cons c a ih =>
    rw [List.foldl_cons, after_of_isIdentChar (h c List.mem_cons_self),
      ih fun d hd => h d (List.mem_cons_of_mem c hd)]
    cases a <;> simp [List.getLast?_cons]

theorem depth_after (nesting : Nesting) (c : Char) : (nesting.after c).depth =
    if c = '(' ∨ c = '[' ∨ c = '\x7b' then nesting.depth + 1
    else if c = ')' ∨ c = ']' ∨ c = '\x7d' then nesting.depth - 1 else nesting.depth := by
  rw [Nesting.after]
  simp only [Bool.or_eq_true, beq_iff_eq, or_assoc]
  split
  · rfl
  · split
    · rfl
    · split
      · rfl
      · split <;> rfl

/-- Inside of parentheses a text that closes no more than it opens is not split. -/
theorem unsplit_of_balancedFrom {parens brackets : Nat}
    (hp : Delimiter.balancedFrom '(' ')' parens text = true)
    (hb : Delimiter.balancedFrom '[' ']' brackets text = true)
    (hfree : ∀ c ∈ text, c ≠ '\x7b' ∧ c ≠ '\x7d')
    (hdepth : nesting.depth = 1 + parens + brackets) :
    Unsplit separator nesting text ∧ (text.foldl Nesting.after nesting).depth = 1 := by
  induction text generalizing nesting parens brackets with
  | nil =>
    have hparens : parens = 0 := beq_iff_eq.mp hp
    have hbrackets : brackets = 0 := beq_iff_eq.mp hb
    refine ⟨trivial, ?_⟩
    show nesting.depth = 1
    omega
  | cons c text ih =>
    have htop : nesting.splits separator c = false := by
      have hne : nesting.depth ≠ 0 := by omega
      simp [Nesting.splits, Nesting.isTop, hne]
    obtain ⟨hopen, hclose⟩ := hfree c List.mem_cons_self
    have hmore : ∀ {parens brackets : Nat}, Delimiter.balancedFrom '(' ')' parens text = true →
        Delimiter.balancedFrom '[' ']' brackets text = true →
        (nesting.after c).depth = 1 + parens + brackets →
        Unsplit separator nesting (c :: text) ∧
          ((c :: text).foldl Nesting.after nesting).depth = 1 := by
      intro parens brackets hp hb hd
      obtain ⟨hunsplit, hlast⟩ := ih hp hb (fun d hd => hfree d (List.mem_cons_of_mem c hd)) hd
      exact ⟨⟨htop, hunsplit⟩, hlast⟩
    have hafter := depth_after nesting c
    simp only [Delimiter.balancedFrom] at hp hb
    by_cases h₁ : c = '('
    · subst h₁
      exact hmore hp hb (by rw [hafter]; simp; omega)
    by_cases h₂ : c = ')'
    · subst h₂
      have hp' : 0 < parens ∧ Delimiter.balancedFrom '(' ')' (parens - 1) text = true := by
        simpa using hp
      exact hmore hp'.2 hb (by rw [hafter]; simp; omega)
    by_cases h₃ : c = '['
    · subst h₃
      exact hmore hp hb (by rw [hafter]; simp; omega)
    by_cases h₄ : c = ']'
    · subst h₄
      have hb' : 0 < brackets ∧ Delimiter.balancedFrom '[' ']' (brackets - 1) text = true := by
        simpa using hb
      exact hmore hp hb'.2 (by rw [hafter]; simp; omega)
    rw [if_neg h₁, if_neg h₂] at hp
    rw [if_neg h₃, if_neg h₄] at hb
    exact hmore hp hb (by rw [hafter]; simp [h₁, h₂, h₃, h₄, hopen, hclose, hdepth])

end

namespace EnumConstant

variable {constant : EnumConstant}

theorem comma_not_mem_name (constant : EnumConstant) : ',' ∉ constant.name := by
  intro h
  exact absurd (constant.ident.all ',' h) (by decide)

/-- Outside of brackets a constant is read to its end, and its brackets are closed there. -/
theorem unsplit_text (constant : EnumConstant) (angles : Nat) (previous : Option Char) :
    Unsplit ',' ⟨0, angles, previous⟩ constant.text ∧ ∃ last,
      constant.text.foldl Nesting.after ⟨0, angles, previous⟩ =
        ⟨0, constant.anglesBehind angles, last⟩ := by
  have hname : Unsplit ',' ⟨0, angles, previous⟩ constant.name :=
    unsplit_of_not_mem constant.comma_not_mem_name
  have hfold := foldl_after_ident constant.ident.all
  -- The character in front is forgotten, since a name is not empty.
  have hlast : constant.name.getLast?.or previous = constant.name.getLast?.or none := by
    obtain ⟨c, rest, hcons, -⟩ := constant.ident.exists_cons
    rw [hcons]
    cases rest <;> simp [List.getLast?_cons]
  have hsame : constant.text.foldl Nesting.after ⟨0, angles, previous⟩ =
      constant.text.foldl Nesting.after ⟨0, angles, none⟩ := by
    rw [text, List.foldl_append, List.foldl_append, hfold, hfold, hlast]
  have htrail : Unsplit ',' (constant.name.foldl Nesting.after ⟨0, angles, previous⟩)
      constant.trail ∧ (constant.trail.foldl Nesting.after
        (constant.name.foldl Nesting.after ⟨0, angles, previous⟩)).depth = 0 := by
    rw [hfold, trail]
    cases harguments : constant.arguments with
    | none => exact ⟨trivial, rfl⟩
    | some arguments =>
      obtain ⟨-, hfree, hparens, hbrackets⟩ := constant.argued arguments harguments
      have hopen : Nesting.after ⟨0, angles, constant.name.getLast?.or previous⟩ '(' =
          ⟨1, angles, some '('⟩ := rfl
      obtain ⟨hunsplit, hdepth⟩ : Unsplit ',' ⟨1, angles, some '('⟩ arguments ∧
          (arguments.foldl Nesting.after ⟨1, angles, some '('⟩).depth = 1 :=
        unsplit_of_balancedFrom hparens hbrackets (fun c hc => (hfree c hc).2) rfl
      show Unsplit ',' _ ('(' :: (arguments ++ [')'])) ∧ _
      rw [List.foldl_cons, hopen, List.foldl_append]
      refine ⟨⟨rfl, ?_⟩, ?_⟩
      · rw [hopen]
        refine hunsplit.append ⟨?_, trivial⟩
        simp [Nesting.splits]
      · rw [List.foldl_cons, List.foldl_nil, depth_after, hdepth]
        rfl
  refine ⟨hname.append htrail.1,
    (constant.text.foldl Nesting.after ⟨0, angles, previous⟩).previous, ?_⟩
  rw [anglesBehind, ← hsame, Nesting.mk.injEq]
  refine ⟨?_, rfl, rfl⟩
  rw [text, List.foldl_append]
  exact htrail.2

theorem splitTopLevelFrom_text (constant : EnumConstant) (angles : Nat) (previous : Option Char)
    (piece rest : List Char) : ∃ last,
      splitTopLevelFrom ',' ⟨0, angles, previous⟩ piece (constant.text ++ rest) =
        splitTopLevelFrom ',' ⟨0, constant.anglesBehind angles, last⟩
          (constant.text.reverse ++ piece) rest := by
  obtain ⟨hunsplit, last, hfold⟩ := constant.unsplit_text angles previous
  exact ⟨last, by rw [splitTopLevelFrom_of_unsplit hunsplit, hfold]⟩

/-- A piece leads with the name of a constant. -/
def Leads (constant : EnumConstant) (piece : List Char) : Prop :=
  ∃ rest, piece = ' ' :: (constant.name ++ rest) ∧
    ∀ c, rest.head? = some c → isDollarChar c = false

theorem head?_trail (constant : EnumConstant) {c : Char} (h : constant.trail.head? = some c) :
    c = '(' := by
  unfold trail at h
  split at h
  · exact nomatch h
  · exact (Option.some.inj h).symm

end EnumConstant

/-- Constants as they follow other ones. -/
def following (constants : List EnumConstant) : List Char :=
  constants.flatMap fun constant => [',', ' '] ++ constant.text

/-- Behind a constant the split goes on with a piece for every constant that is kept. -/
theorem splitTopLevelFrom_following {gap : List Char} (hgap : ∀ c ∈ gap, Text.isBlank c = true)
    (constants : List EnumConstant) (first : EnumConstant) (rest : List Char)
    (hrest : ∀ c, rest.head? = some c → isDollarChar c = false) (angles : Nat)
    (previous : Option Char) :
    List.Forall₂ EnumConstant.Leads (first :: kept angles constants)
      (splitTopLevelFrom ',' ⟨0, angles, previous⟩ (' ' :: (first.name ++ rest)).reverse
        (following constants ++ gap)) := by
  induction constants generalizing first rest angles previous with
  | nil =>
    have hcomma : ',' ∉ gap := fun h => absurd (hgap ',' h) (by decide)
    have hunsplit : Unsplit ',' ⟨0, angles, previous⟩ gap := unsplit_of_not_mem hcomma
    have hsplit := splitTopLevelFrom_of_unsplit hunsplit (' ' :: (first.name ++ rest)).reverse []
    rw [List.append_nil] at hsplit
    rw [following, List.flatMap_nil, List.nil_append, hsplit, splitTopLevelFrom]
    refine .cons ⟨rest ++ gap, by simp, fun c hc => ?_⟩ .nil
    cases rest with
    | nil => exact isDollarChar_of_isBlank (hgap c (List.mem_of_head? hc))
    | cons d rest => exact hrest c hc
  | cons next constants ih =>
    have htrail : ∀ c, next.trail.head? = some c → isDollarChar c = false := by
      intro c hc
      rw [next.head?_trail hc]
      rfl
    have hcut : following (next :: constants) ++ gap =
        ',' :: ([' '] ++ (next.text ++ (following constants ++ gap))) := by
      simp [following]
    have hspace : ∀ nesting : Nesting, Unsplit ',' nesting [' '] := fun nesting =>
      unsplit_of_not_mem (by decide)
    rw [hcut, splitTopLevelFrom, kept]
    by_cases hangles : angles = 0
    · subst hangles
      obtain ⟨last, heq⟩ := next.splitTopLevelFrom_text 0 (some ' ') [' ']
        (following constants ++ gap)
      have hcomma : Nesting.splits ⟨0, 0, previous⟩ ',' ',' = true := by
        simp [Nesting.splits, Nesting.isTop, Nesting.isBracket]
      have hafter : Nesting.after (Nesting.after ⟨0, 0, previous⟩ ',') ' ' = ⟨0, 0, some ' '⟩ := by
        simp [Nesting.after, Nesting.isBracket]
      rw [if_pos hcomma, if_pos rfl, splitTopLevelFrom_of_unsplit (hspace _), List.foldl_cons,
        List.foldl_nil, hafter, List.reverse_reverse]
      refine .cons ⟨rest, rfl, hrest⟩ ?_
      have hnext := ih next next.trail htrail (next.anglesBehind 0) last
      rw [show (' ' :: (next.name ++ next.trail)).reverse = next.text.reverse ++ [' '] by
        simp [EnumConstant.text]] at hnext
      exact heq ▸ hnext
    · obtain ⟨last, heq⟩ := next.splitTopLevelFrom_text angles (some ' ')
        (' ' :: ',' :: (' ' :: (first.name ++ rest)).reverse) (following constants ++ gap)
      have hcomma : Nesting.splits ⟨0, angles, previous⟩ ',' ',' = false := by
        simp [Nesting.splits, Nesting.isTop, hangles]
      have hafter : Nesting.after (Nesting.after ⟨0, angles, previous⟩ ',') ' ' =
          ⟨0, angles, some ' '⟩ := by
        simp [Nesting.after, Nesting.isBracket]
      rw [if_neg hangles, if_neg (Bool.eq_false_iff.mp hcomma), splitTopLevelFrom_of_unsplit (hspace _),
        List.foldl_cons, List.foldl_nil, hafter]
      have hmore : ∀ c, (rest ++ [',', ' '] ++ next.text).head? = some c →
          isDollarChar c = false := by
        intro c hc
        cases rest with
        | nil => exact Option.some.inj hc ▸ rfl
        | cons d rest => exact hrest c hc
      have hnext := ih first (rest ++ [',', ' '] ++ next.text) hmore (next.anglesBehind angles) last
      rw [show (' ' :: (first.name ++ (rest ++ [',', ' '] ++ next.text))).reverse =
        next.text.reverse ++ ' ' :: ',' :: (' ' :: (first.name ++ rest)).reverse by simp] at hnext
      exact heq ▸ hnext

/-- The pieces of a list of constants are led by those that are kept. -/
theorem splitTopLevel_constants {gap : List Char} (hgap : ∀ c ∈ gap, Text.isBlank c = true)
    (first : EnumConstant) (constants : List EnumConstant) :
    List.Forall₂ EnumConstant.Leads (kept 0 (first :: constants))
      (splitTopLevel ',' (' ' :: (first.text ++ (following constants ++ gap)))) := by
  obtain ⟨last, heq⟩ := first.splitTopLevelFrom_text 0 (some ' ') [' '] (following constants ++ gap)
  have htrail : ∀ c, first.trail.head? = some c → isDollarChar c = false := by
    intro c hc
    rw [first.head?_trail hc]
    rfl
  have hpieces := splitTopLevelFrom_following hgap constants first first.trail htrail
    (first.anglesBehind 0) last
  rw [show (' ' :: (first.name ++ first.trail)).reverse = first.text.reverse ++ [' '] by
    simp [EnumConstant.text], ← heq] at hpieces
  rw [kept, if_pos rfl]
  exact hpieces

/-! ## Which constants are kept -/

theorem length_kept_le (angles : Nat) (constants : List EnumConstant) :
    (kept angles constants).length ≤ constants.length := by
  induction constants generalizing angles with
  | nil => exact Nat.le_refl 0
  | cons constant constants ih =>
    have hle := ih (constant.anglesBehind angles)
    rw [kept]
    split
    · exact Nat.succ_le_succ hle
    · exact Nat.le_succ_of_le hle

theorem kept_eq_iff (angles : Nat) (constants : List EnumConstant) :
    kept angles constants = constants ↔ ∀ before constant after,
      constants = before ++ constant :: after →
        before.foldl (fun angles constant => constant.anglesBehind angles) angles = 0 := by
  induction constants generalizing angles with
  | nil => exact ⟨fun _ before constant after h => by simp at h, fun _ => rfl⟩
  | cons constant constants ih =>
    rw [kept]
    by_cases hangles : angles = 0
    · rw [if_pos hangles, List.cons.injEq, and_iff_right rfl, ih]
      refine ⟨fun h before other after hsplit => ?_, fun h before other after hsplit => ?_⟩
      · cases before with
        | nil => exact hangles
        | cons d before =>
          obtain ⟨rfl, hrest⟩ := List.cons.inj hsplit
          exact h before other after hrest
      · exact h (constant :: before) other after (by rw [hsplit]; rfl)
    · rw [if_neg hangles]
      refine ⟨fun h => ?_, fun h => absurd (h [] constant constants rfl) hangles⟩
      have hle := length_kept_le (constant.anglesBehind angles) constants
      rw [h, List.length_cons] at hle
      omega

/-! ## The properties -/

/-- What a constant of an enum shows as. -/
structure EnumConstant.ShownAs (enumName : List Char) (constant : EnumConstant)
    (entry : PropertyEntry) : Prop where
  name : entry.name = String.ofList constant.name
  type : entry.type = String.ofList enumName
  visibility : entry.visibility = .publicMember
  isStatic : entry.isStatic = true

/-- Properties for some constants in the order of their lines. -/
structure ShowAll (enumName : List Char) (constants : List EnumConstant)
    (entries : List PropertyEntry) : Prop where
  each : List.Forall₂ (EnumConstant.ShownAs enumName) constants entries
  inOrder : entries.Pairwise fun a b => a.line ≤ b.line

section

variable {subject : Subject}

/-- The property that a piece of a list of constants gives. -/
def pieceProperty? (subject : Subject) (index : Nat) (enumName : List Char)
    (entry : Nat × List Char) : Option Finding :=
  ((leadingName.find? entry.2).bind (·.part? .name)).map fun name => .property index {
    name := String.ofList name.text
    type := String.ofList enumName
    visibility := .publicMember
    isStatic := true
    line := subject.lineOf (entry.1 + name.start)
    defaultValue := none }

theorem enumConstants_eq (subject : Subject) (index opening : Nat) (enumName : List Char) :
    enumConstants subject index opening enumName =
      (subject.source.maskedPart (opening + 1) (Statement.endAt subject.masked (opening + 1)) >>=
        fun list => .ok ((piecesWithOffsets (opening + 1) (splitTopLevel ',' list)).filterMap
          (pieceProperty? subject index enumName))) := rfl

/-- Each piece gives the property of the constant that it leads with. -/
theorem properties_of_leads {constants : List EnumConstant} {pieces : List (List Char)}
    (h : List.Forall₂ EnumConstant.Leads constants pieces) (index offset : Nat)
    (enumName : List Char) : ∃ entries,
      (piecesWithOffsets offset pieces).filterMap (pieceProperty? subject index enumName) =
        entries.map (.property index) ∧
      ShowAll enumName constants entries ∧ ∀ entry ∈ entries, subject.lineOf offset ≤ entry.line := by
  induction h generalizing offset with
  | nil => exact ⟨[], rfl, ⟨.nil, .nil⟩, by simp⟩
  | @cons constant piece constants pieces hlead _ ih =>
    obtain ⟨rest, rfl, hrest⟩ := hlead
    obtain ⟨entries, heq, ⟨heach, horder⟩, hlines⟩ :=
      ih (offset + Text.width (' ' :: (constant.name ++ rest)) + 1)
    have hmono : ∀ {a b : Nat}, a ≤ b → subject.lineOf a ≤ subject.lineOf b :=
      fun hab => subject.source.index.lineOf_mono hab
    let entry : PropertyEntry := ⟨String.ofList constant.name, String.ofList enumName,
      .publicMember, true, subject.lineOf (offset + 1), none⟩
    have hentry : pieceProperty? subject index enumName
        (offset, ' ' :: (constant.name ++ rest)) = some (.property index entry) := by
      rw [pieceProperty?, find?_leadingName constant.ident hrest]
      rfl
    have hlater : ∀ other ∈ entries, entry.line ≤ other.line := by
      intro other ho
      refine Nat.le_trans (hmono ?_) (hlines other ho)
      rw [Text.width_cons]
      omega
    refine ⟨entry :: entries, ?_, ⟨.cons ⟨rfl, rfl, rfl, rfl⟩ heach,
      List.pairwise_cons.mpr ⟨hlater, horder⟩⟩, fun other ho => ?_⟩
    · rw [piecesWithOffsets, List.filterMap_cons, hentry, heq]
      rfl
    · have hfirst : subject.lineOf offset ≤ entry.line := hmono (Nat.le_succ offset)
      rcases List.mem_cons.mp ho with rfl | ho
      · exact hfirst
      · exact Nat.le_trans hfirst (hlater other ho)

theorem isInert_of_not_mem {c : Char} {test : Char → Bool} {value : Bool} (h : test c = value)
    (hall : ∀ c ∈ [';', '\x7d', '(', '\x7b', '['], test c = !value) :
    Statement.isInert c = true := by
  rw [Statement.isInert, Bool.not_eq_true', List.contains_eq_mem, decide_eq_false_iff_not]
  intro hmem
  rw [hall c hmem] at h
  exact absurd h (by cases value <;> decide)

theorem goesOver_text (constant : EnumConstant) {rest : List Char}
    (h : Text.isBare (constant.text ++ rest) = true) :
    Statement.GoesOver constant.text rest := by
  have hinert : ∀ c, isIdentChar c = true → Statement.isInert c = true :=
    fun c hc => isInert_of_not_mem hc (by decide)
  refine .append (Statement.goesOver_of_inert _ fun c hc => hinert c (constant.ident.all c hc)) ?_
  rw [EnumConstant.text, List.append_assoc] at h
  have htrail := Text.isBare_of_append h
  unfold EnumConstant.trail at htrail ⊢
  split
  · exact .nil rest
  · next arguments harguments =>
    rw [harguments, List.cons_append, List.append_assoc, List.singleton_append] at htrail
    exact Statement.goesOver_group (constant.argued arguments harguments).parens htrail

theorem goesOver_following (constants : List EnumConstant) {rest : List Char}
    (h : Text.isBare (following constants ++ rest) = true) :
    Statement.GoesOver (following constants) rest := by
  induction constants with
  | nil => exact .nil rest
  | cons constant constants ih =>
    have hsplit : following (constant :: constants) =
        [',', ' '] ++ (constant.text ++ following constants) := by simp [following]
    rw [hsplit, List.append_assoc, List.append_assoc] at h
    have hrest := Text.isBare_of_append h
    rw [hsplit]
    refine .append (Statement.goesOver_of_inert _ (by decide)) (.append ?_ ?_)
    · exact goesOver_text constant hrest
    · exact ih (Text.isBare_of_append hrest)

/-- The constants of an enum that are found are those that are kept. -/
theorem enumConstants_kept {before gap after : List Char} {first : EnumConstant}
    {constants : List EnumConstant} (hgap : ∀ c ∈ gap, Text.isBlank c = true)
    (hm : subject.masked =
      before ++ ([' '] ++ (first.text ++ (following constants ++ gap)) ++ ';' :: after))
    (hbare : Text.isBare subject.masked = true) {opening : Nat}
    (ho : opening + 1 = Text.width before) (index : Nat) (enumName : List Char) :
    Yields (enumConstants subject index opening enumName) fun findings => ∃ entries,
      findings = entries.map (.property index) ∧
        ShowAll enumName (kept 0 (first :: constants)) entries := by
  have hinert : ∀ c ∈ gap, Statement.isInert c = true :=
    fun c hc => isInert_of_not_mem (hgap c hc) (by decide)
  have hlist : Statement.GoesOver ([' '] ++ (first.text ++ (following constants ++ gap)))
      (';' :: after) := by
    rw [hm, List.append_assoc, List.append_assoc, List.append_assoc] at hbare
    have hrest := Text.isBare_of_append (Text.isBare_of_append hbare)
    have hmore := Text.isBare_of_append hrest
    refine .append (Statement.goesOver_of_inert _ (by decide)) (.append ?_ (.append ?_ ?_))
    · rw [List.append_assoc]
      exact goesOver_text first hrest
    · exact goesOver_following constants hmore
    · exact Statement.goesOver_of_inert _ hinert
  have hend : Statement.endAt subject.masked (opening + 1) =
      Text.width (before ++ ([' '] ++ (first.text ++ (following constants ++ gap)))) := by
    rw [hm, ho]
    exact Statement.endAt_of_goesOver hlist
  have hslice : Text.slice? subject.masked (opening + 1)
      (Statement.endAt subject.masked (opening + 1)) =
        some ([' '] ++ (first.text ++ (following constants ++ gap))) := by
    refine Text.slice?_eq_some_iff.mpr ⟨before, ';' :: after, ?_, ho.symm, hend.symm⟩
    rw [hm, ← List.append_assoc before]
  obtain ⟨entries, hentries, hshow, -⟩ := @properties_of_leads subject _ _
    (splitTopLevel_constants hgap first constants) index (opening + 1) enumName
  rw [enumConstants_eq, SourceText.maskedPart, SourceText.part,
    show subject.source.masked = subject.masked from rfl, hslice]
  exact .ok ⟨entries, hentries, hshow⟩

end

end Java
end Outline
