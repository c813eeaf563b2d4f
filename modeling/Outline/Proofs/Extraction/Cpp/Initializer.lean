import Outline.Extraction.Cpp.Trailer
import Outline.Proofs.Declaration.NamePattern
import Outline.Proofs.Source.Balanced

/-!
# Initializer lists

A constructor may initialize its members in front of its body, with arguments in parentheses
or in braces.  A brace behind a name opens arguments and a brace behind arguments opens the
body, so however long the list is and whatever the arguments hold, the reading ends at the
brace of the body.
-/

namespace Outline
namespace Cpp

/-! ## Initializers -/

/-- The brackets around the arguments of an initializer. -/
inductive Bracket
  | round
  | brace
  deriving DecidableEq, Repr

namespace Bracket

def opening : Bracket → Char
  | round => '('
  | brace => '\x7b'

def closing : Bracket → Char
  | round => ')'
  | brace => '\x7d'

theorem closing?_opening (bracket : Bracket) :
    Delimiter.closing? bracket.opening = some bracket.closing := by
  cases bracket <;> rfl

theorem isBlank_closing (bracket : Bracket) : Text.isBlank bracket.closing = false := by
  cases bracket <;> rfl

/-- A brace behind arguments opens no further ones. -/
theorem opensInitializer_closing (bracket : Bracket) :
    opensInitializer (some bracket.closing) = false := by
  cases bracket <;> decide

end Bracket

/-- The characters that a name in an initializer list may not have. -/
def listMarks : List Char := [';', '\x7b', '\x7d', '(', ')']

/-- A name and the arguments it is initialized with, with spaces between them.  The name may be
qualified and have template arguments. -/
structure Initializer where
  name : List Char
  unmarked : ∀ c ∈ name, c ∉ listMarks
  last : name.getLast?.any (fun c => c.isAlphanum || c == '_' || c == '>') = true
  spaces : Nat
  bracket : Bracket
  arguments : List Char
  isBare : Text.isBare arguments = true
  balanced : Delimiter.balanced bracket.opening bracket.closing arguments = true

namespace Initializer

variable (initializer : Initializer)

/-- The arguments in their brackets. -/
def group : List Char :=
  initializer.bracket.opening :: (initializer.arguments ++ [initializer.bracket.closing])

/-- What stands in front of them. -/
def front : List Char := initializer.name ++ List.replicate initializer.spaces ' '

def text : List Char := initializer.front ++ initializer.group

end Initializer

/-- Initializers with commas between them. -/
def initializerList (initializers : List Initializer) : List Char :=
  Text.join [',', ' '] (initializers.map Initializer.text)

/-! ## Reading on -/

/-- The nearest character that is not blank, behind a text. -/
def seenBehind (previous : Option Char) (text : List Char) : Option Char :=
  text.foldl (fun seen c => if Text.isBlank c then seen else some c) previous

section

variable {previous : Option Char} {resume offset : Nat} {text rest : List Char}

theorem seenBehind_of_blanks (h : ∀ c ∈ text, Text.isBlank c = true) :
    seenBehind previous text = previous := by
  induction text with
  | nil => rfl
  | cons c text ih =>
    rw [seenBehind, List.foldl_cons, if_pos (h c List.mem_cons_self)]
    exact ih fun d hd => h d (List.mem_cons_of_mem c hd)

theorem seenBehind_concat {c : Char} (hc : Text.isBlank c = false) (text : List Char) :
    seenBehind previous (text ++ [c]) = some c := by
  rw [seenBehind, List.foldl_append, List.foldl_cons, List.foldl_nil, if_neg (by simp [hc])]

/-- What belongs to arguments is passed over. -/
theorem constructorBodyFrom_skip (h : offset + Text.width text ≤ resume) :
    constructorBodyFrom previous resume offset (text ++ rest) =
      constructorBodyFrom (seenBehind previous text) resume (offset + Text.width text) rest := by
  induction text generalizing previous offset with
  | nil => rfl
  | cons c text ih =>
    have hc : 0 < c.utf8Size := Char.utf8Size_pos c
    rw [Text.width_cons, ← Nat.add_assoc] at h ⊢
    rw [List.cons_append, constructorBodyFrom, if_pos (by omega), ih h]
    rfl

/-- A text without marks is read on over. -/
theorem constructorBodyFrom_unmarked (hle : resume ≤ offset) (h : ∀ c ∈ text, c ∉ listMarks) :
    constructorBodyFrom previous resume offset (text ++ rest) =
      constructorBodyFrom (seenBehind previous text) resume (offset + Text.width text) rest := by
  induction text generalizing previous offset with
  | nil => rfl
  | cons c text ih =>
    have hmarks := h c List.mem_cons_self
    simp only [listMarks, List.mem_cons, List.not_mem_nil, or_false, not_or] at hmarks
    obtain ⟨hsemi, hopen, hclose, hround, -⟩ := hmarks
    rw [Text.width_cons, ← Nat.add_assoc, List.cons_append, constructorBodyFrom,
      if_neg (by omega), if_neg fun hc => hc.elim hround fun hc => hopen hc.1, if_neg hopen,
      if_neg fun hc => hc.elim hsemi hclose,
      ih (by omega) fun d hd => h d (List.mem_cons_of_mem c hd)]
    rfl

end

/-- The brackets of arguments open and close them. -/
theorem Initializer.constructorBodyFrom_group (initializer : Initializer) {previous : Option Char}
    {resume offset : Nat} (hle : resume ≤ offset) (hprevious : opensInitializer previous = true)
    (rest : List Char) :
    constructorBodyFrom previous resume offset (initializer.group ++ rest) =
      constructorBodyFrom (some initializer.bracket.closing)
        (offset + Text.width initializer.group) (offset + Text.width initializer.group) rest := by
  obtain ⟨name, unmarked, last, spaces, bracket, args, bare, balanced⟩ := initializer
  show constructorBodyFrom previous resume offset
      (bracket.opening :: (args ++ [bracket.closing]) ++ rest) =
    constructorBodyFrom (some bracket.closing)
      (offset + Text.width (bracket.opening :: (args ++ [bracket.closing])))
      (offset + Text.width (bracket.opening :: (args ++ [bracket.closing]))) rest
  have hopening : bracket.opening = '(' ∨
      bracket.opening = '\x7b' ∧ opensInitializer previous = true := by
    cases bracket
    · exact .inl rfl
    · exact .inr ⟨rfl, hprevious⟩
  have hsize : bracket.opening.utf8Size = 1 ∧ bracket.closing.utf8Size = 1 := by
    cases bracket <;> exact ⟨rfl, rfl⟩
  have hbare : Text.isBare (bracket.opening :: (args ++ [bracket.closing])) = true := by
    have hinner : Text.isBare (args ++ [bracket.closing]) = true := by
      cases bracket <;> exact Text.isBare_append_cons bare rfl (by decide) (by decide)
    refine @Text.isBare_append_of_forall [bracket.opening] _ (fun c hc => ?_) hinner
    rw [List.mem_singleton.mp hc]
    cases bracket <;> decide
  have hclose := @Delimiter.closeOf?_of_balanced rest _ _ args bracket.closing?_opening balanced
    hbare offset
  have htext : bracket.opening :: (args ++ [bracket.closing]) ++ rest =
      bracket.opening :: (args ++ bracket.closing :: rest) := by simp
  have hwidth : offset + 1 + Text.width args + 1 =
      offset + bracket.opening.utf8Size + Text.width (args ++ [bracket.closing]) := by
    rw [Text.width_append, Text.width_cons, Text.width_nil, hsize.1, hsize.2]
    omega
  rw [htext, constructorBodyFrom, if_neg (by omega), if_pos hopening, hclose]
  dsimp only
  rw [hwidth, show args ++ bracket.closing :: rest = args ++ [bracket.closing] ++ rest by simp,
    constructorBodyFrom_skip (Nat.le_refl _), seenBehind_concat bracket.isBlank_closing,
    Text.width_cons, Nat.add_assoc]

/-- Behind what is in front of arguments, a brace opens them. -/
theorem Initializer.opensInitializer_front (initializer : Initializer) (previous : Option Char) :
    opensInitializer (seenBehind previous initializer.front) = true := by
  obtain ⟨c, hc, hlast⟩ := (Option.any_eq_true _ _).mp initializer.last
  obtain ⟨lead, hname⟩ := List.getLast?_eq_some_iff.mp hc
  have hblank : Text.isBlank c = false := by
    rw [Bool.or_eq_true] at hlast
    rcases hlast with hplain | hangle
    · rw [Bool.eq_false_iff]
      intro hblank
      have hword := Parameter.isWordChar_of_plain hplain
      rw [Text.isWordChar_eq_false_of_isBlank hblank] at hword
      cases hword
    · rw [beq_iff_eq.mp hangle]
      rfl
  have hspaces : ∀ d ∈ List.replicate initializer.spaces ' ', Text.isBlank d = true := by
    intro d hd
    rw [List.eq_of_mem_replicate hd]
    rfl
  have hseen : seenBehind previous initializer.front = some c := by
    rw [front, seenBehind, List.foldl_append, hname]
    show seenBehind (seenBehind previous (lead ++ [c])) _ = _
    rw [seenBehind_of_blanks hspaces, seenBehind_concat hblank]
  rw [hseen]
  exact hlast

/-- An initializer is read on over. -/
theorem Initializer.constructorBodyFrom_text (initializer : Initializer) (previous : Option Char)
    {resume offset : Nat} (hle : resume ≤ offset) (rest : List Char) :
    ∃ resume' ≤ offset + Text.width initializer.text,
      constructorBodyFrom previous resume offset (initializer.text ++ rest) =
        constructorBodyFrom (some initializer.bracket.closing) resume'
          (offset + Text.width initializer.text) rest := by
  have hfront : ∀ c ∈ initializer.front, c ∉ listMarks := by
    intro c hc
    rcases List.mem_append.mp hc with hc | hc
    · exact initializer.unmarked c hc
    · rw [List.eq_of_mem_replicate hc]
      decide
  rw [text, List.append_assoc, constructorBodyFrom_unmarked hle hfront,
    initializer.constructorBodyFrom_group (by omega) (initializer.opensInitializer_front previous),
    Text.width_append, ← Nat.add_assoc]
  exact ⟨_, Nat.le_refl _, rfl⟩

/-- So is a list of initializers, however long. -/
theorem constructorBodyFrom_initializerList (first : Initializer) (more : List Initializer)
    (previous : Option Char) {resume offset : Nat} (hle : resume ≤ offset) (rest : List Char) :
    ∃ bracket : Bracket, ∃ resume' ≤ offset + Text.width (initializerList (first :: more)),
      constructorBodyFrom previous resume offset (initializerList (first :: more) ++ rest) =
        constructorBodyFrom (some bracket.closing) resume'
          (offset + Text.width (initializerList (first :: more))) rest := by
  induction more generalizing first previous resume offset with
  | nil =>
    have hsingle : initializerList [first] = first.text := by simp [initializerList, Text.join]
    rw [hsingle]
    obtain ⟨resume', hle', hread⟩ := first.constructorBodyFrom_text previous hle rest
    exact ⟨first.bracket, resume', hle', hread⟩
  | cons next more ih =>
    have hcons : initializerList (first :: next :: more) =
        first.text ++ ([',', ' '] ++ initializerList (next :: more)) := by
      simp [initializerList, Text.join, List.intercalate_cons_cons]
    obtain ⟨resume₁, hle₁, hfirst⟩ := first.constructorBodyFrom_text previous hle
      ([',', ' '] ++ initializerList (next :: more) ++ rest)
    have hcomma := @constructorBodyFrom_unmarked (some first.bracket.closing) _ _ [',', ' ']
      (initializerList (next :: more) ++ rest) hle₁ (by decide)
    obtain ⟨bracket, resume₂, hle₂, hmore⟩ :=
      ih next (seenBehind (some first.bracket.closing) [',', ' '])
        (Nat.le_trans hle₁ (Nat.le_add_right _ (Text.width [',', ' '])))
    refine ⟨bracket, resume₂, ?_, ?_⟩
    · rw [hcons, Text.width_append, Text.width_append]
      omega
    · rw [hcons, List.append_assoc, hfirst, List.append_assoc, hcomma, hmore, Text.width_append,
        Text.width_append]
      simp only [Nat.add_assoc]

/-- Read from right behind the colon, an initializer list ends at the brace behind it, whatever
comes in front of the list and behind the brace: that brace opens the body of the constructor. -/
theorem constructorBody?_initializerList (first : Initializer) (more : List Initializer)
    (before rest : List Char) {blanks : List Char} (hb : ∀ c ∈ blanks, Text.isBlank c = true) :
    constructorBody?
        (before ++ (initializerList (first :: more) ++ (blanks ++ '\x7b' :: rest)))
        (Text.width before) =
      some (Text.width (before ++ initializerList (first :: more) ++ blanks)) := by
  have hblanks : ∀ c ∈ blanks, c ∉ listMarks := by
    intro c hc hmark
    have hblank : ∀ d ∈ listMarks, Text.isBlank d = false := by decide
    have hnone := hblank c hmark
    rw [hb c hc] at hnone
    cases hnone
  rw [constructorBody?, Text.suffixAt_width_append]
  obtain ⟨bracket, resume, hle, hlist⟩ := constructorBodyFrom_initializerList first more _
    (Nat.zero_le (Text.width before)) (blanks ++ '\x7b' :: rest)
  rw [hlist, constructorBodyFrom_unmarked hle hblanks, seenBehind_of_blanks hb,
    constructorBodyFrom, if_neg (by omega), if_neg, if_pos rfl, Text.width_append,
    Text.width_append]
  rintro (hround | ⟨-, hopens⟩)
  · cases hround
  · rw [bracket.opensInitializer_closing] at hopens
    cases hopens

/-- Arguments in parentheses that hold a brace, a semicolon and a call. -/
def roundInitializer : Initializer where
  name := "a".toList
  unmarked := by decide
  last := by decide
  spaces := 0
  bracket := .round
  arguments := "f(\x7b;)".toList
  isBare := by decide
  balanced := by decide

/-- Arguments in braces behind template arguments and a space. -/
def braceInitializer : Initializer where
  name := "B<T>".toList
  unmarked := by decide
  last := by decide
  spaces := 1
  bracket := .brace
  arguments := "\x7b1\x7d".toList
  isBare := by decide
  balanced := by decide

theorem constructorBody?_initializerList_braces :
    (∀ c ∈ ['\n'], Text.isBlank c = true) ∧
      constructorBody? ("A():".toList ++ (initializerList [roundInitializer, braceInitializer] ++
        (['\n'] ++ '\x7b' :: "\x7d".toList))) (Text.width "A():".toList) =
      some (Text.width ("A():".toList ++ initializerList [roundInitializer, braceInitializer] ++
        ['\n'])) :=
  ⟨by decide, constructorBody?_initializerList roundInitializer [braceInitializer] _ _ (by decide)⟩

end Cpp
end Outline
