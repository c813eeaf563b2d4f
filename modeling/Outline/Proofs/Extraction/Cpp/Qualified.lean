import Outline.Extraction.Cpp.Rule
import Outline.Proofs.Declaration.NamePattern
import Outline.Proofs.Pattern.Choice
import Outline.Proofs.Pattern.Replaced

/-!
# Qualified names

A name is qualified by scopes, each of them a word that may have template arguments, and the
arguments nest.  Splitting such a name takes the arguments away in one sweep that only knows
groups without other groups inside.  So the scopes come out as they are written, without
arguments, exactly where no arguments nest; and since the sweep goes over the whole name, the
one operator that looks like a group is lost with them.
-/

namespace Outline

namespace Text

/-! ## Words behind one another -/

/-- Blanks are reduced piece by piece where a piece ends inside of a word. -/
theorem squeeze_append_cons (gap : Gap) (text : List Char) {c : Char} (hc : isBlank c = false)
    (rest : List Char) :
    squeeze gap (text ++ c :: rest) = squeeze gap (text ++ [c]) ++ squeeze .none rest := by
  induction text generalizing gap with
  | nil => simp [squeeze, hc]
  | cons d text ih =>
    rw [List.cons_append, List.cons_append, squeeze, squeeze]
    split
    · exact ih gap.blank
    · rw [ih .none, List.append_assoc, List.cons_append]

theorem squeeze_none_of_word {word : List Char} (h : ∀ c ∈ word, isBlank c = false) :
    squeeze .none word = word := by
  induction word with
  | nil => rfl
  | cons c word ih =>
    rw [squeeze, if_neg (by simp [h c List.mem_cons_self]),
      ih fun d hd => h d (List.mem_cons_of_mem c hd)]
    rfl

/-- Blanks are reduced alike at the start of a text and inside of a word where a word follows. -/
theorem squeeze_start_eq {text : List Char}
    (h : (squeeze .none text).head?.any (!isBlank ·) = true) :
    squeeze .start text = squeeze .none text := by
  cases text with
  | nil => rfl
  | cons c text =>
    by_cases hc : isBlank c = true
    · rw [squeeze, if_pos hc, show Gap.blank .none = .owed from rfl, squeeze_owed] at h
      split at h <;> cases h
    · rw [squeeze, squeeze, if_neg hc, if_neg hc]
      rfl

theorem head?_squeeze_start {text : List Char} {c : Char}
    (h : (squeeze .start text).head? = some c) : isBlank c = false := by
  induction text with
  | nil => cases h
  | cons d text ih =>
    rw [squeeze] at h
    split at h
    · exact ih h
    · next hd =>
      obtain rfl : d = c := Option.some.inj h
      exact Bool.eq_false_iff.mpr hd

/-- Reducing blanks keeps all other characters. -/
theorem filter_squeeze (gap : Gap) (text : List Char) :
    (squeeze gap text).filter (· != ' ') = text.filter (!isBlank ·) := by
  induction text generalizing gap with
  | nil => rfl
  | cons c text ih =>
    rw [squeeze]
    by_cases hc : isBlank c = true
    · rw [if_pos hc, ih, List.filter_cons_of_neg (by simp [hc])]
    · have hspace : c ≠ ' ' := by
        rintro rfl
        exact hc rfl
      rw [if_neg hc, List.filter_append, List.filter_cons_of_pos (by simpa using hspace), ih,
        List.filter_cons_of_pos (by simpa using hc)]
      cases gap <;> rfl

/-- A text with a character that is no blank does not come to nothing. -/
theorem trim_cons_ne_nil {c : Char} (hc : isBlank c = false) (text : List Char) :
    trim (c :: text) ≠ [] := by
  rw [trim, trimStart, List.dropWhile_cons_of_neg (by simp [hc])]
  intro h
  obtain ⟨blanks, htext, hblanks, -⟩ := exists_eq_trimEnd_append (c :: text)
  rw [h, List.nil_append] at htext
  exact absurd (hblanks c (htext ▸ List.mem_cons_self)) (by simp [hc])

/-- A word is cut behind its last colons. -/
theorem cutLast?_colons {last : List Char} (h : ':' ∉ last) (front : List Char) :
    cutLast? [':', ':'] (front ++ ':' :: ':' :: last) = some (front, last) := by
  have hnone : ∀ text : List Char, ':' ∉ text → cutLast? [':', ':'] text = none := by
    intro text htext
    induction text with
    | nil => rfl
    | cons c text ih =>
      rw [cutLast?, ih (List.not_mem_of_not_mem_cons htext), dropLead?,
        if_neg (List.ne_of_not_mem_cons htext)]
      rfl
  induction front with
  | nil =>
    have hsingle : cutLast? [':', ':'] (':' :: last) = none := by
      rw [cutLast?, hnone last h]
      cases last with
      | nil => rfl
      | cons c last => simp [dropLead?, List.ne_of_not_mem_cons h]
    rw [List.nil_append, cutLast?, hsingle]
    rfl
  | cons c front ih => rw [List.cons_append, cutLast?, ih]

theorem cutLast?_of_notMem {c : Char} {text : List Char} (h : c ∉ text) (word : List Char) :
    cutLast? (c :: word) text = none := by
  induction text with
  | nil => rfl
  | cons d text ih =>
    rw [cutLast?, ih (List.not_mem_of_not_mem_cons h), dropLead?,
      if_neg (List.ne_of_not_mem_cons h)]
    rfl

end Text

namespace Cpp

/-! ## Names with arguments -/

/-- A text whose angle brackets are paired: other characters, and groups in angle brackets
that hold such texts again. -/
inductive Arguments
  | nil
  | char (c : Char) (other : c ≠ '<' ∧ c ≠ '>') (rest : Arguments)
  | group (inner rest : Arguments)

namespace Arguments

def text : Arguments → List Char
  | nil => []
  | char c _ rest => c :: rest.text
  | group inner rest => '<' :: (inner.text ++ '>' :: rest.text)

/-- Whether there are no groups. -/
def isFlat : Arguments → Bool
  | nil => true
  | char _ _ rest => rest.isFlat
  | group _ _ => false

/-- What is left when the groups go that hold no other groups. -/
def residue : Arguments → List Char
  | nil => []
  | char c _ rest => c :: rest.residue
  | group inner rest =>
    (if inner.isFlat then [] else '<' :: (inner.residue ++ ['>'])) ++ rest.residue

end Arguments

/-- A word: letters, digits and underscores. -/
structure IsWord (name : List Char) : Prop where
  ne_nil : name ≠ []
  isWordChar : ∀ c ∈ name, Text.isWordChar c = true

/-- A scope in front of a name: a word, and template arguments if it has some. -/
structure Component where
  name : List Char
  isWord : IsWord name
  arguments : Option Arguments

namespace Component

variable (component : Component)

def trail : Arguments :=
  match component.arguments with
  | none => .nil
  | some inner => .group inner .nil

def text : List Char := component.name ++ component.trail.text

/-- Whether its arguments have arguments. -/
def nests : Bool := component.arguments.any (!·.isFlat)

/-- What is left of it when one sweep has taken groups away and the blanks are dropped. -/
def left : List Char := component.name ++ component.trail.residue.filter (!Text.isBlank ·)

end Component

/-- The symbols and words behind `operator` that can be declared. -/
def operatorSymbols : List String :=
  ["+", "-", "*", "/", "%", "^", "&", "|", "~", "!", "=", "<", ">", "+=", "-=", "*=", "/=", "%=",
    "^=", "&=", "|=", "<<", ">>", "<<=", ">>=", "==", "!=", "<=", ">=", "<=>", "&&", "||", "++",
    "--", ",", "->*", "->", "()", "[]", "new", "delete", "new[]", "delete[]", "co_await"]

/-- The last part of a name: a word, a destructor, or an operator with or without a space in front
of its symbol. -/
inductive Member
  | plain (name : List Char) (isWord : IsWord name)
  | destructor (name : List Char) (isWord : IsWord name)
  | operator (spaced : Bool) (symbol : String) (known : symbol ∈ operatorSymbols)

namespace Member

def operatorText (spaced : Bool) (symbol : String) : List Char :=
  "operator".toList ++ (if spaced then [' '] else []) ++ symbol.toList

def text : Member → List Char
  | plain name _ => name
  | destructor name _ => '~' :: name
  | operator spaced symbol _ => operatorText spaced symbol

/-- Whether it is the operator whose symbol looks like template arguments. -/
def isSpaceship : Member → Bool
  | operator _ symbol _ => symbol == "<=>"
  | _ => false

/-- What splitting makes of it. -/
def left (member : Member) : List Char :=
  if member.isSpaceship then "operator".toList else member.text

end Member

/-- A name behind its scopes, with colons between them. -/
def qualifiedText (components : List Component) (member : Member) : List Char :=
  Text.join [':', ':'] (components.map Component.text ++ [member.text])

/-! ## One sweep over the arguments -/

theorem simple_templateArguments : templateArguments.simple = true := rfl

theorem consumes_templateArguments : templateArguments.consumes = true := rfl

/-- Groups are looked for at opening brackets only. -/
theorem templateArguments_avoids {c : Char} (h : c ≠ '<') : templateArguments.avoids c = true := by
  have hhead : templateArguments.avoids c = ((some '<' != some c) && true && true) := rfl
  simpa [hhead] using h.symm

namespace Arguments

theorem notMem_of_isFlat {args : Arguments} (h : args.isFlat = true) :
    ∀ c ∈ args.text, (!(c == '<' || c == '>')) = true := by
  induction args with
  | nil => exact nofun
  | char c other rest ih =>
    intro d hd
    rcases List.mem_cons.mp hd with rfl | hd
    · simpa using other
    · exact ih h d hd
  | group => cases h

/-- The first bracket of arguments with groups opens one. -/
theorem exists_of_not_isFlat {args : Arguments} (h : args.isFlat = false) :
    ∃ front rest, args.text = front ++ '<' :: rest ∧
      ∀ c ∈ front, (!(c == '<' || c == '>')) = true := by
  induction args with
  | nil => cases h
  | char c other rest ih =>
    obtain ⟨front, more, htext, hfront⟩ := ih h
    refine ⟨c :: front, more, by rw [text, htext, List.cons_append], fun d hd => ?_⟩
    rcases List.mem_cons.mp hd with rfl | hd
    · simpa using other
    · exact hfront d hd
  | group inner rest => exact ⟨[], _, rfl, nofun⟩

end Arguments

/-- A group without others inside is matched. -/
theorem exists_matchAt_group {inner : Arguments} (h : inner.isFlat = true) (rest : List Char) :
    ∃ found, templateArguments.matchAt ⟨none, 0, '<' :: (inner.text ++ '>' :: rest)⟩ = some found ∧
      found.stop = Text.width ('<' :: (inner.text ++ ['>'])) := by
  let start : Reach := .start ⟨none, 0, '<' :: (inner.text ++ '>' :: rest)⟩
  let opened := start.after ['<'] (inner.text ++ '>' :: rest)
  let passed := opened.after inner.text ('>' :: rest)
  have hopen : (Pattern.lit "<").Prefers start opened := Pattern.prefers_lit start rfl
  have hrun : (Pattern.run0 fun c => !(c == '<' || c == '>')).Prefers opened passed :=
    Pattern.prefers_run opened rfl (Arguments.notMem_of_isFlat h) fun c hc => by
      obtain rfl : '>' = c := Option.some.inj hc
      rfl
  have hclose : (Pattern.lit ">").Prefers passed (passed.after ['>'] rest) :=
    Pattern.prefers_lit passed rfl
  have hread : (⟨none, 0, '<' :: (inner.text ++ '>' :: rest)⟩ : Cursor).Reads
      ('<' :: (inner.text ++ ['>'])) (passed.after ['>'] rest).cursor := by
    refine ⟨by simp [Reach.after], ?_⟩
    simp [passed, opened, start, Reach.after, Reach.start, Reach.offset, Text.width_append,
      Nat.add_assoc]
  obtain ⟨found, hfound, -, hstop, -⟩ := ((hopen.seq hrun).seq hclose).exists_match hread 0
  exact ⟨found, hfound, by rw [hstop, Nat.zero_add]⟩

/-- The bracket around another group is not. -/
theorem matchAt_of_not_isFlat {inner : Arguments} (h : inner.isFlat = false) (rest : List Char) :
    templateArguments.matchAt ⟨none, 0, '<' :: (inner.text ++ '>' :: rest)⟩ = none := by
  cases hm : templateArguments.matchAt ⟨none, 0, '<' :: (inner.text ++ '>' :: rest)⟩ with
  | none => rfl
  | some found =>
    obtain ⟨_, _, ⟨_, hopen, w, hrun, hall⟩, hclose⟩ :=
      Pattern.starts_of_matchAt simple_templateArguments hm
    obtain ⟨front, more, htext, hfront⟩ := Arguments.exists_of_not_isFlat h
    obtain rfl := (List.cons.inj hopen).2
    rw [hclose, htext, List.append_assoc, List.cons_append] at hrun
    obtain ⟨-, heq⟩ := Text.run_unique hrun hfront hall
      (fun c hc => by obtain rfl : '<' = c := Option.some.inj hc; rfl)
      (fun c hc => by obtain rfl : '>' = c := Option.some.inj hc; rfl)
    exact absurd (List.cons.inj heq).1 (by decide)

/-- One sweep takes the groups away that hold no others. -/
theorem replaceAll_arguments (args : Arguments) (rest : List Char) :
    templateArguments.replaceAll [] (args.text ++ rest) =
      args.residue ++ templateArguments.replaceAll [] rest := by
  have hstays : ∀ {c : Char}, c ≠ '<' → ∀ rest, templateArguments.replaceAll [] (c :: rest) =
      c :: templateArguments.replaceAll [] rest := fun hc rest =>
    Pattern.replaceAll_append_of_avoids simple_templateArguments consumes_templateArguments []
      (fun d hd => List.mem_singleton.mp hd ▸ templateArguments_avoids hc) rest
  induction args generalizing rest with
  | nil => rfl
  | char c other more ih =>
    rw [Arguments.text, List.cons_append, hstays other.1, ih, Arguments.residue, List.cons_append]
  | group inner more ihinner ihmore =>
    have htext : (Arguments.group inner more).text ++ rest =
        '<' :: (inner.text ++ '>' :: (more.text ++ rest)) := by simp [Arguments.text]
    rw [htext, Arguments.residue]
    cases hflat : inner.isFlat with
    | true =>
      obtain ⟨found, hfound, hstop⟩ := exists_matchAt_group hflat (more.text ++ rest)
      have hcut : '<' :: (inner.text ++ '>' :: (more.text ++ rest)) =
          '<' :: (inner.text ++ ['>']) ++ (more.text ++ rest) := by simp
      rw [hcut] at hfound ⊢
      rw [Pattern.replaceAll_append_of_matchAt simple_templateArguments consumes_templateArguments
        [] (List.cons_ne_nil _ _) hfound hstop, ihmore]
      rfl
    | false =>
      rw [Pattern.replaceAll_cons_of_none simple_templateArguments consumes_templateArguments []
        (matchAt_of_not_isFlat hflat (more.text ++ rest)), ihinner, hstays (by decide), ihmore]
      simp

/-! ## The parts of a name -/

theorem IsWord.isBlank {name : List Char} (h : IsWord name) :
    ∀ c ∈ name, Text.isBlank c = false := by
  intro c hc
  rw [Bool.eq_false_iff]
  intro hblank
  have hword := Text.isWordChar_eq_false_of_isBlank hblank
  rw [h.isWordChar c hc] at hword
  cases hword

theorem IsWord.notMem {name : List Char} (h : IsWord name) {c : Char}
    (hc : Text.isWordChar c = false) : c ∉ name := by
  intro hmem
  rw [h.isWordChar c hmem] at hc
  cases hc

theorem IsWord.replaceAll {name : List Char} (h : IsWord name) (rest : List Char) :
    templateArguments.replaceAll [] (name ++ rest) =
      name ++ templateArguments.replaceAll [] rest :=
  Pattern.replaceAll_append_of_avoids simple_templateArguments consumes_templateArguments []
    (fun c hc => templateArguments_avoids fun heq => h.notMem (by decide) (heq ▸ hc)) rest

namespace Component

variable (component : Component)

/-- What the sweep leaves of a scope. -/
def swept : List Char := component.name ++ component.trail.residue

theorem replaceAll (rest : List Char) :
    templateArguments.replaceAll [] (component.text ++ rest) =
      component.swept ++ templateArguments.replaceAll [] rest := by
  rw [text, List.append_assoc, component.isWord.replaceAll, replaceAll_arguments, swept,
    List.append_assoc]

theorem filter_swept : component.swept.filter (!Text.isBlank ·) = component.left := by
  rw [swept, List.filter_append, left]
  refine congrArg (· ++ _) (List.filter_eq_self.mpr fun c hc => ?_)
  rw [component.isWord.isBlank c hc]
  rfl

/-- Arguments inside of arguments are what is left. -/
theorem residue_trail : component.trail.residue = [] ∧ component.nests = false ∨
    (∃ inner, component.trail.residue = '<' :: (inner ++ ['>'])) ∧ component.nests = true := by
  rw [trail, nests]
  cases component.arguments with
  | none => exact .inl ⟨rfl, rfl⟩
  | some args =>
    cases hflat : args.isFlat with
    | true => exact .inl ⟨by simp [Arguments.residue, hflat], by simp [hflat]⟩
    | false => exact .inr ⟨⟨args.residue, by simp [Arguments.residue, hflat]⟩, by simp [hflat]⟩

/-- It ends with a letter of its name or with a bracket. -/
theorem exists_swept : ∃ lead last, component.swept = lead ++ [last] ∧
    Text.isBlank last = false := by
  rw [swept]
  rcases component.residue_trail with ⟨hnil, -⟩ | ⟨⟨inner, hinner⟩, -⟩
  · rcases List.eq_nil_or_concat component.name with hname | ⟨lead, last, hname⟩
    · exact absurd hname component.isWord.ne_nil
    · rw [List.concat_eq_append] at hname
      refine ⟨lead, last, by rw [hnil, List.append_nil, hname], ?_⟩
      exact component.isWord.isBlank last (by rw [hname]; simp)
  · exact ⟨component.name ++ '<' :: inner, '>', by rw [hinner]; simp, rfl⟩

/-- Blanks behind a scope are reduced apart from those in it. -/
theorem squeeze_swept (gap : Text.Gap) (rest : List Char) :
    Text.squeeze gap (component.swept ++ ':' :: ':' :: rest) =
      Text.squeeze gap component.swept ++ ':' :: ':' :: Text.squeeze .none rest := by
  obtain ⟨lead, last, hswept, hlast⟩ := component.exists_swept
  rw [hswept, List.append_assoc, List.singleton_append, Text.squeeze_append_cons gap lead hlast]
  rfl

end Component

namespace Member

/-- The sweep and the reduction of blanks make of an operator what splitting makes of it. -/
theorem squeeze_operator : ∀ spaced : Bool, ∀ symbol ∈ operatorSymbols,
    Text.squeeze .none (templateArguments.replaceAll [] (operatorText spaced symbol)) =
      if symbol == "<=>" then "operator".toList else operatorText spaced symbol := by
  decide +kernel

theorem replaceAll_of_word {name : List Char} (h : IsWord name) :
    templateArguments.replaceAll [] name = name := by
  have hreplace := h.replaceAll []
  rwa [List.append_nil, show templateArguments.replaceAll [] [] = [] from rfl,
    List.append_nil] at hreplace

theorem blank_notMem_destructor {name : List Char} (h : IsWord name) :
    ∀ c ∈ '~' :: name, Text.isBlank c = false := by
  intro c hc
  rcases List.mem_cons.mp hc with rfl | hc
  · rfl
  · exact h.isBlank c hc

variable (member : Member)

theorem squeeze_swept :
    Text.squeeze .none (templateArguments.replaceAll [] member.text) = member.left := by
  cases member with
  | plain name h =>
    rw [text, replaceAll_of_word h, Text.squeeze_none_of_word h.isBlank]
    rfl
  | destructor name h =>
    have hmark : ∀ c ∈ ['~'], templateArguments.avoids c = true := by decide
    have hreplace := Pattern.replaceAll_append_of_avoids simple_templateArguments
      consumes_templateArguments [] hmark name
    rw [List.singleton_append, List.singleton_append, replaceAll_of_word h] at hreplace
    rw [text, hreplace, Text.squeeze_none_of_word (blank_notMem_destructor h)]
    rfl
  | operator spaced symbol known => exact squeeze_operator spaced symbol known

/-- The last part of a name has no colon, and no blank at its ends. -/
structure IsLast (last : List Char) : Prop where
  colon : ':' ∉ last
  head : last.head?.any (!Text.isBlank ·) = true
  last : last.getLast?.any (!Text.isBlank ·) = true

instance (last : List Char) : Decidable (IsLast last) :=
  decidable_of_iff (':' ∉ last ∧ last.head?.any (!Text.isBlank ·) = true ∧
    last.getLast?.any (!Text.isBlank ·) = true)
    ⟨fun ⟨hcolon, hhead, hlast⟩ => ⟨hcolon, hhead, hlast⟩, fun h => ⟨h.colon, h.head, h.last⟩⟩

theorem isLast_of_not_isBlank {last : List Char} (hne : last ≠ []) (hcolon : ':' ∉ last)
    (h : ∀ c ∈ last, Text.isBlank c = false) : IsLast last := by
  refine ⟨hcolon, ?_, ?_⟩
  · obtain ⟨c, rest, rfl⟩ := List.exists_cons_of_ne_nil hne
    simp [h c List.mem_cons_self]
  · rw [List.getLast?_eq_some_getLast hne, Option.any_some, h _ (List.getLast_mem hne)]
    rfl

theorem isLast_operator : ∀ spaced : Bool, ∀ symbol ∈ operatorSymbols,
    IsLast (operatorText spaced symbol) := by
  decide +kernel

theorem isLast_text : IsLast member.text := by
  cases member with
  | plain name h => exact isLast_of_not_isBlank h.ne_nil (h.notMem (by decide)) h.isBlank
  | destructor name h =>
    refine isLast_of_not_isBlank (List.cons_ne_nil _ _) (fun hmem => ?_) (blank_notMem_destructor h)
    rcases List.mem_cons.mp hmem with heq | hmem
    · cases heq
    · exact h.notMem (by decide) hmem
  | operator spaced symbol known => exact isLast_operator spaced symbol known

theorem isLast_left : IsLast member.left := by
  rw [left]
  split
  · decide
  · exact member.isLast_text

theorem IsLast.exists_cons {last : List Char} (h : IsLast last) :
    ∃ c rest, last = c :: rest ∧ Text.isBlank c = false := by
  obtain ⟨c, hc, hblank⟩ := (Option.any_eq_true _ _).mp h.head
  obtain ⟨rest, rfl⟩ := List.head?_eq_some_iff.mp hc
  exact ⟨c, rest, rfl, by simpa using hblank⟩

theorem IsLast.trim {last : List Char} (h : IsLast last) : Text.trim last = last := by
  obtain ⟨c, rest, rfl, hc⟩ := h.exists_cons
  have hend := @Text.trimEnd_append_blanks (c :: rest) [] nofun fun d hd => by
    have hlast := h.last
    rw [hd, Option.any_some] at hlast
    simpa using hlast
  rw [List.append_nil] at hend
  rw [Text.trim, Text.trimStart, List.dropWhile_cons_of_neg (by simp [hc]), hend]

/-- Only the operator that looks like template arguments is changed. -/
theorem left_eq_text : member.left = member.text ↔ member.isSpaceship = false := by
  rw [left]
  constructor
  · intro heq
    rw [Bool.eq_false_iff]
    intro hship
    rw [if_pos hship] at heq
    cases member with
    | plain | destructor => cases hship
    | operator spaced symbol known =>
      obtain rfl : symbol = "<=>" := by simpa [isSpaceship] using hship
      have hne : ∀ spaced, "operator".toList ≠ operatorText spaced "<=>" := by decide
      exact absurd heq (hne spaced)
  · intro hship
    rw [if_neg (by simp [hship])]

end Member

/-! ## The whole name -/

/-- The scopes of a name, each spelled in one way. -/
def scopesOf (spell : Component → List Char) (components : List Component) :
    Option (List Char) :=
  if components = [] then none else some (Text.join [':', ':'] (components.map spell))

theorem qualifiedText_nil (member : Member) : qualifiedText [] member = member.text := by
  simp [qualifiedText, Text.join]

theorem qualifiedText_cons (component : Component) (components : List Component)
    (member : Member) : qualifiedText (component :: components) member =
      component.text ++ ':' :: ':' :: qualifiedText components member := by
  have hjoin : ∀ (first : List Char) {others : List (List Char)}, others ≠ [] →
      Text.join [':', ':'] (first :: others) =
        first ++ ':' :: ':' :: Text.join [':', ':'] others := by
    intro first others hne
    obtain ⟨second, others, rfl⟩ := List.exists_cons_of_ne_nil hne
    simp [Text.join, List.intercalate_cons_cons]
  exact hjoin component.text (by simp)

/-- The scopes of a name without its innermost arguments, with blanks reduced, and the text
behind the last colons. -/
theorem exists_squeeze_swept (gap : Text.Gap) (component : Component)
    (components : List Component) (member : Member) :
    ∃ scopes, Text.squeeze gap
        (templateArguments.replaceAll [] (qualifiedText (component :: components) member)) =
          scopes ++ ':' :: ':' :: member.left ∧
      scopes.filter (· != ' ') =
        Text.join [':', ':'] ((component :: components).map Component.left) := by
  have hcolon : ∀ c ∈ [':', ':'], templateArguments.avoids c = true := by decide
  have hcolons : ∀ rest, templateArguments.replaceAll [] (':' :: ':' :: rest) =
      ':' :: ':' :: templateArguments.replaceAll [] rest := fun rest =>
    Pattern.replaceAll_append_of_avoids simple_templateArguments consumes_templateArguments []
      hcolon rest
  induction components generalizing gap component with
  | nil =>
    rw [qualifiedText_cons, qualifiedText_nil, component.replaceAll, hcolons,
      component.squeeze_swept, member.squeeze_swept]
    refine ⟨_, rfl, ?_⟩
    rw [Text.filter_squeeze, component.filter_swept]
    simp [Text.join]
  | cons next components ih =>
    obtain ⟨scopes, hscopes, hfilter⟩ := ih .none next
    rw [qualifiedText_cons, component.replaceAll, hcolons, component.squeeze_swept, hscopes]
    refine ⟨Text.squeeze gap component.swept ++ ':' :: ':' :: scopes, by simp, ?_⟩
    rw [List.filter_append, Text.filter_squeeze, component.filter_swept,
      List.filter_cons_of_pos rfl, List.filter_cons_of_pos rfl, hfilter]
    simp [Text.join, List.intercalate_cons_cons]

/-- Splitting a qualified name takes its innermost template arguments away. -/
theorem splitQualified_eq (components : List Component) (member : Member) :
    splitQualified (qualifiedText components member) =
      (scopesOf Component.left components, member.left) := by
  have hcompact : ∀ text, Text.join [' '] (Text.words text) = Text.squeeze .start text :=
    Text.normalizeSpace_eq_squeeze
  have hlast := member.isLast_left
  rw [splitQualified, hcompact]
  cases components with
  | nil =>
    have hlead : Text.dropLead? [':', ':'] member.left = none := by
      obtain ⟨c, rest, hleft, -⟩ := hlast.exists_cons
      have hcolon := hlast.colon
      rw [hleft] at hcolon ⊢
      rw [Text.dropLead?, if_neg (List.ne_of_not_mem_cons hcolon)]
    have hleads : Text.dropLeads [':', ':'] member.left.length member.left = member.left := by
      cases member.left.length with
      | zero => rfl
      | succ n => rw [Text.dropLeads, hlead]
    have hstart := Text.squeeze_start_eq (member.squeeze_swept.symm ▸ hlast.head)
    rw [qualifiedText_nil, hstart, member.squeeze_swept, Text.cutLast?_of_notMem hlast.colon,
      hleads, hlast.trim]
    rfl
  | cons component components =>
    obtain ⟨scopes, hscopes, hfilter⟩ :=
      exists_squeeze_swept .start component components member
    obtain ⟨c, name, hname⟩ := List.exists_cons_of_ne_nil component.isWord.ne_nil
    -- The scopes begin with the first character of the first one.
    obtain ⟨d, rest, rfl⟩ : ∃ d rest, scopes = d :: rest := by
      refine List.exists_cons_of_ne_nil ?_
      rintro rfl
      cases components <;> simp [Component.left, hname, Text.join] at hfilter
    have hd : Text.isBlank d = false := Text.head?_squeeze_start (by rw [hscopes]; rfl)
    have hne : (Text.trim (d :: rest)).isEmpty = false :=
      List.isEmpty_eq_false_iff.mpr (Text.trim_cons_ne_nil hd rest)
    rw [hscopes, Text.cutLast?_colons hlast.colon]
    dsimp only
    rw [hne, if_neg Bool.false_ne_true, hfilter, hlast.trim, scopesOf,
      if_neg (List.cons_ne_nil _ _)]

/-! ## Where nothing of the arguments is left -/

theorem length_left (component : Component) : component.left.length =
    component.name.length + (component.trail.residue.filter (!Text.isBlank ·)).length :=
  List.length_append

theorem length_join_left (components : List Component) :
    (Text.join [':', ':'] (components.map Component.left)).length =
      (Text.join [':', ':'] (components.map Component.name)).length +
        (components.flatMap (·.trail.residue.filter (!Text.isBlank ·))).length := by
  induction components with
  | nil => rfl
  | cons component components ih =>
    have hleft := length_left component
    cases components with
    | nil => simpa [Text.join] using hleft
    | cons next components =>
      simp only [Text.join, List.map_cons, List.intercalate_cons_cons, List.length_append,
        List.flatMap_cons] at ih ⊢
      omega

theorem left_eq_name {component : Component} (h : component.nests = false) :
    component.left = component.name := by
  rcases component.residue_trail with ⟨hnil, -⟩ | ⟨-, hnests⟩
  · rw [Component.left, hnil, List.filter_nil, List.append_nil]
  · rw [h] at hnests
    cases hnests

/-- The scopes come out as their names where no arguments have arguments. -/
theorem scopesOf_left_eq_name {components : List Component} :
    scopesOf Component.left components = scopesOf Component.name components ↔
      ∀ component ∈ components, component.nests = false := by
  constructor
  · intro heq component hmem
    have hjoin : Text.join [':', ':'] (components.map Component.left) =
        Text.join [':', ':'] (components.map Component.name) := by
      have hne : components ≠ [] := List.ne_nil_of_mem hmem
      rwa [scopesOf, scopesOf, if_neg hne, if_neg hne, Option.some.injEq] at heq
    have hlength := length_join_left components
    rw [hjoin, Nat.left_eq_add, List.length_eq_zero_iff, List.flatMap_eq_nil_iff] at hlength
    have hzero := hlength component hmem
    rcases component.residue_trail with ⟨-, hnests⟩ | ⟨⟨inner, hinner⟩, -⟩
    · exact hnests
    · rw [hinner, List.filter_cons_of_pos rfl] at hzero
      cases hzero
  · intro hall
    have hmap : components.map Component.left = components.map Component.name :=
      List.map_congr_left fun component hmem => left_eq_name (hall component hmem)
    rw [scopesOf, scopesOf, hmap]

/-- A qualified name of any scopes and any last part is split into the scopes, each without its
innermost template arguments and without blanks, and the last part; the operator whose symbol
looks like template arguments loses it.  So the scopes are told by their names alone, and the
last part as it is written, exactly where no template arguments have arguments and the last part
is not that operator. -/
theorem splitQualified_qualifiedText (components : List Component) (member : Member) :
    splitQualified (qualifiedText components member) =
        (scopesOf Component.left components, member.left) ∧
      (splitQualified (qualifiedText components member) =
          (scopesOf Component.name components, member.text) ↔
        (∀ component ∈ components, component.nests = false) ∧ member.isSpaceship = false) := by
  refine ⟨splitQualified_eq components member, ?_⟩
  rw [splitQualified_eq, Prod.mk.injEq, scopesOf_left_eq_name, Member.left_eq_text]

example : splitQualified "A<B<int>>::f".toList = (some "A<B>".toList, "f".toList) := by
  decide +kernel

end Cpp
end Outline
