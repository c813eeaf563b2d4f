import Outline.Proofs.Extraction.Cpp.TrailingMatch
import Outline.Proofs.Extraction.Cpp.TrailingText
import Outline.Proofs.Pattern.Choice

/-!
# Namespaces around a function

The text: the openings of any number of namespaces, each with or without a name, and a function
inside of all of them.  And what the patterns find in it.
-/

namespace Outline
namespace Cpp

/-- The opening of a namespace, with or without a name. -/
structure Opening where
  name? : Option (List Char)
  isName : ∀ name, name? = some name → Parameter.NameOf Pattern.isNameStart Text.isWordChar name

namespace Opening

/-! ## The text -/

section

variable (opening : Opening) (openings : List Opening)

def keyword : List Char := ['n', 'a', 'm', 'e', 's', 'p', 'a', 'c', 'e']

/-- What stands in front of the brace. -/
def head : List Char := keyword ++ (Text.spaced opening.name?.toList ++ [' '])

/-- The openings, each with a space behind its brace. -/
def opened : List Char := openings.flatMap fun opening => opening.head ++ ['\x7b', ' ']

/-- What closes as many namespaces. -/
def closed : List Char := openings.flatMap fun _ => [' ', '\x7d']

/-- The function up to its opening parenthesis. -/
def signature : List Char := ['v', 'o', 'i', 'd', ' ', 'f', '(']

/-- The function from there on, and what closes the namespaces. -/
def behind : List Char := [')', ' ', '\x7b', '\x7d'] ++ closed openings

/-- A function inside of namespaces. -/
def text : List Char := opened openings ++ (signature ++ behind openings)

/-- A namespace without a name inside of one that has one. -/
example :
    text [⟨some ['a'], fun _ h => Option.some.inj h ▸ ⟨⟨'a', rfl, by decide⟩, by decide +kernel⟩⟩,
      ⟨none, nofun⟩] = "namespace a \x7b namespace \x7b void f() \x7b\x7d \x7d \x7d".toList := by
  decide

theorem opened_cons :
    opened (opening :: openings) = opening.head ++ ['\x7b', ' '] ++ opened openings := rfl

theorem opened_append (others : List Opening) :
    opened (openings ++ others) = opened openings ++ opened others := List.flatMap_append

theorem isWord_name {name : List Char} (h : opening.name? = some name) : IsWord name := by
  obtain ⟨⟨c, hc, -⟩, hall⟩ := opening.isName name h
  exact ⟨List.ne_nil_of_mem (List.mem_of_head? hc), hall⟩

/-! ## Characters -/

/-- The characters of the text: those of words and a few marks. -/
def isInner (c : Char) : Bool := Text.isWordChar c || [' ', '(', ')', '\x7b', '\x7d'].contains c

theorem mem_head {c : Char} (h : c ∈ opening.head) : c = ' ' ∨ Text.isWordChar c = true := by
  have hword : ∀ c ∈ keyword, Text.isWordChar c = true := by decide +kernel
  rw [head, List.mem_append, List.mem_append, List.mem_singleton] at h
  rcases h with h | h | h
  · exact .inr (hword c h)
  · refine (Text.eq_space_or_mem_of_mem_spaced h).imp_right ?_
    rintro ⟨name, hname, hc⟩
    exact (opening.isWord_name (Option.mem_toList.mp hname)).isWordChar c hc
  · exact .inl h

theorem notMem_head {c : Char} (hspace : c ≠ ' ') (hword : Text.isWordChar c = false) :
    c ∉ opening.head := by
  intro hmem
  rcases opening.mem_head hmem with rfl | h
  · exact hspace rfl
  · rw [h] at hword
    cases hword

theorem mem_closed {c : Char} (h : c ∈ closed openings) : c = ' ' ∨ c = '\x7d' := by
  obtain ⟨-, -, h⟩ := List.mem_flatMap.mp h
  simpa using h

theorem isInner_opened : ∀ c ∈ opened openings, isInner c = true := by
  have hspace : isInner ' ' = true := by decide +kernel
  have hbrace : isInner '\x7b' = true := by decide +kernel
  intro c hc
  obtain ⟨opening, -, hc⟩ := List.mem_flatMap.mp hc
  rcases List.mem_append.mp hc with hc | hc
  · rcases opening.mem_head hc with rfl | hc
    · exact hspace
    · exact Bool.or_eq_true_iff.mpr (.inl hc)
  · simp only [List.mem_cons, List.not_mem_nil, or_false] at hc
    rcases hc with rfl | rfl
    · exact hbrace
    · exact hspace

theorem isInner_text : ∀ c ∈ text openings, isInner c = true := by
  have hfunction : ∀ c ∈ signature ++ [')', ' ', '\x7b', '\x7d'], isInner c = true := by
    decide +kernel
  have hmarks : isInner ' ' = true ∧ isInner '\x7d' = true := by decide +kernel
  intro c hc
  rw [text, behind, ← List.append_assoc signature, List.mem_append, List.mem_append] at hc
  rcases hc with hc | hc | hc
  · exact isInner_opened openings c hc
  · exact hfunction c hc
  · rcases mem_closed openings hc with rfl | rfl
    · exact hmarks.1
    · exact hmarks.2

theorem notMem_text {c : Char} (h : isInner c = false) : c ∉ text openings := by
  intro hmem
  rw [isInner_text openings c hmem] at h
  cases h

theorem views_text :
    Mask.stripped .cpp (text openings) = text openings ∧
      Mask.masked .cpp (text openings) = text openings :=
  views_of_plain fun c hc => by
    refine ⟨?_, ?_, ?_, ?_⟩ <;> (rintro rfl; exact notMem_text openings (by decide +kernel) hc)

/-- Behind some of the openings a word starts. -/
theorem exists_opened_eq (rest : List Char) : ∃ c more,
    opened openings ++ (signature ++ rest) = c :: more ∧ (c = 'n' ∨ c = 'v') := by
  cases openings with
  | nil => exact ⟨'v', _, rfl, .inr rfl⟩
  | cons opening openings => exact ⟨'n', _, rfl, .inl rfl⟩

end

end Opening
end Cpp
end Outline

/-!
## What the patterns find in nested namespaces

Each opening is found in its place, and the function behind the last of them, whatever the names
are.  No class is found, since no name stands behind a word for a kind of class.
-/

namespace Outline
namespace Cpp

open Pattern (Matches Misses)

namespace Opening

/-! ### The openings are found -/

/-- What is known of the match of an opening. -/
structure Shows (opening : Opening) (offset : Nat) (found : Match) : Prop where
  start : found.start = offset
  stop : found.stop = offset + Text.width opening.head + 1
  name : (found.part? .name).map (·.text) = opening.name?

section

variable {opening : Opening} {reach : Reach} {rest : List Char}

/-- Behind one space in front of a brace there is no name. -/
theorem ends_name_of_brace (hr : reach.cursor.rest = ' ' :: '\x7b' :: rest) :
    (Pattern.seq .blanks1 (.part .name path)).ends [reach] = [] := by
  refine List.eq_nil_iff_forall_not_mem.mpr fun stop hstop => ?_
  obtain ⟨r, hmem, ms, hm, -⟩ := Pattern.extends_of_mem_ends hstop
  rw [List.mem_singleton.mp hmem] at hm
  obtain ⟨behind, _, _, hblanks, hname, -⟩ := hm.of_seq
  have hspace := reads_space hblanks hr fun x hx => Option.some.inj hx ▸ rfl
  obtain ⟨a, ha, havoids⟩ := hname.exists_head rfl
  have hbehind : '\x7b' :: rest = behind.rest := (List.cons.inj (hr.symm.trans hspace.1)).2
  rw [← hbehind] at ha
  exact havoids '\x7b' (by decide) (Option.some.inj ha).symm

/-- Behind one space the name is read up to the next one. -/
theorem prefers_named {name : List Char}
    (hname : Parameter.NameOf Pattern.isNameStart Text.isWordChar name)
    (hr : reach.cursor.rest = ' ' :: (name ++ ' ' :: rest)) :
    (Pattern.seq .blanks1 (.part .name path)).Prefers reach
      ((reach.after [' '] (name ++ ' ' :: rest)).passing .name name (' ' :: rest)) := by
  obtain ⟨⟨c, hc, hfirst⟩, hall⟩ := hname
  obtain ⟨more, rfl⟩ := List.head?_eq_some_iff.mp hc
  have hblank : Text.isBlank c = false := Bool.eq_false_iff.mpr fun hblank => by
    have hword := hall c List.mem_cons_self
    rw [Text.isWordChar_eq_false_of_isBlank hblank] at hword
    cases hword
  have hspace : Pattern.blanks1.Prefers reach (reach.after [' '] (c :: more ++ ' ' :: rest)) :=
    Pattern.prefers_run1 reach (List.cons_ne_nil _ _) hr (by decide) fun d hd =>
      Option.some.inj hd ▸ hblank
  refine hspace.seq (Pattern.Prefers.passing ?_)
  let entered := (reach.after [' '] (c :: more ++ ' ' :: rest)).enter .name
  have hstart := Pattern.prefers_char entered (rfl : _ = c :: (more ++ ' ' :: rest)) hfirst
  have hrun := Pattern.prefers_run (entered.after [c] (more ++ ' ' :: rest))
    (rfl : _ = more ++ ' ' :: rest)
    (fun d hd => ( Bool.or_eq_true_iff.mpr (.inl (hall d (List.mem_cons_of_mem c hd))) :
      isPathChar d = true))
    (fun d hd => Option.some.inj hd ▸ by decide +kernel)
  rw [Reach.after_after] at hrun
  exact hstart.seq hrun

/-- An opening is matched up to its brace where no word stands in front of it. -/
theorem exists_matchAt_opening (opening : Opening) {previous : Option Char}
    (hprevious : previous.any Text.isWordChar = false) (offset : Nat) (rest : List Char) :
    ∃ found, namespacePattern.matchAt ⟨previous, offset, opening.head ++ '\x7b' :: rest⟩ =
      some found ∧ opening.Shows offset found := by
  let start : Reach := .start ⟨previous, 0, opening.head ++ '\x7b' :: rest⟩
  let spoken : Reach := start.after keyword
    (Text.spaced opening.name?.toList ++ [' '] ++ '\x7b' :: rest)
  have hboundary : Pattern.boundary.Prefers start start := by
    refine Pattern.prefers_boundary ?_
    have hword : Text.isWordChar 'n' = true := by decide +kernel
    show (previous.any Text.isWordChar != Text.isWordChar 'n') = true
    rw [hprevious, hword]
    rfl
  have hinline : (Pattern.optional (.lit "inline" ++ .blanks1)).Prefers start start :=
    Pattern.prefers_optional_of_nil (Pattern.ends_seq_of_nil (Pattern.ends_lit_eq_nil rfl))
  have hkeyword : (Pattern.lit "namespace").Prefers start spoken :=
    Pattern.prefers_lit start (List.append_assoc _ _ _)
  -- The optional name is read where there is one, and then the blank and the brace.
  have hnamed : ∃ named read,
      (Pattern.optional (.blanks1 ++ .part .name path)).Prefers spoken named ∧
      spoken.cursor.Reads read named.cursor ∧ named.cursor.rest = ' ' :: '\x7b' :: rest ∧
      (latest .name named.marks).map (fun mark => (mark.start.capture offset mark.stop).text) =
        opening.name? := by
    cases hname : opening.name? with
    | none =>
      have hrest : spoken.cursor.rest = ' ' :: '\x7b' :: rest := by
        show Text.spaced opening.name?.toList ++ [' '] ++ '\x7b' :: rest = _
        rw [hname]
        rfl
      exact ⟨spoken, [], Pattern.prefers_optional_of_nil (ends_name_of_brace hrest), .refl _, hrest,
        rfl⟩
    | some name =>
      have hrest : spoken.cursor.rest = ' ' :: (name ++ ' ' :: '\x7b' :: rest) := by
        show Text.spaced opening.name?.toList ++ [' '] ++ '\x7b' :: rest = _
        rw [hname]
        simp [Text.spaced]
      let spaced : Reach := spoken.after [' '] (name ++ ' ' :: '\x7b' :: rest)
      have hread : spoken.cursor.Reads (' ' :: name)
          (spaced.passing .name name (' ' :: '\x7b' :: rest)).cursor := by
        refine ⟨hrest, ?_⟩
        rw [Text.width_cons, ← Nat.add_assoc]
        rfl
      refine ⟨spaced.passing .name name (' ' :: '\x7b' :: rest), ' ' :: name,
        (prefers_named (opening.isName name hname) hrest).optional, hread, rfl, ?_⟩
      exact congrArg some (congrArg Capture.text (spaced.capture_passing name _ rfl offset))
  obtain ⟨named, read, hprefers, hread, hrest, hlatest⟩ := hnamed
  have hblanks : Pattern.blanks.Prefers named (named.after [' '] ('\x7b' :: rest)) :=
    Pattern.prefers_run named hrest (by decide) fun c hc => Option.some.inj hc ▸ rfl
  have hbrace : (Pattern.lit "\x7b").Prefers (named.after [' '] ('\x7b' :: rest))
      ((named.after [' '] ('\x7b' :: rest)).after ['\x7b'] rest) := Pattern.prefers_lit _ rfl
  have hall : namespacePattern.Prefers start
      ((named.after [' '] ('\x7b' :: rest)).after ['\x7b'] rest) :=
    ((((hboundary.seq hinline).seq hkeyword).seq hprefers).seq hblanks).seq hbrace
  have hwhole : start.cursor.Reads (opening.head ++ ['\x7b'])
      ((named.after [' '] ('\x7b' :: rest)).after ['\x7b'] rest).cursor := by
    have hspoken : start.cursor.Reads keyword spoken.cursor := ⟨List.append_assoc _ _ _, rfl⟩
    have hspace : named.cursor.Reads [' '] (named.after [' '] ('\x7b' :: rest)).cursor :=
      ⟨hrest, rfl⟩
    have hchain := ((hspoken.trans hread).trans hspace).trans
      (⟨rfl, rfl⟩ : (named.after [' '] ('\x7b' :: rest)).cursor.Reads ['\x7b']
        ((named.after [' '] ('\x7b' :: rest)).after ['\x7b'] rest).cursor)
    have htext : opening.head ++ ['\x7b'] ++ rest = start.cursor.rest := List.append_assoc _ _ _
    rw [List.append_cancel_right (htext.trans hchain.1)]
    exact hchain
  obtain ⟨found, hmatch, hstart, hstop, hpart⟩ := hall.exists_match hwhole offset
  refine ⟨found, hmatch, hstart, ?_, ?_⟩
  · rw [hstop, Text.width_append]
    rfl
  · rw [hpart, Option.map_map]
    exact hlatest

end

/-! ### All that the patterns find -/

section

variable (openings : List Opening)

/-- The matches are those of the openings, in their order, from an offset on. -/
inductive ShowsAll : Nat → List Opening → List Match → Prop
  | nil (offset : Nat) : ShowsAll offset [] []
  | cons {offset : Nat} {opening : Opening} {openings : List Opening} {found : Match}
      {founds : List Match} (first : opening.Shows offset found)
      (others : ShowsAll (offset + Text.width opening.head + 2) openings founds) :
      ShowsAll offset (opening :: openings) (found :: founds)

/-- Behind the parenthesis of the function no word stands. -/
theorem mem_behind {c : Char} (h : c ∈ behind openings) : c ∈ [')', ' ', '\x7b', '\x7d'] := by
  rcases List.mem_append.mp h with h | h
  · exact h
  · rcases mem_closed openings h with rfl | rfl <;> decide

theorem misses_namespace_function : namespacePattern.Misses (signature ++ behind openings) [] := by
  refine Pattern.misses_of_needs (show namespacePattern.needs 's' = true by decide) fun hmem => ?_
  rcases List.mem_append.mp hmem with hmem | hmem
  · exact absurd hmem (by decide)
  · exact absurd (mem_behind openings hmem) (by decide)

/-- Every opening is found where it stands. -/
theorem showsAll_findAllFrom {resume offset : Nat} {previous : Option Char}
    (hprevious : previous.any Text.isWordChar = false) (hle : resume ≤ offset)
    (later : List Opening) :
    ShowsAll offset openings (namespacePattern.findAllFrom resume previous offset
      (opened openings ++ (signature ++ behind later))) := by
  induction openings generalizing resume offset previous with
  | nil =>
    rw [opened, List.flatMap_nil, List.nil_append,
      (misses_namespace_function later).findAllFrom_eq_nil (by decide)]
    exact .nil offset
  | cons opening openings ih =>
    generalize hrest : opened openings ++ (signature ++ behind later) = rest at ih
    obtain ⟨found, hmatch, hshows⟩ := opening.exists_matchAt_opening hprevious offset (' ' :: rest)
    have hwidth : Text.width (opening.head ++ ['\x7b']) = Text.width opening.head + 1 :=
      Text.width_append _ _
    have hothers := @ih found.stop (offset + Text.width opening.head + 2) (some ' ')
      (by decide +kernel) (by rw [hshows.stop]; omega)
    have hspace : namespacePattern.Misses [' '] rest :=
      Pattern.misses_of_avoids (by decide) (by decide)
    have hstop : found.stop = offset + Text.width (opening.head ++ ['\x7b']) := by
      rw [hshows.stop, hwidth, Nat.add_assoc]
    have htext : opened (opening :: openings) ++ (signature ++ behind later) =
        opening.head ++ ['\x7b'] ++ ([' '] ++ rest) := by
      rw [opened_cons, ← hrest]
      simp
    rw [htext, Pattern.findAllFrom_of_matchAt hle (by simp) (by simpa using hmatch) hstop,
      hspace.findAllFrom, hwidth]
    exact .cons hshows hothers

/-- The namespaces are found as they are opened. -/
theorem showsAll_findAll : ShowsAll 0 openings (namespacePattern.findAll (text openings)) :=
  have hstart : (none : Option Char).any Text.isWordChar = false := rfl
  showsAll_findAllFrom openings hstart (Nat.le_refl 0) openings

/-! #### Classes -/

/-- A blank of an opening with more than the brace behind it stands behind the keyword. -/
theorem eq_keyword {opening : Opening} {front more : List Char} {x : Char}
    (h : opening.head = front ++ ' ' :: x :: more) : front = keyword := by
  have hkeyword : ' ' ∉ keyword := by decide
  cases hname : opening.name? with
  | none =>
    rw [head, hname] at h
    exact absurd (eq_nil_of_blank hkeyword h) (List.cons_ne_nil _ _)
  | some name =>
    have hspace : ' ' ∉ name := (opening.isWord_name hname).notMem (by decide +kernel)
    have hspaced : Text.spaced (some name).toList = ' ' :: name := by simp [Text.spaced]
    rw [head, hname, hspaced] at h
    obtain ⟨v, rfl, hbehind⟩ := Pattern.append_of_append_cons hkeyword h
    cases v with
    | nil => exact List.append_nil keyword
    | cons c v =>
      have hrest : name ++ [' '] = v ++ ' ' :: x :: more := (List.cons.inj hbehind).2
      exact absurd (eq_nil_of_blank hspace hrest) (List.cons_ne_nil _ _)

/-- No class starts in an opening: behind a word for a kind of class it has only its brace. -/
theorem misses_class_head (opening : Opening) (rest : List Char) :
    classPattern.Misses (opening.head ++ ['\x7b']) rest := by
  refine Pattern.misses_in_front fun a v hsplit previous d ms hm => ?_
  obtain ⟨_, _, _, hm, -, -⟩ := hm.of_seq
  obtain ⟨_, _, _, hm, -, -⟩ := hm.of_seq
  obtain ⟨c₁, _, _, htemplate, hdeclaration, -⟩ := hm.of_seq
  obtain rfl : c₁ = ⟨previous, 0, v ++ '\x7b' :: rest⟩ := by
    rcases htemplate.of_optional with hopen | rfl
    · have hangle : '<' ∈ v := hopen.mem_in_front (by decide) (by decide) rfl
      exact absurd (hsplit ▸ List.mem_append_right a hangle)
        (opening.notMem_head (by decide) (by decide +kernel))
    · rfl
  obtain ⟨_, hbody, -⟩ := hdeclaration.of_part
  obtain ⟨_, _, _, hbody, -, -⟩ := hbody.of_seq
  obtain ⟨_, _, _, hbody, -, -⟩ := hbody.of_seq
  obtain ⟨_, _, _, hbody, hname, -⟩ := hbody.of_seq
  obtain ⟨_, _, _, hbody, hspecifiers, -⟩ := hbody.of_seq
  obtain ⟨_, _, _, hkind, hblanks, -⟩ := hbody.of_seq
  obtain ⟨_, hword, -⟩ := hkind.of_part
  obtain ⟨word, hmem, hreadWord⟩ := hword.of_oneOf
  obtain ⟨_, _, _, hfirst, hrun, -⟩ := hblanks.of_seq
  obtain ⟨b, hb, hreadFirst⟩ := hfirst.of_char
  obtain ⟨blanks, hblank, hreadRun⟩ := hrun.of_run
  obtain ⟨x, hx, havoids⟩ := (hspecifiers.seq hname).exists_head rfl
  obtain ⟨more, hmore⟩ := List.head?_eq_some_iff.mp hx
  -- What is read up to the name, with the first character there, stands in front of the brace.
  have hchain : v ++ '\x7b' :: rest = (word.toList ++ [b] ++ blanks) ++ x :: more := by
    rw [← hmore]
    simpa using ((hreadWord.trans hreadFirst).trans hreadRun).1
  have hword : '\x7b' ∉ word.toList ++ [b] ++ blanks := by
    have hwords : ∀ word ∈ ["class", "struct", "union"], '\x7b' ∉ word.toList := by decide
    simp only [List.mem_append, List.mem_singleton, not_or]
    refine ⟨⟨hwords word hmem, ?_⟩, fun hbrace => ?_⟩
    · rintro rfl
      exact absurd hb (by decide)
    · exact absurd (hblank _ hbrace) (by decide)
  obtain ⟨v', rfl, hname⟩ := Pattern.append_of_append_cons hword hchain.symm
  obtain ⟨w, rfl⟩ : ∃ w, v' = x :: w := by
    cases v' with
    | nil => exact absurd (List.cons.inj hname).1 (havoids '\x7b' (by decide))
    | cons y w => exact ⟨w, by rw [(List.cons.inj hname).1]⟩
  obtain rfl : b = ' ' := by
    rcases opening.mem_head (hsplit ▸ by simp : b ∈ opening.head) with rfl | hb'
    · rfl
    · rw [Text.isWordChar_eq_false_of_isBlank hb] at hb'
      cases hb'
  obtain ⟨y, more', hy⟩ : ∃ y more', blanks ++ x :: w = y :: more' :=
    List.exists_cons_of_ne_nil (by simp)
  have hhead : opening.head = (a ++ word.toList) ++ ' ' :: y :: more' := by
    rw [← hy, hsplit]
    simp
  have hfront := opening.eq_keyword hhead
  have hlast : ∀ word ∈ ["class", "struct", "union"], word.toList.getLast? ∉ [none, some 'e'] := by
    decide
  refine hlast word hmem ?_
  have hend : (a ++ word.toList).getLast? = some 'e' := congrArg List.getLast? hfront
  rw [List.getLast?_append] at hend
  cases hnone : word.toList.getLast? with
  | none => decide
  | some last =>
    rw [hnone, Option.some_or] at hend
    rw [hend]
    decide

/-- What is missed in every opening, and in the spaces between them, is missed in all of them. -/
theorem misses_opened {p : Pattern} (hspace : p.consumes = true ∧ p.avoids ' ' = true)
    (h : ∀ (opening : Opening) (x : Char) (more : List Char), x = 'n' ∨ x = 'v' →
      p.Misses (opening.head ++ ['\x7b']) (' ' :: x :: more)) (rest : List Char) :
    p.Misses (opened openings) (signature ++ rest) := by
  induction openings with
  | nil => exact Pattern.misses_nil _ _
  | cons opening openings ih =>
    obtain ⟨x, more, hmore, hx⟩ := exists_opened_eq openings rest
    have hfirst : p.Misses (opening.head ++ ['\x7b'] ++ [' '])
        (opened openings ++ (signature ++ rest)) := by
      refine Pattern.Misses.append ?_ (Pattern.misses_of_avoids hspace.1 ?_)
      · rw [hmore]
        exact h opening x more hx
      · exact fun c hc => List.mem_singleton.mp hc ▸ hspace.2
    have htext : opened (opening :: openings) =
        opening.head ++ ['\x7b'] ++ [' '] ++ opened openings := by
      rw [opened_cons]
      simp
    rw [htext]
    exact hfirst.append ih

theorem findAll_class : classPattern.findAll (text openings) = [] := by
  have hbehind : classPattern.Misses (signature ++ behind openings) [] := by
    have hmarks : ∀ c ∈ [')', ' ', '\x7b', '\x7d'], classPattern.avoids c = true := by decide
    have hsignature : ∀ c ∈ signature, classPattern.avoids c = true := by decide
    refine Pattern.misses_of_avoids (by decide) fun c hc => ?_
    rcases List.mem_append.mp hc with hc | hc
    · exact hsignature c hc
    · exact hmarks c (mem_behind openings hc)
  have hopened : classPattern.Misses (opened openings) (signature ++ behind openings ++ []) := by
    rw [List.append_assoc]
    exact misses_opened openings (by decide) (fun opening _ _ _ => opening.misses_class_head _) _
  exact (hopened.append hbehind).findAll (by decide)

/-! #### The function -/

/-- The match of the function, counted from where it starts. -/
def functionFound : Match :=
  ⟨⟨0, signature⟩, [(.declaration, ⟨0, "void f".toList⟩), (.name, ⟨5, ['f']⟩),
    (.type, ⟨0, "void ".toList⟩), (.modifiers, ⟨0, []⟩)]⟩

theorem matchAt_signature (previous : Option Char) (more : List Char) :
    functionPattern.matchAt ⟨previous, 0, signature ++ more⟩ = some functionFound := by
  rw [functionFound, signature]
  cbv

theorem misses_function_behind : functionPattern.Misses (behind openings) [] :=
  Pattern.misses_of_needs (show functionPattern.needs '(' = true by decide +kernel) fun hmem =>
    absurd (mem_behind openings hmem) (by decide)

/-- The function is all that is found. -/
theorem findAll_function : functionPattern.findAll (text openings) =
    [functionFound.down (Text.width (opened openings))] := by
  have hopened : functionPattern.Misses (opened openings) (signature ++ behind openings) :=
    misses_opened openings (by decide +kernel) (fun opening x more hx => misses_function
      (opening.notMem_head (by decide) (by decide +kernel))
      (opening.notMem_head (by decide) (by decide +kernel))
      (by rcases hx with rfl | rfl <;> decide) more) _
  have hmatch := functionPattern.matchAt_add ((opened openings).getLast?.or none) 0
    (Text.width (opened openings)) (signature ++ behind openings)
  rw [matchAt_signature, Option.map_some] at hmatch
  have hstop : (functionFound.down (Text.width (opened openings))).stop =
      0 + Text.width (opened openings) + Text.width signature := by
    rw [Match.stop_down, Nat.zero_add, Nat.add_comm]
    rfl
  rw [Pattern.findAll, text, hopened.findAllFrom]
  refine (Pattern.findAllFrom_of_matchAt (Nat.zero_le _) (by decide) hmatch hstop).trans ?_
  rw [(misses_function_behind openings).findAllFrom_eq_nil (by decide)]

end

end Opening
end Cpp
end Outline
