import Mathlib
import Outline.Proofs.Declaration.NamePattern
import Outline.Proofs.Extraction.Cpp.TrailingText
import Outline.Proofs.Pattern.Anchor

/-!
# What the patterns find in a struct whose function has a trailing return type

The struct is found at the start of the text and its function behind the brace, and neither could
have been read in another way.  What else looks like a class does not start a statement.
-/

namespace Outline
namespace Cpp

open Pattern (Matches Misses)

variable {c d e : Cursor} {ms ns : List Mark} {name more : List Char}

/-! ## The name of a struct -/

theorem notMem_word_space {word : List Char} (h : ∀ c ∈ word, Text.isWordChar c = true) {x : Char}
    (hx : Text.isWordChar x = false) (hne : x ≠ ' ') : x ∉ word ++ [' '] := by
  intro hmem
  rcases List.mem_append.mp hmem with hmem | hmem
  · rw [h x hmem] at hx
    cases hx
  · exact hne (List.mem_singleton.mp hmem)

/-- A blank that is in no word stands at the end of a word with a blank behind it. -/
theorem eq_nil_of_blank {word w v : List Char} {blank b : Char} (hb : b ∉ word)
    (h : word ++ [blank] = w ++ b :: v) : v = [] := by
  obtain ⟨x, -, hx⟩ := Pattern.append_of_append_cons hb h
  cases x with
  | nil => exact (List.cons.inj hx).2.symm
  | cons y x => exact absurd (List.cons.inj hx).2 (by simp)

/-- Behind capitals and blanks in front of a brace stands the brace. -/
theorem rest_of_capitals (hw : IsWord name) (hcapitals : Matches capitals c d ms)
    (hblanks : Matches .blanks1 d e ns) (hc : c.rest = (name ++ [' ']) ++ '\x7b' :: more) :
    e.rest = '\x7b' :: more := by
  obtain ⟨_, v, -, hv, hd⟩ := hcapitals.in_front (by decide) hc
  obtain ⟨x, _, _, hfirst, hrun, -⟩ := hblanks.of_seq
  obtain ⟨b, hb, hreadFirst⟩ := hfirst.of_char
  obtain ⟨w, hblank, hreadRun⟩ := hrun.of_run
  have hnot : b ∉ name := fun hmem => absurd hb (by simp [hw.isBlank b hmem])
  have hrest : v ++ '\x7b' :: more = b :: (w ++ e.rest) := by
    rw [← hd, hreadFirst.1, hreadRun.1]
    rfl
  cases v with
  | nil =>
    obtain rfl : '\x7b' = b := (List.cons.inj hrest).1
    exact absurd hb (by decide)
  | cons y v =>
    obtain ⟨rfl, hbehind⟩ := List.cons.inj hrest
    obtain rfl := eq_nil_of_blank hnot hv
    cases w with
    | nil => exact hbehind.symm
    | cons z w =>
      obtain rfl : '\x7b' = z := (List.cons.inj hbehind).1
      exact absurd (hblank '\x7b' List.mem_cons_self) (by decide)

/-- In front of the name of a struct no specifier is read: it would need a parenthesis or a
bracket, or be the name itself, and then no name would follow. -/
theorem eq_of_classSpecifiers (hw : IsWord name)
    (hspecifiers : Matches (.many (classSpecifier ++ .blanks1)) c d ms)
    (hname : Matches (.part .name .name) d e ns) (hc : c.rest = (name ++ [' ']) ++ '\x7b' :: more) :
    c = d := by
  rcases hspecifiers.of_star with heq | ⟨x, _, _, hround, hmore⟩
  · exact heq
  exfalso
  obtain ⟨y, _, _, hspecifier, hblanks, -⟩ := hround.of_seq
  cases hspecifier with
  | altLeft _ halignas =>
    obtain ⟨_, _, _, hopen, -, -⟩ := halignas.of_seq
    obtain ⟨_, _, _, hopen, -, -⟩ := hopen.of_seq
    exact notMem_word_space hw.isWordChar (by decide +kernel) (by decide)
      (hopen.mem_in_front (by decide) (by decide : _ = true) hc : '(' ∈ _)
  | altRight _ hspecifier =>
    cases hspecifier with
    | altLeft _ hattribute =>
      obtain ⟨_, _, _, hopen, -, -⟩ := hattribute.of_seq
      obtain ⟨_, _, _, hopen, -, -⟩ := hopen.of_seq
      exact notMem_word_space hw.isWordChar (by decide +kernel) (by decide)
        (hopen.mem_in_front (by decide) (by decide : _ = true) hc : '[' ∈ _)
    | altRight _ hcapitals =>
      obtain ⟨a, ha, havoids⟩ := (hmore.seq hname).exists_head rfl
      rw [rest_of_capitals hw hcapitals hblanks hc] at ha
      exact havoids '\x7b' (by decide) (Option.some.inj ha).symm

/-- One space in front of a word is read whole. -/
theorem reads_space (h : Matches .blanks1 c d ms) (hc : c.rest = ' ' :: more)
    (hmore : ∀ x, more.head? = some x → Text.isBlank x = false) : c.Reads [' '] d := by
  obtain ⟨_, _, _, hfirst, hrun, -⟩ := h.of_seq
  obtain ⟨b, -, hread⟩ := hfirst.of_char
  obtain ⟨w, hw, hreadRun⟩ := hrun.of_run
  have hall := hread.trans hreadRun
  obtain ⟨rfl, hrest⟩ := List.cons.inj (hc.symm.trans hall.1)
  cases w with
  | nil => exact hall
  | cons x w =>
    have hx : Text.isBlank x = false := hmore x (hrest ▸ rfl)
    rw [hw x List.mem_cons_self] at hx
    cases hx

/-- Where there is no angle bracket there are no template arguments. -/
theorem eq_of_arguments {u : List Char}
    (h : Matches (.optional (.blanks ++ .lit "<" ++ .run0 isArgumentChar ++ .lit ">")) c d ms)
    (hc : c.rest = u ++ '\x7b' :: more) (hu : '<' ∉ u) : d = c := by
  rcases h.of_optional with hopen | rfl
  · obtain ⟨_, _, _, hopen, -, -⟩ := hopen.of_seq
    obtain ⟨_, _, _, hopen, -, -⟩ := hopen.of_seq
    exact absurd (hopen.mem_in_front (by decide) (by decide) hc) hu
  · rfl

/-- In a word, and behind it where a brace follows, no class is final. -/
theorem eq_of_final {v : List Char} (h : Matches (.optional (.blanks1 ++ .lit "final")) c d ms)
    (hv : ∀ x ∈ v, Text.isBlank x = false) (hc : c.rest = (v ++ [' ']) ++ '\x7b' :: more) :
    d = c := by
  rcases h.of_optional with hfinal | rfl
  · exfalso
    cases v with
    | nil =>
      exact absurd (hfinal.mem_in_front (by decide) (by decide : _ = true) hc : 'f' ∈ _) (by decide)
    | cons x v =>
      obtain ⟨_, _, _, hblanks, -, -⟩ := hfinal.of_seq
      obtain ⟨_, _, _, hfirst, -, -⟩ := hblanks.of_seq
      obtain ⟨b, hb, hread⟩ := hfirst.of_char
      obtain rfl : x = b := (List.cons.inj (hc.symm.trans hread.1)).1
      exact absurd hb (by simp [hv x List.mem_cons_self])
  · rfl

/-- The name of a struct is read whole, and its brace is what ends its head. -/
theorem reads_of_className {f g h : Cursor} {ms₁ ms₂ ms₃ ms₄ ms₅ : List Mark} (hw : IsWord name)
    (hname : Matches .name c d ms₁)
    (harguments : Matches (.optional (.blanks ++ .lit "<" ++ .run0 isArgumentChar ++ .lit ">")) d e
      ms₂)
    (hfinal : Matches (.optional (.blanks1 ++ .lit "final")) e f ms₃)
    (hblanks : Matches .blanks f g ms₄)
    (htail : Matches (.char fun c => c == ':' || c == '\x7b') g h ms₅)
    (hc : c.rest = (name ++ [' ']) ++ '\x7b' :: more) :
    c.Reads name d ∧ d.Reads [' '] g ∧ g.Reads ['\x7b'] h := by
  obtain ⟨read, hread, -, hall⟩ :=
    Parameter.reads_nameOf (fun c => Parameter.isWordChar_of_isNameStart) hname
  obtain ⟨gap, hgap, hreadGap⟩ := hblanks.of_run
  obtain ⟨t, ht, hreadTail⟩ := htail.of_char
  have ht : t = ':' ∨ t = '\x7b' := by simpa using ht
  have hspace : ' ' ∉ read := fun hmem => absurd (hall ' ' hmem) (by decide +kernel)
  obtain ⟨v, rfl, hd⟩ : ∃ v, name = read ++ v ∧ d.rest = (v ++ [' ']) ++ '\x7b' :: more := by
    rw [List.append_assoc] at hc
    obtain ⟨v, hv, hd⟩ := Pattern.append_of_append_cons hspace (hread.1.symm.trans hc)
    exact ⟨v, hv, by rw [hd, List.append_assoc]; rfl⟩
  have hword : ∀ x ∈ v, Text.isWordChar x = true := fun x hx =>
    hw.isWordChar x (List.mem_append_right _ hx)
  have hnot : ∀ x, Text.isWordChar x = false → x ≠ ' ' → x ∉ v ++ [' '] := fun x =>
    notMem_word_space hword
  obtain rfl := eq_of_arguments harguments hd (hnot '<' (by decide +kernel) (by decide))
  obtain rfl := eq_of_final hfinal (fun x hx => hw.isBlank x (List.mem_append_right _ hx)) hd
  have hbrace : '\x7b' ∉ gap := fun hmem => absurd (hgap '\x7b' hmem) (by decide)
  have hrest := hreadGap.1.symm.trans hd
  rw [hreadTail.1] at hrest
  obtain ⟨v', hv', hbehind⟩ := Pattern.append_of_append_cons hbrace hrest
  cases v' with
  | cons y v' =>
    obtain rfl : t = y := (List.cons.inj hbehind).1
    have hmem : t ∈ v ++ [' '] := hv' ▸ by simp
    rcases ht with rfl | rfl
    · exact absurd hmem (hnot ':' (by decide +kernel) (by decide))
    · exact absurd hmem (hnot '\x7b' (by decide +kernel) (by decide))
  | nil =>
    obtain rfl : t = '\x7b' := (List.cons.inj hbehind).1
    rw [List.append_nil] at hv'
    obtain rfl : v = [] := by
      cases v with
      | nil => rfl
      | cons x v =>
        have hblank : Text.isBlank x = true := hgap x (hv' ▸ by simp)
        rw [hw.isBlank x (by simp)] at hblank
        cases hblank
    obtain rfl : gap = [' '] := hv'.symm
    rw [List.append_nil]
    exact ⟨hread, hreadGap, hreadTail⟩

/-! ## The name of a function -/

variable {f : Cursor} {os : List Mark} {u : List Char} {x : Char}

/-- The symbol of an operator may hold a brace, but not the blank behind it, and no parenthesis
follows there. -/
theorem not_symbol
    (hsymbol : Matches (.char (fun c => !(Text.isBlank c || Pattern.isNameStart c || c == '('))
      ++ .run0 fun c => !(Text.isBlank c || c == '(')) c d ms)
    (hblanks : Matches .blanks d e ns) (hparen : Matches (.lit "(") e f os) (hu : '(' ∉ u)
    (hx : Text.isBlank x = false ∧ x ≠ '(') (hc : c.rest = u ++ '\x7b' :: ' ' :: x :: more) :
    False := by
  rw [List.append_cons] at hc
  obtain ⟨read, v, -, hv, hd⟩ := hsymbol.in_front (by decide) hc
  rw [List.append_cons] at hd
  have hspares : (Pattern.seq .blanks (.lit "(")).spares x = true := by
    have hword : (Pattern.lit "(").spares x = true := by simpa [Pattern.lit, Pattern.spares] using hx.2
    have hrun : Pattern.blanks.spares x = true := congrArg Bool.not hx.1
    exact Bool.and_eq_true_iff.mpr ⟨hrun, hword⟩
  have hmem : '(' ∈ v ++ [' '] := (hblanks.seq hparen).mem_in_front hspares (by decide) hd
  have hall : '(' ∈ u ++ ['\x7b'] := by
    rw [hv]
    exact List.mem_append_right read ((List.mem_append.mp hmem).resolve_right (by decide))
  exact hu ((List.mem_append.mp hall).resolve_right (by decide))

/-- No name of a function with a parenthesis behind it reaches over a brace. -/
theorem not_functionName (hname : Matches functionName c d ms) (hblanks : Matches .blanks d e ns)
    (hparen : Matches (.lit "(") e f os) (hu : '(' ∉ u) (hx : Text.isBlank x = false ∧ x ≠ '(')
    (hc : c.rest = u ++ '\x7b' :: ' ' :: x :: more) : False := by
  obtain ⟨b, _, _, hscopes, halternative, -⟩ := hname.of_seq
  obtain ⟨_, v, -, rfl, hb⟩ := hscopes.in_front (by decide +kernel) hc
  have hv : '(' ∉ v := fun hmem => hu (List.mem_append_right _ hmem)
  cases halternative with
  | altLeft _ hdestructor =>
    exact hv (((hdestructor.seq hblanks).seq hparen).mem_in_front (by decide +kernel) (by decide)
      hb)
  | altRight _ halternative =>
    cases halternative with
    | altRight _ hplain =>
      exact hv (((hplain.seq hblanks).seq hparen).mem_in_front (by decide +kernel) (by decide) hb)
    | altLeft _ hoperator =>
      obtain ⟨g, _, _, hword, hsymbol, -⟩ := hoperator.of_seq
      obtain ⟨_, w, -, rfl, hg⟩ := hword.in_front (by decide) hb
      have hw : '(' ∉ w := fun hmem => hv (List.mem_append_right _ hmem)
      cases hsymbol with
      | altLeft _ hcall =>
        exact hw (((hcall.seq hblanks).seq hparen).mem_in_front (by decide) (by decide) hg)
      | altRight _ hsymbol =>
        cases hsymbol with
        | altLeft _ hindex =>
          exact hw (((hindex.seq hblanks).seq hparen).mem_in_front (by decide) (by decide) hg)
        | altRight _ hsymbol =>
          cases hsymbol with
          | altLeft _ hsymbol => exact not_symbol hsymbol hblanks hparen hw hx hg
          | altRight _ hpath =>
            exact hw (((hpath.seq hblanks).seq hparen).mem_in_front (by decide +kernel) (by decide)
              hg)

/-- Where there is no bracket there are no attributes. -/
theorem eq_of_attributes (h : Matches (.many (attributeMark ++ .blanks)) c d ms) (hu : '[' ∉ u)
    (hc : c.rest = u ++ '\x7b' :: more) : c = d := by
  rcases h.of_star with heq | ⟨_, _, _, hround, -⟩
  · exact heq
  · obtain ⟨_, _, _, hattribute, -, -⟩ := hround.of_seq
    obtain ⟨_, _, _, hopen, -, -⟩ := hattribute.of_seq
    obtain ⟨_, _, _, hopen, -, -⟩ := hopen.of_seq
    exact absurd (hopen.mem_in_front (by decide) (by decide) hc) hu

/-- In front of a brace, and up to it, no function is found where there are neither parentheses
nor brackets. -/
theorem misses_function (hparen : '(' ∉ u) (hbracket : '[' ∉ u)
    (hx : Text.isBlank x = false ∧ x ≠ '(') (more : List Char) :
    functionPattern.Misses (u ++ ['\x7b']) (' ' :: x :: more) := by
  refine Pattern.misses_in_front fun a v hsplit previous d ms hm => ?_
  subst hsplit
  obtain ⟨_, _, _, hm, hopen, -⟩ := hm.of_seq
  obtain ⟨_, _, _, hm, hblanks, -⟩ := hm.of_seq
  obtain ⟨_, _, _, hm, hdeclaration, -⟩ := hm.of_seq
  obtain ⟨_, _, _, htemplate, hattributes, -⟩ := hm.of_seq
  obtain ⟨_, w, -, rfl, hw⟩ := htemplate.in_front (by decide +kernel) rfl
  obtain rfl := eq_of_attributes hattributes (fun hmem => hbracket (by simp [hmem])) hw
  obtain ⟨_, hbody, rfl⟩ := hdeclaration.of_part
  obtain ⟨_, _, _, hfront, hname, -⟩ := hbody.of_seq
  obtain ⟨_, y, -, rfl, hy⟩ := hfront.in_front (by decide +kernel) hw
  obtain ⟨_, hnamed, rfl⟩ := hname.of_part
  exact not_functionName hnamed hblanks hopen (fun hmem => hparen (by simp [hmem])) hx hy

namespace TrailingStruct

variable (s : TrailingStruct)

/-! ## The struct -/

theorem text_eq_struct : s.text = "struct".toList ++
    ' ' :: ((s.name ++ [' ']) ++ '\x7b' :: (s.signature ++ '\x7b' :: bodyText)) := by
  rw [text, head, List.append_assoc, List.cons_append]

theorem starts_struct : classPattern.Starts s.text := by
  have htext := s.text_eq_struct
  generalize s.signature ++ '\x7b' :: bodyText = more at htext
  have hkind : (Pattern.part .kind (.oneOf ["class", "struct", "union"])).Leaves s.text
      (' ' :: ((s.name ++ [' ']) ++ '\x7b' :: more)) := .inr (.inl htext)
  have hblank : Pattern.blanks1.Leaves (' ' :: ((s.name ++ [' ']) ++ '\x7b' :: more))
      ((s.name ++ [' ']) ++ '\x7b' :: more) := ⟨_, ⟨' ', rfl, rfl⟩, [], rfl, nofun⟩
  have hname : (Pattern.part .name .name).Leaves ((s.name ++ [' ']) ++ '\x7b' :: more)
      (' ' :: '\x7b' :: more) := by
    rw [List.append_assoc]
    exact s.name_isName.leaves _
  have hgap : Pattern.blanks.Leaves (' ' :: '\x7b' :: more) ('\x7b' :: more) :=
    ⟨[' '], rfl, by decide⟩
  exact ⟨more, _, ⟨_, ⟨_, .inr rfl, _, ⟨_, ⟨_, ⟨_, ⟨_, hkind, hblank⟩, .refl⟩, hname⟩, .inr rfl⟩,
    .inr rfl⟩, hgap⟩, '\x7b', rfl, rfl⟩

/-- What is known of the match of the struct. -/
structure StructMatch (found : Match) : Prop where
  start : found.start = 0
  kind : found.text .kind = "struct".toList
  name : found.part? .name = some ⟨7, s.name⟩
  tail : found.part? .tail = some ⟨Text.width s.head, ['\x7b']⟩
  declaration : ∃ declaration, found.part? .declaration = some declaration

/-- The struct can only be read in one way. -/
theorem structMatch_of_matches (h : Matches classPattern ⟨none, 0, s.text⟩ d ms) :
    s.StructMatch (.ofMarks 0 ⟨none, 0, s.text⟩ d ms) := by
  obtain ⟨c₃, _, _, hfront, htail, rfl⟩ := h.of_seq
  obtain ⟨c₂, _, _, hlead, hblanks, rfl⟩ := hfront.of_seq
  obtain ⟨c₁, _, _, htemplate, hdeclaration, rfl⟩ := hlead.of_seq
  obtain ⟨_, hbody₅, rfl⟩ := hdeclaration.of_part
  obtain ⟨b₅, _, _, hbody₄, hfinal, rfl⟩ := hbody₅.of_seq
  obtain ⟨b₄, _, _, hbody₃, harguments, rfl⟩ := hbody₄.of_seq
  obtain ⟨b₃, _, _, hbody₂, hname, rfl⟩ := hbody₃.of_seq
  obtain ⟨b₂, _, _, hbody₁, hspecifiers, rfl⟩ := hbody₂.of_seq
  obtain ⟨b₁, _, _, hkind, hgap, rfl⟩ := hbody₁.of_seq
  have htext := s.text_eq_struct
  generalize s.signature ++ '\x7b' :: bodyText = more at htext
  -- It starts with no template, and its kind is the word in front of the first blank.
  obtain rfl : c₁ = ⟨none, 0, s.text⟩ := by
    rcases htemplate.of_optional with hopen | heq
    · obtain ⟨a, ha, havoids⟩ := hopen.exists_head rfl
      rw [htext] at ha
      exact absurd (Option.some.inj ha).symm (havoids 's' (by decide))
    · exact heq
  obtain ⟨_, hword, rfl⟩ := hkind.of_part
  obtain ⟨word, hmem, hreadKind⟩ := hword.of_oneOf
  have hkindText := htext.symm.trans hreadKind.1
  obtain rfl : word = "struct" := by
    simp only [List.mem_cons, List.not_mem_nil, or_false] at hmem
    rcases hmem with rfl | rfl | rfl
    · exact absurd (List.cons.inj (show 's' :: _ = 'c' :: _ from hkindText)).1 (by decide)
    · rfl
    · exact absurd (List.cons.inj (show 's' :: _ = 'u' :: _ from hkindText)).1 (by decide)
  have hspace : b₁.rest = ' ' :: ((s.name ++ [' ']) ++ '\x7b' :: more) :=
    (List.append_cancel_left hkindText).symm
  have hreadGap : b₁.Reads [' '] b₂ := by
    refine reads_space hgap hspace fun x hx => ?_
    obtain ⟨a, ha, -⟩ := s.name_isName.head
    rw [List.append_assoc, List.head?_append, ha, Option.some_or, Option.some.injEq] at hx
    exact hx ▸ s.name_isWord.isBlank a (List.mem_of_head? ha)
  have hname₂ : b₂.rest = (s.name ++ [' ']) ++ '\x7b' :: more :=
    (List.cons.inj (hspace.symm.trans hreadGap.1)).2.symm
  obtain rfl := eq_of_classSpecifiers s.name_isWord hspecifiers hname hname₂
  obtain ⟨_, hnamed, rfl⟩ := hname.of_part
  obtain ⟨_, htailed, rfl⟩ := htail.of_part
  obtain ⟨hreadName, hreadSpace, hreadTail⟩ :=
    reads_of_className s.name_isWord hnamed harguments hfinal hblanks htailed hname₂
  have hsix : Text.width "struct".toList = 6 := by decide
  have hoffset : b₂.offset = 7 := by
    rw [hreadGap.2, hreadKind.2, hsix]
    rfl
  have hbrace : c₃.offset = Text.width s.head := by
    rw [hreadSpace.2, hreadName.2, hoffset, s.width_head]
    rfl
  refine ⟨rfl, ?_, ?_, ?_, ?_⟩
  · rw [Match.text, Match.part?_ofMarks]
    simp only [latest_append, latest_cons_of_ne, ne_eq, reduceCtorEq, not_false_eq_true,
      htailed.latest_eq_none rfl, hblanks.latest_eq_none rfl, hfinal.latest_eq_none rfl,
      harguments.latest_eq_none rfl, hnamed.latest_eq_none rfl, hspecifiers.latest_eq_none rfl,
      hgap.latest_eq_none rfl, Option.none_or]
    exact congrArg Capture.text (hreadKind.capture_eq 0)
  · rw [Match.part?_ofMarks]
    simp only [latest_append, latest_cons_of_ne, ne_eq, reduceCtorEq, not_false_eq_true,
      htailed.latest_eq_none rfl, hblanks.latest_eq_none rfl, hfinal.latest_eq_none rfl,
      harguments.latest_eq_none rfl, Option.none_or]
    have hcapture := hreadName.capture_eq 0
    rw [hoffset] at hcapture
    exact congrArg some hcapture
  · rw [Match.part?_ofMarks]
    have hcapture := hreadTail.capture_eq 0
    rw [hbrace, Nat.zero_add] at hcapture
    exact congrArg some hcapture
  · rw [Match.part?_ofMarks]
    simp only [latest_append, latest_cons_of_ne, ne_eq, reduceCtorEq, not_false_eq_true,
      htailed.latest_eq_none rfl, hblanks.latest_eq_none rfl, Option.none_or]
    exact ⟨_, rfl⟩

/-- The struct is found first, and nothing else that is found starts where it does. -/
theorem exists_findAll_struct : ∃ found others, classPattern.findAll s.text = found :: others ∧
    s.StructMatch found ∧ ∀ other ∈ others, 0 < other.start := by
  obtain ⟨found, hfound⟩ :=
    Option.isSome_iff_exists.mp (Pattern.isSome_matchAt ⟨none, 0, s.text⟩ s.starts_struct)
  obtain ⟨others, hall, hothers⟩ := Pattern.exists_findAll_of_matchAt hfound
  obtain ⟨d, ms, hmatches, rfl⟩ := Pattern.exists_of_matchAt hfound
  exact ⟨_, others, hall, s.structMatch_of_matches hmatches, fun other ho =>
    Nat.lt_of_le_of_lt (Nat.zero_le _) (hothers other ho)⟩

/-- What else looks like a class starts no statement, not even with a `typedef` in front of it. -/
theorem not_startsAfter_of_class {found : Match} (h : classPattern.FoundIn s.text found)
    (hpos : 0 < found.start) : ∃ before rest, s.text = before ++ rest ∧
      found.start = Text.width before ∧ Statement.startsAfter before true = false ∧
      ∀ front blanks, before = front ++ "typedef".toList ++ blanks →
        Statement.startsAfter front true = false := by
  obtain ⟨before, rest, d, ms, htext, hm, rfl⟩ := h
  refine ⟨before, rest, htext, rfl, ?_, ?_⟩
  · obtain ⟨c, hc, havoids⟩ := hm.exists_head rfl
    obtain ⟨rest, rfl⟩ := List.head?_eq_some_iff.mp hc
    refine Bool.eq_false_iff.mpr fun hstarts => ?_
    have hblank : Text.isBlank c = false := Bool.eq_false_iff.mpr fun hblank =>
      havoids ' ' (by decide) (s.eq_space_of_mem (htext ▸ by simp) hblank)
    rcases s.first_of_startsAfter htext hblank hstarts with rfl | hmem
    · exact absurd hpos (Nat.lt_irrefl 0)
    · simp only [List.mem_cons, List.not_mem_nil, or_false] at hmem
      rcases hmem with rfl | rfl | rfl | rfl
      all_goals exact havoids _ (by decide) rfl
  · rintro front blanks rfl
    refine Bool.eq_false_iff.mpr fun hstarts => ?_
    have hword : "typedef".toList = 't' :: "ypedef".toList := by decide
    have hfront : s.text = front ++ 't' :: ("ypedef".toList ++ (blanks ++ rest)) := by
      rw [htext, hword, List.append_assoc, List.append_assoc, List.cons_append]
    rcases s.first_of_startsAfter hfront (by decide) hstarts with rfl | hmem
    · exact absurd (List.cons.inj (show 's' :: _ = 't' :: _ from hfront)).1 (by decide)
    · exact absurd hmem (by decide)

/-! ## The function -/

/-- The function up to its opening parenthesis. -/
def opened : List Char := ['a', 'u', 't', 'o', ' ', 'f', '(']

/-- What stands behind that parenthesis. -/
def behind : List Char := ')' :: (s.trailing ++ '\x7b' :: bodyText)

/-- The match of the function, counted from where it starts. -/
def functionFound : Match :=
  ⟨⟨0, opened⟩, [(.declaration, ⟨0, "auto f".toList⟩), (.name, ⟨5, ['f']⟩),
    (.type, ⟨0, "auto ".toList⟩), (.modifiers, ⟨0, []⟩)]⟩

theorem matchAt_opened (more : List Char) :
    functionPattern.matchAt ⟨some ' ', 0, opened ++ more⟩ = some functionFound := by
  rw [functionFound, opened]
  cbv

theorem text_eq_function :
    s.text = (s.head ++ ['\x7b']) ++ ([' '] ++ (opened ++ s.behind)) := by
  have hopened : "auto f(".toList = opened := by decide
  rw [text, signature, behind, hopened]
  simp only [List.append_assoc, List.cons_append, List.nil_append]

theorem notMem_behind : '(' ∉ s.behind := by
  have hbody : '(' ∉ '\x7b' :: bodyText := by decide
  rw [behind, List.mem_cons, List.mem_append]
  rintro (hmem | hmem | hmem)
  · cases hmem
  · exact s.notMem_trailing hmem
  · exact hbody hmem

/-- Nothing behind the parenthesis looks like a function. -/
theorem misses_behind : functionPattern.Misses s.behind [] :=
  Pattern.misses_of_needs (show functionPattern.needs '(' = true by decide +kernel) s.notMem_behind

/-- The function is all that is found. -/
theorem findAll_function :
    functionPattern.findAll s.text = [functionFound.down (Text.width s.head + 2)] := by
  have hbracket := notMem_of_isInner (by decide +kernel : isInner '[' = false) s.isInner_head
  have hfront : functionPattern.Misses (s.head ++ ['\x7b']) ([' '] ++ (opened ++ s.behind)) :=
    misses_function s.notMem_head hbracket (by decide) _
  have hspace : functionPattern.Misses [' '] (opened ++ s.behind) :=
    Pattern.misses_of_avoids (by decide) (by decide +kernel)
  have hoffset : 0 + Text.width (s.head ++ ['\x7b']) + Text.width [' '] =
      0 + (Text.width s.head + 2) := by
    rw [Text.width_append]
    show 0 + (Text.width s.head + 1) + 1 = _
    omega
  have hmatch := functionPattern.matchAt_add (some ' ') 0 (Text.width s.head + 2)
    (opened ++ s.behind)
  rw [matchAt_opened, Option.map_some, ← hoffset] at hmatch
  have hstop : (functionFound.down (Text.width s.head + 2)).stop =
      0 + Text.width (s.head ++ ['\x7b']) + Text.width [' '] + Text.width opened := by
    rw [Match.stop_down, hoffset, Nat.zero_add, Nat.add_comm]
    rfl
  rw [Pattern.findAll, s.text_eq_function, hfront.findAllFrom, hspace.findAllFrom]
  refine (Pattern.findAllFrom_of_matchAt (Nat.zero_le _) (by decide) hmatch hstop).trans ?_
  rw [s.misses_behind.findAllFrom_eq_nil (by decide)]

end TrailingStruct

end Cpp
end Outline
