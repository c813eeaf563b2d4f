import Outline.Proofs.Extraction.Java.Rule
import Outline.Proofs.Source.Inserted

/-!
# The heads of classes

What the head of a class in front of its body gives, when nothing but the clauses stand between
the name of the class and its brace.
-/

namespace Outline
namespace Java

section
variable (front rest : List Char) {c : Char}

theorem skipBlanks_behind_space (hblank : Text.isAsciiBlank c = false) :
    Text.skipBlanks (front ++ ' ' :: c :: rest) (Text.width front) = Text.width front + 1 := by
  rw [Text.skipBlanks, Text.dropWidth?_width_append]
  show Text.width front + Text.width ((' ' :: c :: rest).takeWhile Text.isAsciiBlank) = _
  rw [List.takeWhile_cons_of_pos rfl, List.takeWhile_cons_of_neg (by simp [hblank])]
  rfl

theorem charAt?_behind_space :
    Text.charAt? (front ++ ' ' :: c :: rest) (Text.width front + 1) = some c :=
  Text.charAt?_eq_some_iff.mpr ⟨front ++ [' '], rest, by simp, Text.width_append _ _⟩

/-- Behind a space the clauses of a header start, unless type parameters or record components
do. -/
theorem headerStart_behind_space (kind : ClassKind) (hblank : Text.isAsciiBlank c = false)
    (hangle : c ≠ '<') (hparen : c ≠ '(') :
    headerStart (front ++ ' ' :: c :: rest) kind (Text.width front) =
      (Text.width front + 1, none) := by
  have hnone : ¬ some c = some '<' := fun h => hangle (Option.some.inj h)
  rw [headerStart, skipBlanks_behind_space front rest hblank]
  dsimp only
  rw [charAt?_behind_space, if_neg hnone, charAt?_behind_space,
    if_neg fun h => hparen (Option.some.inj h.2)]

/-- Behind the parameters of a method its body opens. -/
theorem trailer?_behind_space :
    trailer? (front ++ ' ' :: '\x7b' :: rest) (Text.width front) =
      .ok (some (.body (Text.width front + 1))) := by
  have htail : SourceText.tailFrom (front ++ ' ' :: '\x7b' :: rest) (Text.width front + 1) =
      .ok ('\x7b' :: rest) := by
    have hdrop : Text.dropWidth? (Text.width front + 1) (front ++ ' ' :: '\x7b' :: rest) =
        some ('\x7b' :: rest) := by
      have hspace := Text.dropWidth?_width_append (front ++ [' ']) ('\x7b' :: rest)
      rw [Text.width_append, List.append_assoc] at hspace
      exact hspace
    rw [SourceText.tailFrom, hdrop]
  rw [trailer?, skipBlanks_behind_space front rest rfl, htail]
  show Except.ok (Option.bind (some (Text.width front + 1)) _) = _
  rw [Option.bind_some, charAt?_behind_space]
  rfl

end

/-- Behind the default of an annotation element its body opens, or it ends: whatever of the two
comes first. -/
theorem trailer?_behind_default (front : List Char) {passed : List Char} (rest : List Char)
    {mark : Char} (h : ∀ c ∈ passed, c ∉ ['\x7b', ';']) (hmark : mark ∈ ['\x7b', ';']) :
    trailer? (front ++ ' ' :: ("default".toList ++ (passed ++ mark :: rest))) (Text.width front) =
      .ok (some (if mark = '\x7b'
        then .body (Text.width (front ++ ' ' :: ("default".toList ++ passed)))
        else .declaration (Text.width (front ++ ' ' :: ("default".toList ++ passed))))) := by
  have hword : "default".toList = 'd' :: "efault".toList := by decide
  have hpassed : ∀ c ∈ "default".toList ++ passed, c ∉ ['\x7b', ';'] := by
    have hdefault : ∀ c ∈ "default".toList, c ∉ ['\x7b', ';'] := by decide
    exact fun c hc => (List.mem_append.mp hc).elim (hdefault c) (h c)
  have hskip := skipBlanks_behind_space front ("efault".toList ++ (passed ++ mark :: rest))
    (rfl : Text.isAsciiBlank 'd' = false)
  have hstop : Text.width (front ++ ' ' :: ("default".toList ++ passed)) =
      Text.width front + 1 + Text.width ("default".toList ++ passed) := by
    rw [Text.width_append, Text.width_cons, ← Nat.add_assoc]
    rfl
  have hmasked : front ++ ' ' :: ("default".toList ++ (passed ++ mark :: rest)) =
      (front ++ [' ']) ++ ("default".toList ++ (passed ++ mark :: rest)) := List.append_cons _ _ _
  have hspace : Text.width (front ++ [' ']) = Text.width front + 1 := Text.width_append _ _
  have htail : SourceText.tailFrom (front ++ ' ' :: ("default".toList ++ (passed ++ mark :: rest)))
      (Text.width front + 1) = .ok ("default".toList ++ (passed ++ mark :: rest)) := by
    rw [hmasked, ← hspace, SourceText.tailFrom, Text.dropWidth?_width_append]
  have hfind : Text.find? ['\x7b', ';'] ("default".toList ++ (passed ++ mark :: rest)) =
      some (Text.width ("default".toList ++ passed)) := by
    rw [← List.append_assoc]
    exact Text.find?_append hpassed hmark
  have hchar : Text.charAt? (front ++ ' ' :: ("default".toList ++ (passed ++ mark :: rest)))
      (Text.width front + 1 + Text.width ("default".toList ++ passed)) = some mark := by
    refine Text.charAt?_eq_some_iff.mpr ⟨front ++ ' ' :: ("default".toList ++ passed), rest, ?_,
      hstop⟩
    simp only [List.append_assoc, List.cons_append]
  have hstarts : Text.startsWith ("default".toList ++ (passed ++ mark :: rest)) "default".toList =
      true := Text.startsWith_iff.mpr ⟨_, rfl⟩
  rw [trailer?, hword, List.cons_append, hskip, ← List.cons_append, ← hword, htail]
  dsimp only [bind, Except.bind, pure, Except.pure]
  rw [hstarts, Bool.or_true, if_pos rfl, hfind, Option.map_some, Option.bind_some, hchar, hstop]
  simp only [List.mem_cons, List.not_mem_nil, or_false] at hmark
  rcases hmark with rfl | rfl <;> rfl

/-- Type parameters end at one place in front of the brace, or behind the brace, whatever stands
there. -/
theorem exists_skip_parameters {parameters : List Char} (h : Text.IsCode parameters)
    (before : List Char) :
    ∃ front clauses, before ++ '<' :: parameters = front ++ clauses ∧ ∀ rest,
      min (Text.skipBlanks (before ++ '<' :: (parameters ++ '\x7b' :: rest))
          ((Delimiter.find (before ++ '<' :: (parameters ++ '\x7b' :: rest))
            (Text.width before)).close + 1))
        (Text.width (front ++ clauses)) = Text.width front := by
  rcases Delimiter.find_code_cases (show Delimiter.closing? '<' = some '>' from rfl) h before with
    ⟨lead, trail, rfl, hfind⟩ | hfind
  · obtain ⟨clauses, hclauses⟩ := List.takeWhile_prefix (p := Text.isAsciiBlank) (l := trail)
    have hsplit : before ++ '<' :: (lead ++ '>' :: trail) =
        before ++ '<' :: (lead ++ ['>']) ++ trail.takeWhile Text.isAsciiBlank ++ clauses := by
      rw [List.append_assoc _ _ clauses, hclauses]
      simp
    refine ⟨_, clauses, hsplit, fun rest => ?_⟩
    have htext : before ++ '<' :: (lead ++ '>' :: trail ++ '\x7b' :: rest) =
        (before ++ '<' :: (lead ++ ['>'])) ++ (trail ++ '\x7b' :: rest) := by simp
    have hbehind : Text.width before + 1 + Text.width lead + 1 =
        Text.width (before ++ '<' :: (lead ++ ['>'])) := by
      simp only [Text.width_append, Text.width_cons, Text.width_nil]
      show Text.width before + 1 + Text.width lead + 1 = Text.width before + (1 + (Text.width lead + 1))
      omega
    rw [hfind, htext, hbehind, Text.skipBlanks_up_to rfl, ← Text.width_append, Text.width_append _ clauses]
    exact Nat.min_eq_left (Nat.le_add_right _ _)
  · refine ⟨_, [], (List.append_nil _).symm, fun rest => ?_⟩
    have hopen : Text.charAt? (before ++ '<' :: (parameters ++ '\x7b' :: rest)) (Text.width before) =
        some '<' := by
      rw [Text.charAt?_width_append]
      rfl
    have hboundary := Delimiter.isBoundary_find_close_succ rfl hopen
    rw [List.append_nil]
    exact Nat.min_eq_right (Nat.le_trans (hfind _) (Text.le_skipBlanks hboundary.le_width))

/-- The clauses of a header start at one place in front of the brace, or behind the brace, whatever
stands there. -/
theorem exists_headerStart {header : List Char} (h : ∀ c ∈ header, c ≠ '"' ∧ c ≠ '\'' ∧ c ≠ '/')
    (before : List Char) :
    ∃ front clauses, before ++ header = front ++ clauses ∧ ∀ rest, ∃ cursor,
      headerStart (before ++ (header ++ '\x7b' :: rest)) .ordinary (Text.width before) =
        (cursor, none) ∧ min cursor (Text.width (front ++ clauses)) = Text.width front := by
  obtain ⟨more, hmore⟩ : ∃ more, header = header.takeWhile Text.isAsciiBlank ++ more :=
    ⟨_, List.takeWhile_append_dropWhile.symm⟩
  generalize hblanks : header.takeWhile Text.isAsciiBlank = blanks at hmore
  have hsplit : ∀ rest, before ++ (header ++ '\x7b' :: rest) =
      (before ++ blanks) ++ (more ++ '\x7b' :: rest) := by
    intro rest
    rw [hmore]
    simp only [List.append_assoc]
  have hstart : ∀ rest, headerStart (before ++ (header ++ '\x7b' :: rest)) .ordinary
      (Text.width before) =
        (if (more ++ '\x7b' :: rest).head? = some '<' then
          Text.skipBlanks (before ++ (header ++ '\x7b' :: rest))
            ((Delimiter.find (before ++ (header ++ '\x7b' :: rest))
              (Text.width (before ++ blanks))).close + 1)
        else Text.width (before ++ blanks), none) := by
    intro rest
    have hskip : Text.skipBlanks (before ++ (header ++ '\x7b' :: rest)) (Text.width before) =
        Text.width (before ++ blanks) := by
      rw [Text.skipBlanks_up_to rfl, Text.width_append, hblanks]
    have hchar : Text.charAt? (before ++ (header ++ '\x7b' :: rest))
        (Text.width (before ++ blanks)) = (more ++ '\x7b' :: rest).head? := by
      rw [hsplit, Text.charAt?_width_append]
    rw [headerStart, hskip]
    dsimp only
    have hordinary : ClassKind.ordinary ≠ .record := by decide
    rw [hchar, if_neg fun hrecord => hordinary hrecord.1]
  have hall : before ++ header = (before ++ blanks) ++ more := by rw [hmore, List.append_assoc]
  by_cases hangle : ∃ parameters, more = '<' :: parameters
  · obtain ⟨parameters, rfl⟩ := hangle
    have hcode : Text.IsCode parameters :=
      Text.isCode_of_forall fun c hc => h c (hmore ▸ by simp [hc])
    obtain ⟨front, clauses, hfront, hclauses⟩ := exists_skip_parameters hcode (before ++ blanks)
    refine ⟨front, clauses, hall.trans hfront, fun rest => ⟨_, hstart rest, ?_⟩⟩
    rw [List.cons_append, List.head?_cons, if_pos rfl, hsplit]
    exact hclauses rest
  · refine ⟨before ++ blanks, more, hall, fun rest => ⟨_, hstart rest, ?_⟩⟩
    have hhead : ¬ (more ++ '\x7b' :: rest).head? = some '<' := by
      intro hhead
      cases more with
      | nil => cases hhead
      | cons c more => exact hangle ⟨more, by rw [Option.some.inj hhead]⟩
    rw [if_neg hhead, Text.width_append _ more]
    exact Nat.min_eq_left (Nat.le_add_right _ _)

/-- What is recorded of an ordinary class, before anything is known of its members. -/
structure DraftOf (subject : Subject) (found : Match) (declaration name : Capture) (opening : Nat)
    (base : Option String) (interfaces : List String) (draft : ClassDraft) : Prop where
  name : draft.entry.name = String.ofList name.text
  kind : draft.entry.kind = .ordinary
  base : draft.entry.base = base
  interfaces : draft.entry.interfaces = interfaces
  methods : draft.entry.methods = []
  properties : draft.entry.properties = []
  startLine : draft.entry.startLine = subject.lineOf declaration.start
  endLine : draft.entry.endLine = subject.lineOf (Delimiter.find subject.masked opening).close
  opening : draft.opening = opening

/-- An ordinary class gives one draft, and a warning unless its body closes. -/
theorem typeFindings_ordinary {text : List Char} {subject : Subject} (h : subject.Of text)
    {scan : Scan} {found : Match} {declaration name : Capture} {opening cursor : Nat}
    {header : List Char} {base : Option String} {interfaces : List String}
    (hkind : found.text .kind = "class".toList)
    (hheader : headerStart subject.masked .ordinary name.stop = (cursor, none))
    (hpart : subject.source.maskedPart (min cursor opening) opening = .ok header)
    (hsuper : supertypes .ordinary header = .ok (base, interfaces))
    (ho : Text.charAt? subject.masked opening = some '\x7b')
    (ht : (Delimiter.find subject.masked opening).terminated = true) :
    Yields (typeFindings subject scan found declaration name opening) fun findings =>
      ∃ draft, findings = [.classBody draft] ∧
        DraftOf subject found declaration name opening base interfaces draft := by
  have hword : kindOf "class".toList = .ordinary := rfl
  obtain ⟨body, hbody, hat⟩ := h.body_yields ho
  have hterminated : body.terminated = true := hat.terminated.trans ht
  rw [typeFindings, hkind, hword, hheader]
  refine (show Yields _ (· = header) from ⟨_, hpart, rfl⟩).bind ?_
  rintro _ rfl
  refine (show Yields _ (· = (base, interfaces)) from ⟨_, hsuper, rfl⟩).bind ?_
  rintro _ rfl
  refine (show Yields _ (· = body) from ⟨_, hbody, rfl⟩).bind ?_
  rintro _ rfl
  refine (show Yields (recordComponents subject _ none) (· = []) from ⟨[], rfl, rfl⟩).bind ?_
  rintro components rfl
  dsimp only
  rw [if_neg (by decide), Subject.checkTerminated, hterminated]
  refine .ok ⟨_, rfl, ⟨rfl, rfl, rfl, rfl, rfl, rfl, rfl, ?_, rfl⟩⟩
  rw [← hat.close]
  exact hat.endLine

end Java
end Outline
