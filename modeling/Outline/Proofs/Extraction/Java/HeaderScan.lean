import Outline.Proofs.Extraction.Scan
import Outline.Proofs.Extraction.Java.Head
import Outline.Proofs.Extraction.Java.Header
import Outline.Proofs.Extraction.Kind
import Outline.Proofs.Extraction.Registry

/-!
# A class with a base and interfaces

The text of such a class gives that class and no other, and its header is read from the space
behind its name up to its brace.  So the class names the types that are written, unless a word
that starts a clause stands in one of them.
-/

namespace Outline
namespace Java

open Parameter (IsIdent isIdentChar)

/-- A class with a base, interfaces and an empty body. -/
def headerText (name base : List Char) (interfaces : List (List Char)) : List Char :=
  "class ".toList ++ (name ++ ' ' :: (headerOf base interfaces ++ ['\x7b', ' ', '\x7d']))

theorem headerText_eq (name base : List Char) (interfaces : List (List Char)) :
    headerText name base interfaces = "class ".toList ++ (name ++ ' ' ::
      (headerOf base interfaces ++ ['\x7b', ' ', '\x7d'])) := rfl

/-- The class up to its brace. -/
def headerFront (name base : List Char) (interfaces : List (List Char)) : List Char :=
  "class ".toList ++ name ++ ' ' :: headerOf base interfaces

theorem headerFront_eq (name base : List Char) (interfaces : List (List Char)) :
    headerFront name base interfaces = "class ".toList ++ name ++ ' ' :: headerOf base interfaces :=
  rfl

theorem headerText_eq_front (name base : List Char) (interfaces : List (List Char)) :
    headerText name base interfaces = headerFront name base interfaces ++ '\x7b' :: [' ', '\x7d'] := by
  rw [headerText_eq, headerFront_eq]
  simp only [List.append_assoc, List.cons_append]

variable {name base : List Char} {interfaces : List (List Char)}

/-- A class with types that headers may have. -/
structure Written (name base : List Char) (interfaces : List (List Char)) : Prop where
  named : IsDollarName name
  base : HeaderType base
  nonempty : interfaces ≠ []
  interfaces : ∀ type ∈ interfaces, HeaderType type

/-! ## Characters -/

theorem Written.isHeaderChar (h : Written name base interfaces) :
    ∀ c ∈ headerFront name base interfaces, Java.isHeaderChar c = true := by
  have hwords : ∀ word ∈ ["class ".toList, "extends".toList, "implements".toList],
      ∀ c ∈ word, Java.isHeaderChar c = true := by decide
  have hname : ∀ c ∈ name, Java.isHeaderChar c = true := fun c hc =>
    isHeaderChar_of_isDollarChar (h.named.all c hc)
  have hlist : ∀ c ∈ Text.join [',', ' '] interfaces, Java.isHeaderChar c = true :=
    Parameter.mem_join_comma (fun type ht => (h.interfaces type ht).isHeaderChar) rfl rfl
  intro c hc
  rw [headerFront_eq, headerOf_eq] at hc
  simp only [List.mem_append, List.mem_cons, List.not_mem_nil, or_false] at hc
  rcases hc with (hc | hc) | rfl | hc | rfl | hc | rfl | hc | rfl | hc | rfl
  · exact hwords _ (by simp) c hc
  · exact hname c hc
  · rfl
  · exact hwords _ (by simp) c hc
  · rfl
  · exact h.base.isHeaderChar c hc
  · rfl
  · exact hwords _ (by simp) c hc
  · rfl
  · exact hlist c hc
  · rfl

theorem Written.not_mem_front (h : Written name base interfaces) {c : Char}
    (hc : Java.isHeaderChar c = false) : c ∉ headerFront name base interfaces := fun hmem => by
  rw [h.isHeaderChar c hmem] at hc
  cases hc

theorem Written.not_mem (h : Written name base interfaces) {c : Char}
    (hc : Java.isHeaderChar c = false) (hbody : c ∉ ['\x7b', ' ', '\x7d']) :
    c ∉ headerText name base interfaces := by
  rw [headerText_eq_front, List.mem_append, not_or]
  exact ⟨h.not_mem_front hc, hbody⟩

theorem Written.isBare (h : Written name base interfaces) :
    Text.isBare (headerText name base interfaces) = true := by
  rw [headerText_eq_front]
  refine Text.isBare_append_of_forall (fun c hc => ?_) (by decide)
  have hchar := h.isHeaderChar c hc
  refine ⟨?_, ?_, ?_⟩ <;> (rintro rfl; exact absurd hchar (by decide))

/-! ## Where declarations start -/

/-- Only the class may start where a declaration may. -/
theorem Written.eq_nil_of_startsAfter (h : Written name base interfaces) {before rest : List Char}
    {a : Char} (ht : headerText name base interfaces = before ++ rest)
    (hs : Statement.startsAfter before false = true) (ha : rest.head? = some a) (hspace : a ≠ ' ')
    (hclose : a ≠ '\x7d') : before = [] := by
  rcases Statement.exists_of_startsAfter hs with hblank | ⟨x, mark, b, rfl, hmark, hb⟩
  · -- The text starts with a letter, so only nothing is blank in front.
    cases before with
    | nil => rfl
    | cons c before =>
      obtain ⟨rfl, -⟩ := List.cons.inj ht
      exact absurd (hblank 'c' List.mem_cons_self) (by decide)
  · -- Behind the brace of the class there is only a space and the other brace.
    have hfront : mark ∉ headerFront name base interfaces := by
      have hall : ∀ mark ∈ ['\x7b', '\x7d', ';'], Java.isHeaderChar mark = false := by decide
      exact h.not_mem_front (hall mark hmark)
    have hmem : a ∈ b ++ rest := List.mem_append_right b (List.mem_of_head? ha)
    have hbody : a ∈ [' ', '\x7d'] := by
      rw [headerText_eq_front, List.append_assoc, List.cons_append] at ht
      rcases List.append_eq_append_iff.mp ht with ⟨v, -, htail⟩ | ⟨v, hv, htail⟩
      · cases v with
        | nil => exact (List.cons.inj htail).2 ▸ hmem
        | cons c v =>
          rw [(List.cons.inj htail).2]
          exact List.mem_append_right v (List.mem_cons_of_mem mark hmem)
      · cases v with
        | nil => exact (List.cons.inj htail).2 ▸ hmem
        | cons c v =>
          rw [(List.cons.inj htail).1] at hfront
          exact absurd (hv ▸ List.mem_append_right _ List.mem_cons_self) hfront
    simp only [List.mem_cons, List.not_mem_nil, or_false] at hbody
    rcases hbody with rfl | rfl
    · exact absurd rfl hspace
    · exact absurd rfl hclose

section

variable {subject : Subject} {scan : Scan} {found : Match}

/-- A declaration that is found where one may start is the class. -/
theorem Written.starts_of_found (h : Written name base interfaces) {p : Pattern}
    (hc : p.consumes = true) (hspace : p.avoids ' ' = true) (hclose : p.avoids '\x7d' = true)
    (hf : p.FoundIn (headerText name base interfaces) found) :
    Yields (Statement.startsAt (headerText name base interfaces) found.start false) fun starts =>
      starts = true → found.start = 0 := by
  obtain ⟨before, rest, d, ms, ht, hm, rfl⟩ := hf
  show Yields (Statement.startsAt _ (Text.width before) false) _
  rw [ht, Statement.startsAt_append]
  refine .ok fun hs => ?_
  obtain ⟨a, ha, hne⟩ := hm.exists_head hc
  obtain rfl := h.eq_nil_of_startsAfter ht hs ha (hne ' ' hspace) (hne '\x7d' hclose)
  rfl

/-! ## What the recognizers find -/

/-- What is recorded of the class. -/
structure HeadDraft (name : List Char) (types : Option String × List String) (draft : ClassDraft) :
    Prop where
  name : draft.entry.name = String.ofList name
  kind : draft.entry.kind = .ordinary
  types : (draft.entry.base, draft.entry.interfaces) = types

/-- The class gives the types that its header is read as. -/
theorem findType_header (h : Written name base interfaces) {text : List Char} (hof : subject.Of text)
    (hm : subject.masked = headerText name base interfaces) {types : Option String × List String}
    (htypes : supertypes .ordinary (headerOf base interfaces) = .ok types)
    {declaration : Capture} (hdecl : found.part? .declaration = some declaration)
    (hname : found.part? .name = some ⟨6, name⟩) (hkind : found.text .kind = "class".toList)
    (hstart : found.start = 0) :
    Yields (findType subject scan found) fun findings =>
      ∃ draft, findings = [.classBody draft] ∧ HeadDraft name types draft := by
  have hstop : (Capture.mk 6 name).stop = Text.width ("class ".toList ++ name) := by
    rw [Text.width_append]
    rfl
  have hopening : Text.width ("class ".toList ++ name) + 1 + Text.width (headerOf base interfaces) =
      Text.width (headerFront name base interfaces) := by
    rw [headerFront_eq, Text.width_append (_ ++ _), Text.width_cons]
    exact Nat.add_assoc _ _ _
  have hstarts : Statement.startsAt subject.masked found.start false = .ok true := by
    rw [hstart]
    exact Statement.startsAt_zero _ _
  have hopen : Statement.bodyOpen? subject.masked (Capture.mk 6 name).stop =
      some (Text.width (headerFront name base interfaces)) := by
    have hgap : ∀ c ∈ ' ' :: headerOf base interfaces, c ∉ ['\x7b', ';', '\x7d', '('] := by
      have hnone : ∀ c ∈ ['\x7b', ';', '\x7d', '('], Java.isHeaderChar c = false := by decide
      exact fun c hc hmem => h.not_mem_front (hnone c hmem) (List.mem_append_right _ hc)
    have hbody := Statement.bodyOpen?_append ("class ".toList ++ name) _ [' ', '\x7d'] hgap
    rw [← List.append_assoc, ← headerFront_eq, ← headerText_eq_front] at hbody
    rw [hm, hstop]
    exact hbody
  have hheader : headerStart subject.masked .ordinary (Capture.mk 6 name).stop =
      (Text.width ("class ".toList ++ name) + 1, none) := by
    have hfirst : "extends".toList = 'e' :: "xtends".toList := rfl
    rw [hm, hstop, headerText_eq_front, headerFront_eq, headerOf_eq, hfirst, List.append_assoc]
    exact headerStart_behind_space _ _ _ rfl (by decide) (by decide)
  have hpart : subject.source.maskedPart
      (min (Text.width ("class ".toList ++ name) + 1) (Text.width (headerFront name base interfaces)))
      (Text.width (headerFront name base interfaces)) = .ok (headerOf base interfaces) := by
    have hsplit : subject.masked = ("class ".toList ++ name ++ [' ']) ++
        (headerOf base interfaces ++ '\x7b' :: [' ', '\x7d']) := by
      rw [hm, headerText_eq]
      simp only [List.append_assoc, List.cons_append, List.nil_append]
    have hslice := SourceText.part_of_append (headerOf base interfaces) hsplit
    rw [Text.width_append (_ ++ _)] at hslice
    rw [← hopening, Nat.min_eq_left (Nat.le_add_right _ _)]
    exact hslice
  have hbrace : Text.charAt? subject.masked (Text.width (headerFront name base interfaces)) =
      some '\x7b' :=
    Text.charAt?_eq_some_iff.mpr ⟨_, _, hm.trans (headerText_eq_front _ _ _), rfl⟩
  have hterminated : (Delimiter.find subject.masked
      (Text.width (headerFront name base interfaces))).terminated = true := by
    have hgroup : headerText name base interfaces = headerFront name base interfaces ++
        '\x7b' :: ([' '] ++ '\x7d' :: []) := headerText_eq_front name base interfaces
    have hbare := h.isBare
    rw [hgroup] at hbare
    rw [hm, hgroup, Delimiter.find_of_balanced rfl (by decide) (Text.isBare_of_append hbare)]
  rw [findType, hdecl, hname]
  refine (show Yields _ (· = true) from ⟨true, hstarts, rfl⟩).bind ?_
  rintro _ rfl
  rw [if_pos rfl, hopen]
  refine (typeFindings_ordinary hof hkind hheader hpart htypes hbrace hterminated).mono ?_
  rintro _ ⟨draft, rfl, hdraft⟩
  exact ⟨draft, rfl, hdraft.name, hdraft.kind, by rw [hdraft.base, hdraft.interfaces]⟩

/-- No other type is found. -/
theorem findType_later (h : Written name base interfaces)
    (hm : subject.masked = headerText name base interfaces)
    (hf : typePattern.FoundIn subject.masked found) (hpos : 0 < found.start) :
    Yields (findType subject scan found) (· = []) := by
  rw [hm] at hf
  rw [findType]
  split
  · next declaration name _ _ =>
    rw [hm]
    refine (h.starts_of_found rfl (by decide) (by decide) hf).bind fun starts hs => ?_
    cases starts with
    | false => exact .ok rfl
    | true => exact absurd (hs rfl) (Nat.ne_of_gt hpos)
  · exact .ok rfl

/-- No field is found. -/
theorem findField_header (h : Written name base interfaces)
    (hb : subject.source.braces = .ofText subject.masked)
    (hm : subject.masked = headerText name base interfaces)
    (hf : fieldPattern.FoundIn subject.masked found) :
    Yields (findField subject scan found) (· = []) := by
  rw [hm] at hf
  rw [findField]
  split
  · next type name index draft _ _ hclass =>
    rw [hm]
    refine (h.starts_of_found rfl (by decide) (by decide) hf).bind fun starts hs => ?_
    cases starts with
    | false =>
      rw [Bool.not_false, Bool.or_true, if_pos rfl]
      exact .ok rfl
    | true =>
      rw [hs rfl, Scan.classAt?_zero hb] at hclass
      cases hclass
  · exact .ok rfl

end

/-! ## The scan -/

/-- The class is matched at the start of its text. -/
theorem exists_findAll_type (h : Written name base interfaces) : ∃ found others,
    typePattern.findAll (headerText name base interfaces) = found :: others ∧ found.start = 0 ∧
      found.part? .name = some ⟨6, name⟩ ∧ found.text .kind = "class".toList ∧
      (∃ declaration, found.part? .declaration = some declaration) ∧
      ∀ other ∈ others, 0 < other.start := by
  have hspace : ∀ c, (' ' :: (headerOf base interfaces ++ ['\x7b', ' ', '\x7d'])).head? = some c →
      Parameter.isDollarChar c = false := fun _ hc => Option.some.inj hc ▸ rfl
  obtain ⟨found, hmatch, hstart, -, hname, hkind, -, declaration, hdecl, -⟩ :=
    matchAt_class none 0 [] nofun h.named hspace
  have hcursor : typePattern.matchAt ⟨none, 0, headerText name base interfaces⟩ = some found := by
    rw [headerText_eq]
    exact hmatch
  obtain ⟨others, hall, hlater⟩ := Pattern.exists_findAll_of_matchAt hcursor
  refine ⟨found, others, hall, hstart, ?_, hkind, ⟨declaration, hdecl⟩, fun other ho =>
    Nat.lt_of_le_of_lt (Nat.zero_le _) (hlater other ho)⟩
  exact hname

theorem scan_header (h : Written name base interfaces) {types : Option String × List String}
    (htypes : supertypes .ordinary (headerOf base interfaces) = .ok types) :
    Yields (language.scan (language.subject (headerText name base interfaces))) fun scan =>
      ∃ draft, scan.classes = [draft] ∧ HeadDraft name types draft := by
  have hof := language.subject_of (headerText name base interfaces)
  have hm : (language.subject (headerText name base interfaces)).masked =
      headerText name base interfaces := (Mask.views_of_isBare h.isBare).2
  have hb : (language.subject (headerText name base interfaces)).source.braces =
      .ofText (language.subject (headerText name base interfaces)).masked := rfl
  have htext : (language.subject (headerText name base interfaces)).source.text =
      headerText name base interfaces := rfl
  generalize language.subject (headerText name base interfaces) = subject at *
  have hnone : ∀ {p : Pattern} {wanted : Char}, p.needs wanted = true →
      Java.isHeaderChar wanted = false → wanted ∉ ['\x7b', ' ', '\x7d'] →
        p.findAll (headerText name base interfaces) = [] := fun hneeds hchar hbody =>
    Pattern.findAll_of_needs hneeds (h.not_mem hchar hbody)
  have hpackage : packagePattern.findAll subject.masked = [] := by
    rw [hm]
    exact @hnone _ ';' rfl (by decide) (by decide)
  have himport : importPattern.findAll subject.source.text = [] := by
    rw [htext]
    exact @hnone _ ';' rfl (by decide) (by decide)
  have hmethod : methodPattern.findAll subject.masked = [] := by
    rw [hm]
    exact @hnone _ '(' rfl (by decide) (by decide)
  obtain ⟨found, others, hall, hstart, hname, hkind, ⟨declaration, hdecl⟩, hlater⟩ :=
    exists_findAll_type h
  rw [← hm] at hall
  rw [scan_eq]
  refine Yields.bind_of_eq (Rule.run_of_findAll_nil hpackage _) ?_
  refine Yields.bind_of_eq (Rule.run_of_findAll_nil himport _) ?_
  refine Yields.bind (P := fun scan => ∃ draft, scan.classes = [draft] ∧ HeadDraft name types draft)
    ?_ fun scan hs => ?_
  · have hfound : ∀ other ∈ others, typePattern.FoundIn subject.masked other := fun other ho =>
      Pattern.foundIn_of_mem_findAll (hall ▸ List.mem_cons_of_mem found ho)
    refine Rule.run_of_findAll_cons hall
      ((findType_header h hof hm htypes hdecl hname hkind hstart).mono ?_)
      fun other ho _ => findType_later h hm (hfound other ho) (hlater other ho)
    rintro _ ⟨draft, rfl, hdraft⟩
    exact ⟨draft, rfl, hdraft⟩
  refine Yields.bind_of_eq (Rule.run_of_findAll_nil hmethod _) ?_
  refine Rule.run_yields (fun scan hs found hf => ?_) hs
  refine (findField_header h hb hm (Pattern.foundIn_of_mem_findAll hf)).mono ?_
  rintro _ rfl
  exact hs

/-- The text of a class with a base and interfaces gives that class alone.  Its base and its
interfaces are the types that are written, blanks reduced, if and only if no word that starts a
clause stands in one of the types: a wildcard that is bounded from above, at any depth, is taken
for a clause of the header. -/
theorem parse_headerText {name : List Char} (hn : IsDollarName name) {base : List Char}
    (hb : HeaderType base) {interfaces : List (List Char)} (hne : interfaces ≠ [])
    (hi : ∀ type ∈ interfaces, HeaderType type) :
    ∃ entry, (Registry.java.parse (headerText name base interfaces)).classes = [entry] ∧
      entry.name = String.ofList name ∧ entry.kind = .ordinary ∧
      (entry.base = some (String.ofList (Text.normalizeSpace base)) ∧
        entry.interfaces = interfaces.map (fun type => String.ofList (Text.normalizeSpace type)) ↔
          ∀ type ∈ base :: interfaces, Clauseless type) := by
  obtain ⟨types, htypes, hiff⟩ := supertypes_header hb hne hi
  obtain ⟨scan, hscan, draft, hclasses, hdraft⟩ := scan_header ⟨hn, hb, hne, hi⟩ htypes
  obtain ⟨summary, hsummary, hsame⟩ := Language.extract_classes hscan
  refine ⟨Scan.finishClass draft, ?_, hdraft.name, hdraft.kind, ?_⟩
  · rw [show Registry.java.parse _ = summary from Extractor.parse_eq hsummary, hsame, hclasses]
    rfl
  · rw [← hiff, ← hdraft.types, writtenTypes, Prod.mk.injEq, List.map_map]
    rfl

/-- A type of which the only argument is bounded. -/
def boundedType (word : String) : List Char := "Foo<? ".toList ++ (word.toList ++ " Bar>".toList)

theorem headerType_bounded {word : String} (h : word ∈ boundWords) : HeaderType (boundedType word) := by
  have hfoo : IsIdent "Foo".toList := ⟨⟨'F', rfl, rfl⟩, by decide⟩
  have hbar : IsIdent "Bar".toList := ⟨⟨'B', rfl, rfl⟩, by decide⟩
  have hbound : Bound ([] ++ '?' :: ([' '] ++ (word.toList ++ [' ']))) :=
    .wildcard h (by decide) (List.cons_ne_nil _ _)
  have htype : HeaderType ("Foo".toList ++ ([] ++ '<' :: (Text.join [',']
      ([⟨_, "Bar".toList, []⟩].map Argument.text) ++ ['>']))) :=
    .applied (isPath_of_isIdent hfoo) nofun (List.forall_mem_singleton.mpr hbound)
      (List.forall_mem_singleton.mpr (.path (isPath_of_isIdent hbar))) (List.forall_mem_singleton.mpr nofun)
  have htext : boundedType word = "Foo".toList ++ ([] ++ '<' :: (Text.join [',']
      ([⟨[] ++ '?' :: ([' '] ++ (word.toList ++ [' '])), "Bar".toList, []⟩].map Argument.text)
        ++ ['>'])) := by
    have hfront : "Foo<? ".toList = "Foo".toList ++ ['<', '?', ' '] := rfl
    have hbehind : " Bar>".toList = ' ' :: ("Bar".toList ++ ['>']) := rfl
    show "Foo<? ".toList ++ (word.toList ++ " Bar>".toList) = _
    rw [hfront, hbehind, List.map_singleton, Argument.text, Text.join,
      List.intercalate_singleton]
    simp only [List.append_assoc, List.cons_append, List.nil_append]
  rw [htext]
  exact htype

/-- A bound from below is read back, and a bound from above is not. -/
theorem parse_headerText_bounded :
    IsDollarName ['N'] ∧ (∀ word ∈ boundWords, HeaderType (boundedType word)) ∧ [['I']] ≠ [] ∧
      (∀ type ∈ [['I']], HeaderType type) ∧
      headerText ['N'] (boundedType "extends") [['I']] =
        "class N extends Foo<? extends Bar> implements I \x7b \x7d".toList ∧
      (∃ entry, (Registry.java.parse (headerText ['N'] (boundedType "super") [['I']])).classes = [entry] ∧
        entry.base = some "Foo<? super Bar>" ∧ entry.interfaces = ["I"]) ∧
      ∃ entry, (Registry.java.parse (headerText ['N'] (boundedType "extends") [['I']])).classes = [entry] ∧
        ¬(entry.base = some "Foo<? extends Bar>" ∧ entry.interfaces = ["I"]) := by
  have hn : IsDollarName ['N'] := ⟨⟨'N', rfl, rfl⟩, by decide⟩
  have hb : ∀ word ∈ boundWords, HeaderType (boundedType word) := fun _ => headerType_bounded
  have hident : IsIdent ['I'] := ⟨⟨'I', rfl, rfl⟩, by decide⟩
  have hi : ∀ type ∈ [['I']], HeaderType type :=
    List.forall_mem_singleton.mpr (.path (isPath_of_isIdent hident))
  refine ⟨hn, hb, List.cons_ne_nil _ _, hi, rfl, ?_, ?_⟩
  · obtain ⟨entry, hclasses, -, -, hiff⟩ :=
      parse_headerText hn (hb "super" (by decide)) (List.cons_ne_nil _ _) hi
    obtain ⟨hbase, hinterfaces⟩ := hiff.mpr (by decide)
    exact ⟨entry, hclasses, hbase, hinterfaces⟩
  · obtain ⟨entry, hclasses, -, -, hiff⟩ :=
      parse_headerText hn (hb "extends" (by decide)) (List.cons_ne_nil _ _) hi
    refine ⟨entry, hclasses, fun hread => ?_⟩
    have hall : ∀ type ∈ [boundedType "extends", ['I']], Clauseless type := hiff.mp hread
    exact absurd hall (by decide)

end Java
end Outline
