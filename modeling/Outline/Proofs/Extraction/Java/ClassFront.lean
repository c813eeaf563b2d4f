import Outline.Proofs.Extraction.Between
import Outline.Proofs.Extraction.Scan
import Outline.Proofs.Extraction.Java.Annotated
import Outline.Proofs.Extraction.Java.Head
import Outline.Proofs.Extraction.Java.Inserted

/-!
# In front of the first member of a class

What stands in front of the first member of a class is code that ends with the brace of the class
and blanks.  No declaration that begins there goes on in the member, and only the class begins
where one may.
-/

namespace Outline
namespace Java

open Pattern (Misses)
open Parameter (isDollarChar)

/-- The characters that the head of a class does not have: those that end it or begin something
that is passed over, quotes, comments and annotations. -/
def headEnds : List Char := ['\x7b', '\x7d', '(', ')', ';', '"', '\'', '/', '@']

/-- A class up to the first member of its body. -/
structure ClassFront where
  modifiers : List String
  name : List Char
  /-- Type parameters and clauses, up to the brace. -/
  header : List Char
  gap : List Char
  isModifiers : ∀ word ∈ modifiers, word ∈ typeModifiers
  isName : IsDollarName name
  ends_name : ∀ c, (header ++ ['\x7b']).head? = some c → isDollarChar c = false
  isHeader : ∀ c ∈ header, c ∉ headEnds
  isGap : ∀ c ∈ gap, c ∈ [' ', '\t', '\n', '\r']

namespace ClassFront

/-- The modifiers of the class. -/
def lead (front : ClassFront) : List Char := modifiersText front.modifiers

/-- The class up to the end of its name. -/
def named (front : ClassFront) : List Char := front.lead ++ ("class ".toList ++ front.name)

/-- The class up to its brace. -/
def head (front : ClassFront) : List Char := front.named ++ front.header

def text (front : ClassFront) : List Char := front.head ++ '\x7b' :: front.gap

variable (front : ClassFront)

theorem text_append (rest : List Char) :
    front.text ++ rest = front.head ++ ['\x7b'] ++ (front.gap ++ rest) := by
  rw [text, List.append_assoc, List.append_assoc]
  rfl

/-! ## Characters -/

theorem not_mem_head {c : Char} (hc : c ∈ headEnds) : c ∉ front.head := by
  have hwords : ∀ c ∈ headEnds, (∀ word ∈ typeModifiers, c ∉ word.toList ++ [' ']) ∧
      c ∉ "class ".toList ∧ isDollarChar c = false := by decide
  obtain ⟨hmodifiers, hclass, hname⟩ := hwords c hc
  simp only [head, named, lead, List.mem_append, not_or]
  refine ⟨⟨fun hmem => ?_, hclass, fun hmem => ?_⟩, fun hmem => front.isHeader c hmem hc⟩
  · obtain ⟨word, hword, hin⟩ := List.mem_flatMap.mp hmem
    exact hmodifiers word (front.isModifiers word hword) hin
  · rw [front.isName.all c hmem] at hname
    cases hname

theorem exists_head : ∃ c more, front.head = c :: more ∧ Text.isBlank c = false := by
  have hblank : ∀ c, (modifiersText front.modifiers ++
      ("class ".toList ++ front.name ++ front.header)).head? = some c → Text.isBlank c = false :=
    head?_modifiersText (by decide) front.isModifiers fun c hc => Option.some.inj hc ▸ rfl
  have hhead : front.head =
      modifiersText front.modifiers ++ ("class ".toList ++ front.name ++ front.header) := by
    rw [head, named, lead]
    simp only [List.append_assoc]
  rw [hhead]
  cases htext :
    modifiersText front.modifiers ++ ("class ".toList ++ front.name ++ front.header) with
  | nil => exact absurd (List.append_eq_nil_iff.mp htext).2 (by simp)
  | cons c more =>
    rw [htext] at hblank
    exact ⟨c, more, rfl, hblank c rfl⟩

theorem isCode_text : Text.IsCode front.text := by
  refine Text.isCode_of_forall fun c hc => ?_
  have hgap : ∀ c ∈ [' ', '\t', '\n', '\r'], c ≠ '"' ∧ c ≠ '\'' ∧ c ≠ '/' := by decide
  rw [text, List.mem_append, List.mem_cons] at hc
  rcases hc with hc | rfl | hc
  · refine ⟨?_, ?_, ?_⟩ <;> (rintro rfl; exact front.not_mem_head (by decide) hc)
  · decide
  · exact hgap c (front.isGap c hc)

theorem misses_gap {p : Pattern} (hc : p.consumes = true)
    (ha : ∀ c ∈ [' ', '\t', '\n', '\r'], p.avoids c = true) (rest : List Char) :
    p.Misses front.gap rest :=
  Pattern.misses_of_avoids hc fun c hmem => ha c (front.isGap c hmem)

/-! ## Where declarations start -/

/-- Behind some of the head no declaration may start. -/
theorem startsAfter_of_head {before more : List Char} (h : front.head ++ ['\x7b'] = before ++ more)
    (hne : before ≠ []) (hmore : more ≠ []) : Statement.startsAfter before false = false := by
  obtain ⟨v, last, rfl⟩ := (List.eq_nil_or_concat more).resolve_left hmore
  rw [List.concat_eq_append, ← List.append_assoc] at h
  obtain ⟨hhead, -⟩ := List.append_inj' h rfl
  obtain ⟨c, w, hc, hblank⟩ := front.exists_head
  have hmem : c ∈ before := by
    cases before with
    | nil => exact absurd rfl hne
    | cons a before =>
      rw [hc] at hhead
      rw [(List.cons.inj hhead).1]
      exact List.mem_cons_self
  have hmarks : ∀ mark ∈ ['\x7b', '\x7d', ';'], mark ∈ headEnds := by decide
  refine Statement.startsAfter_eq_false hmem hblank (fun mark hmark hin => ?_) []
  exact front.not_mem_head (hmarks mark hmark) (hhead ▸ List.mem_append_left v hin)

/-- No declaration may start at a place in the head but at the start of the text. -/
theorem startsAt_of_lt {p : Pattern} {found : Match} {rest : List Char}
    (hf : p.FoundIn (front.text ++ rest) found) (hpos : 0 < found.start)
    (hlt : found.start < Text.width (front.head ++ ['\x7b'])) :
    Statement.startsAt (front.text ++ rest) found.start false = .ok false := by
  obtain ⟨before, tail, d, ms, htext, -, rfl⟩ := hf
  have hstart : (Match.ofMarks (Text.width before) ⟨before.getLast?, 0, tail⟩ d ms).start =
      Text.width before := rfl
  rw [hstart] at hpos hlt ⊢
  rw [htext, Statement.startsAt_append]
  rw [text_append] at htext
  obtain ⟨more, hmore⟩ : ∃ more, front.head ++ ['\x7b'] = before ++ more := by
    rcases List.append_eq_append_iff.mp htext with ⟨v, rfl, -⟩ | ⟨v, hv, -⟩
    · rw [Text.width_append] at hlt
      omega
    · exact ⟨v, hv⟩
  refine congrArg Except.ok (front.startsAfter_of_head hmore ?_ ?_)
  · rintro rfl
    exact absurd hpos (Nat.lt_irrefl 0)
  · rintro rfl
    rw [hmore, List.append_nil] at hlt
    exact absurd hlt (Nat.lt_irrefl _)

/-! ## What is found -/

/-- The character in front of the first member. -/
theorem getLast?_text : front.text.getLast? = front.gap.getLast?.or (some '\x7b') := by
  rw [text, List.append_cons, List.getLast?_append, List.getLast?_concat]

theorem width_text : Text.width front.text =
    Text.width (front.head ++ ['\x7b']) + Text.width front.gap := by
  rw [← Text.width_append, List.append_assoc]
  rfl

/-- What begins in the head is found there. -/
theorem exists_findAll {p body : Pattern} (hp : Annotated p body)
    (hspares : body.spares '\x7b' = true) (hc : p.consumes = true)
    (ha : ∀ c ∈ [' ', '\t', '\n', '\r'], p.avoids c = true) (rest : List Char) :
    ∃ founds, p.findAll (front.text ++ rest) =
        founds ++ p.findAllFrom 0 front.text.getLast? (Text.width front.text) rest ∧
      ∀ found ∈ founds, p.FoundIn (front.text ++ rest) found ∧
        found.start < Text.width (front.head ++ ['\x7b']) := by
  have hparen : '(' ∉ front.head ++ ['\x7b'] := by
    rw [List.mem_append, not_or]
    exact ⟨front.not_mem_head (by decide), by decide⟩
  obtain ⟨founds, resume, hle, hfounds, hrange⟩ := hp.exists_findAllFrom_within hspares (by decide)
    hparen (front.gap ++ rest) none (Nat.zero_le (0 + Text.width (front.head ++ ['\x7b'])))
  rw [Nat.zero_add] at hle hfounds hrange
  have hall : p.findAll (front.text ++ rest) =
      founds ++ p.findAllFrom 0 front.text.getLast? (Text.width front.text) rest := by
    rw [text_append, Pattern.findAll, hfounds, (front.misses_gap hc ha rest).findAllFrom,
      Pattern.findAllFrom_of_le (Nat.le_trans hle (Nat.le_add_right _ _)), width_text,
      List.getLast?_concat, getLast?_text, Option.some_or]
  refine ⟨founds, hall, fun found hf => ⟨?_, (hrange found hf).2⟩⟩
  exact Pattern.foundIn_of_mem_findAll (hall ▸ List.mem_append_left _ hf)

/-- Where nothing begins in the head, all matches begin with the first member or behind it. -/
theorem findAll_of_misses {p : Pattern} (hc : p.consumes = true)
    (ha : ∀ c ∈ [' ', '\t', '\n', '\r'], p.avoids c = true) {text : List Char}
    (hmiss : p.Misses (front.head ++ ['\x7b']) (front.gap ++ text)) :
    p.findAll (front.text ++ text) =
      p.findAllFrom 0 front.text.getLast? (Text.width front.text) text := by
  rw [front.text_append, Pattern.findAll, hmiss.findAllFrom,
    (front.misses_gap hc ha text).findAllFrom, front.width_text, List.getLast?_concat,
    front.getLast?_text, Option.some_or, Nat.zero_add]

/-- A match of the class itself. -/
structure IsClass (found : Match) : Prop where
  start : found.start = 0
  named : found.part? .name = some ⟨Text.width (front.lead ++ "class ".toList), front.name⟩
  kind : found.text .kind = "class".toList
  modifiers : found.text .modifiers = front.lead
  declared : ∃ declaration, found.part? .declaration = some declaration ∧ declaration.start = 0

/-- The class is found, and what else begins in its head begins further on. -/
theorem exists_findAll_type (rest : List Char) :
    ∃ found others, front.IsClass found ∧
      typePattern.findAll (front.text ++ rest) = [found] ++ others ++
        typePattern.findAllFrom 0 front.text.getLast? (Text.width front.text) rest ∧
      ∀ other ∈ others, typePattern.FoundIn (front.text ++ rest) other ∧
        0 < other.start ∧ other.start < Text.width (front.head ++ ['\x7b']) := by
  have hends : ∀ c, (front.header ++ ['\x7b'] ++ (front.gap ++ rest)).head? = some c →
      isDollarChar c = false := by
    intro c hc
    refine front.ends_name c ?_
    rwa [List.head?_append_of_ne_nil _ (by simp)] at hc
  obtain ⟨found, hmatch, hstart, hstop, hname, hkind, hmodifiers, hdeclared⟩ :=
    matchAt_class none 0 front.modifiers front.isModifiers front.isName hends
  rw [Nat.zero_add] at hstop hname
  have hsplit : front.text ++ rest =
      front.named ++ (front.header ++ ['\x7b'] ++ (front.gap ++ rest)) := by
    rw [text_append, head]
    simp only [List.append_assoc]
  have hmatch : typePattern.matchAt
      ⟨none, 0, front.named ++ (front.header ++ ['\x7b'] ++ (front.gap ++ rest))⟩ = some found := by
    rw [← hmatch, named, lead]
    simp only [List.append_assoc]
  have hpos : 0 < Text.width front.named := by
    have hclass : Text.width "class ".toList = 6 := by decide
    rw [named, Text.width_append, Text.width_append]
    omega
  have hne : front.named ≠ [] := by
    intro hnil
    rw [hnil] at hpos
    exact Nat.lt_irrefl 0 hpos
  have hparen : '(' ∉ front.header ++ ['\x7b'] := by
    rw [List.mem_append, not_or]
    exact ⟨fun hmem => front.isHeader '(' hmem (by decide), by decide⟩
  have hwidth : Text.width (front.head ++ ['\x7b']) =
      Text.width front.named + Text.width (front.header ++ ['\x7b']) := by
    rw [head, List.append_assoc, Text.width_append]
  obtain ⟨others, resume, hle, hothers, hrange⟩ := annotated_type.exists_findAllFrom_within
    (by decide) (by decide) hparen (front.gap ++ rest) (front.named.getLast?.or none)
    (show found.stop ≤ Text.width front.named + Text.width (front.header ++ ['\x7b']) by
      rw [hstop]; exact Nat.le_add_right _ _)
  have hall : typePattern.findAll (front.text ++ rest) = [found] ++ others ++
      typePattern.findAllFrom 0 front.text.getLast? (Text.width front.text) rest := by
    rw [hsplit, Pattern.findAll, Pattern.findAllFrom_of_matchAt (Nat.le_refl 0) hne hmatch
      (by rw [hstop, Nat.zero_add]; rfl), Nat.zero_add, hothers,
      (front.misses_gap rfl (by decide) rest).findAllFrom,
      Pattern.findAllFrom_of_le (Nat.le_trans hle (Nat.le_add_right _ _)), width_text, hwidth,
      List.getLast?_concat, getLast?_text, Option.some_or]
    rfl
  refine ⟨found, others, ⟨hstart, hname, hkind, hmodifiers, hdeclared⟩, hall, fun other ho => ?_⟩
  obtain ⟨hfrom, hto⟩ := hrange other ho
  refine ⟨Pattern.foundIn_of_mem_findAll ?_, ?_⟩
  · rw [hall]
    exact List.mem_append_left _ (List.mem_append_right _ ho)
  · rw [hwidth]
    omega

/-- No field begins in the head of a class. -/
theorem findField_eq_nil {source text : List Char}
    (hmasked : (language.subject source).masked = front.text ++ text) {found : Match}
    (hf : fieldPattern.FoundIn (front.text ++ text) found)
    (hlt : found.start < Text.width (front.head ++ ['\x7b'])) (scan : Scan) :
    findField (language.subject source) scan found = .ok [] := by
  rcases Nat.eq_zero_or_pos found.start with hzero | hpos
  · rw [findField.eq_def, hzero, Scan.classAt?_zero rfl]
    split
    · next hclass => cases hclass
    · rfl
  · have hrule : (⟨.masked, fieldPattern, findField⟩ : Rule) ∈ language.rules := by simp [language]
    refine apply_of_not_starts hrule rfl ?_ scan
    rw [hmasked]
    exact front.startsAt_of_lt hf hpos hlt

/-! ## The class around a stretch -/

open Insertion (between)

variable {note rest : List Char} {found found' : Match} {a b : Scan}

theorem text_append_header (rest : List Char) :
    front.text ++ rest = front.named ++ (front.header ++ '\x7b' :: (front.gap ++ rest)) := by
  rw [text, head]
  simp only [List.append_assoc, List.cons_append]

theorem stop_name :
    Capture.stop ⟨Text.width (front.lead ++ "class ".toList), front.name⟩ =
      Text.width front.named := by
  rw [Capture.stop, ← Text.width_append, List.append_assoc, named]

theorem bodyOpen?_named (rest : List Char) :
    Statement.bodyOpen? (front.text ++ rest) (Text.width front.named) =
      some (Text.width front.head) := by
  have hends : ∀ c ∈ ['\x7b', ';', '\x7d', '('], c ∈ headEnds := by decide
  rw [text_append_header, Statement.bodyOpen?_append _ _ _ fun c hc hmem =>
    front.isHeader c hc (hends c hmem)]
  rfl

theorem charAt?_head (rest : List Char) :
    Text.charAt? (front.text ++ rest) (Text.width front.head) = some '\x7b' :=
  Text.charAt?_eq_some_iff.mpr ⟨front.head, front.gap ++ rest, by rw [text_append]; simp, rfl⟩

/-- The clauses of the class, which are the same whatever its members are. -/
theorem exists_clauses : ∃ clauses : List Char, ∀ (subject : Subject) (rest : List Char),
    subject.masked = front.text ++ rest → ∃ cursor,
      headerStart subject.masked .ordinary (Text.width front.named) = (cursor, none) ∧
        subject.source.maskedPart (min cursor (Text.width front.head)) (Text.width front.head) =
          .ok clauses := by
  have hheader : ∀ c ∈ front.header, c ≠ '"' ∧ c ≠ '\'' ∧ c ≠ '/' := by
    intro c hc
    refine ⟨?_, ?_, ?_⟩ <;> (rintro rfl; exact front.isHeader _ hc (by decide))
  obtain ⟨lead, clauses, hsplit, hstart⟩ := exists_headerStart hheader front.named
  rw [← head] at hsplit
  refine ⟨clauses, fun subject rest hmasked => ?_⟩
  obtain ⟨cursor, hcursor, hmin⟩ := hstart (front.gap ++ rest)
  rw [← text_append_header, ← hmasked] at hcursor
  rw [← hsplit] at hmin
  have htext : subject.masked = lead ++ (clauses ++ '\x7b' :: (front.gap ++ rest)) := by
    rw [hmasked, text_append, hsplit]
    simp
  refine ⟨cursor, hcursor, ?_⟩
  rw [hmin, hsplit, Text.width_append]
  exact SourceText.part_of_append clauses htext

theorem text_append_cons (rest : List Char) :
    front.text ++ rest = front.head ++ '\x7b' :: (front.gap ++ rest) := by
  rw [text, List.append_assoc, List.cons_append]

theorem not_mem_gap {c : Char} (hc : c ∉ [' ', '\t', '\n', '\r']) : c ∉ front.gap :=
  fun hmem => hc (front.isGap c hmem)

/-- The body does not close before its first member has begun. -/
theorem width_lt_close {live : List Char} (hfirst : live.head? ≠ some '\x7d')
    (hlong : 2 ≤ Text.width live) :
    Text.width front.text <
      (Delimiter.find (front.text ++ live) (Text.width front.head)).close := by
  have hwidth : Text.width front.text = Text.width front.head + 1 + Text.width front.gap := by
    rw [width_text, Text.width_append]
    rfl
  rw [text_append_cons]
  rcases Delimiter.find_of_closing (c := '\x7b') front.head (front.gap ++ live) rfl with
    ⟨inner, after, hinner, hfind⟩ | hfind
  · rw [hfind, hwidth]
    dsimp only
    have hgap : '\x7d' ∉ front.gap := front.not_mem_gap (by decide)
    obtain ⟨v, rfl, hlive⟩ := Pattern.append_of_append_cons hgap hinner
    cases v with
    | nil => exact absurd (hlive ▸ rfl) hfirst
    | cons c v =>
      have hpos := Char.utf8Size_pos c
      rw [Text.width_append, Text.width_cons]
      omega
  · rw [hfind, hwidth, Delimiter.lastOffset]
    dsimp only
    have hopen : Text.width ('\x7b' :: (front.gap ++ live)) =
        1 + (Text.width front.gap + Text.width live) := by
      rw [Text.width_cons, Text.width_append]
      rfl
    rw [Text.width_append front.head, hopen]
    omega

/-- The body of the class is read to its end, which the stretch moves further on. -/
theorem body_agree (h : Takes front.text note rest)
    (hlong : 2 ≤ Text.width (Mask.masked .java rest)) :
    Agree (Text.width note) (fun x y => y.close = (between front.text note rest).shift x.close ∧
        y.terminated = x.terminated ∧ y.endLine = x.endLine)
      ((language.subject (front.text ++ rest)).body (Text.width front.head))
      ((language.subject (front.text ++ (note ++ rest))).body (Text.width front.head)) := by
  have ht := h.relates language rfl
  obtain ⟨hmasked, -, hmasked', -⟩ := h.views_eq language rfl
  rw [List.append_assoc] at hmasked'
  have hopen := hmasked ▸ front.charAt?_head (Mask.masked .java rest)
  have hopen' := hmasked' ▸ front.charAt?_head (note ++ Mask.masked .java rest)
  obtain ⟨body, hbody, hat⟩ := (language.subject_of (front.text ++ rest)).body_yields hopen
  obtain ⟨body', hbody', hat'⟩ :=
    (language.subject_of (front.text ++ (note ++ rest))).body_yields hopen'
  obtain ⟨c, more, hlive, -, -, hne⟩ := h.goesOn
  have hlt := front.width_lt_close (hlive ▸ fun hc => hne (Option.some.inj hc)) hlong
  rw [← hmasked, ← hat.close] at hlt
  have hfind : Delimiter.find (language.subject (front.text ++ (note ++ rest))).masked
      (Text.width front.head) =
        (Delimiter.find (language.subject (front.text ++ rest)).masked (Text.width front.head)).down
          (Text.width note) := by
    have hgap : Text.IsCode front.gap := by
      refine Text.isCode_of_forall fun c hc => ⟨?_, ?_, ?_⟩ <;>
        (rintro rfl; exact front.not_mem_gap (by decide) hc)
    rw [hmasked, hmasked', text_append_cons, text_append_cons]
    refine Delimiter.find_insert _ rfl hgap h.code ?_ ?_ _ <;> rw [List.mem_append, not_or]
    · exact ⟨front.not_mem_gap (by decide), h.opening⟩
    · exact ⟨front.not_mem_gap (by decide), h.closing⟩
  have hclose : body'.close = body.close + Text.width note := by
    rw [hat'.close, hat.close, hfind]
    rfl
  rw [hbody, hbody']
  refine .ok ⟨?_, ?_, ?_⟩
  · rw [hclose]
    show _ = (if body.close ≤ Text.width front.text then _ else _) + 0
    rw [if_neg (Nat.not_le_of_lt hlt)]
    rfl
  · rw [hat'.terminated, hat.terminated, hfind]
    rfl
  · have hback := Nat.sub_add_cancel (Nat.le_of_lt hlt)
    have hline : (language.subject (front.text ++ (note ++ rest))).lineOf
        (body.close - Text.width front.text + (Text.width note + Text.width front.text)) =
          (language.subject (front.text ++ rest)).lineOf
            (body.close - Text.width front.text + Text.width front.text) := ht.lineOf _
    rw [hback, Nat.add_comm (Text.width note), ← Nat.add_assoc, hback] at hline
    rw [hat'.endLine, hat.endLine, hclose, hline]

/-- The class around a stretch is the class without it. -/
theorem findType_agree (h : Takes front.text note rest)
    (hlong : 2 ≤ Text.width (Mask.masked .java rest))
    (hab : (between front.text note rest).SameScan a b) (hf : front.IsClass found)
    (hf' : front.IsClass found') :
    Agree (Text.width note) (between front.text note rest).Same
      (findType (language.subject (front.text ++ rest)) a found)
      (findType (language.subject (front.text ++ (note ++ rest))) b found') := by
  have ht := h.relates language rfl
  obtain ⟨hmasked, -, hmasked', -⟩ := h.views_eq language rfl
  rw [List.append_assoc] at hmasked'
  obtain ⟨declaration, hdeclaration, hzero⟩ := hf.declared
  obtain ⟨declaration', hdeclaration', hzero'⟩ := hf'.declared
  obtain ⟨clauses, hclauses⟩ := front.exists_clauses
  obtain ⟨cursor, hcursor, hheader⟩ := hclauses _ _ hmasked
  obtain ⟨cursor', hcursor', hheader'⟩ := hclauses _ _ hmasked'
  have hword : kindOf "class".toList = .ordinary := rfl
  rw [findType.eq_def, findType.eq_def, hdeclaration, hf.named, hdeclaration', hf'.named, hf.start,
    hf'.start, Statement.startsAt_zero, Statement.startsAt_zero]
  refine (Agree.both _ _).bind_eq fun starts => ?_
  split
  · have hopening := hmasked ▸ front.bodyOpen?_named (Mask.masked .java rest)
    have hopening' := hmasked' ▸ front.bodyOpen?_named (note ++ Mask.masked .java rest)
    rw [stop_name, hopening, hopening']
    dsimp only
    rw [typeFindings, typeFindings, hf.kind, hf'.kind, hword, stop_name, hcursor, hcursor']
    dsimp only
    rw [hheader, hheader', modifiersOf, modifiersOf, hf.modifiers, hf'.modifiers, hf.start,
      hf'.start, Scan.classAt?_zero rfl, Scan.classAt?_zero rfl, hzero, hzero', hab.package_eq,
      hab.length_classes_eq]
    refine (Agree.both _ _).bind_eq fun header => (Agree.both _ _).bind_eq fun supertypes => ?_
    refine (front.body_agree h hlong).bind ?_
    rintro body body' ⟨hclose, hterminated, hend⟩
    obtain ⟨base, interfaces⟩ := supertypes
    refine Agree.bind (R := fun xs ys => xs = [] ∧ ys = []) (.ok ⟨rfl, rfl⟩) ?_
    rintro _ _ ⟨rfl, rfl⟩
    dsimp only
    rw [if_neg (by decide), if_neg (by decide)]
    have hwarning : (between front.text note rest).Same
        ((language.subject (front.text ++ rest)).checkTerminated body front.name 0)
        ((language.subject (front.text ++ (note ++ rest))).checkTerminated body' front.name 0) :=
      Takes.checkTerminated_zero body body' front.name hterminated
    refine .ok ((((Insertion.Same.classBody ?_).append hwarning).append .nil).append .nil)
    have hplace : ∀ offset, offset ≤ Text.width front.text →
        (between front.text note rest).place offset = offset := fun _ hle => if_pos hle
    have hopen : Text.width front.head ≤ Text.width front.text := by
      rw [text, Text.width_append]
      exact Nat.le_add_right _ _
    have hnested : b.inAnyClass 0 = a.inAnyClass 0 := by
      have hplaced := a.inAnyClass_placed ht.mono 0
      rw [hplace 0 (Nat.zero_le _)] at hplaced
      exact (Scan.SameUnder.inAnyClass_eq hab 0).trans hplaced
    have hline : ∀ text, (language.subject text).lineOf 0 = 1 := LineIndex.lineOf_zero
    have haspect : (between front.text note rest).aspect = .uncommented := rfl
    have hstill : Aspect.uncommented.still = .uncommented := rfl
    have hdocs : ∀ text, Aspect.uncommented.docstring text = "" := fun _ => rfl
    simp only [Insertion.SameDraft, ClassDraft.placed, ClassDraft.under, ClassEntry.under,
      Insertion.shift, hplace _ hopen, hnested, hline, hclose, hend, haspect, hstill, hdocs]
    rfl
  · exact .ok .nil

end ClassFront
end Java
end Outline
