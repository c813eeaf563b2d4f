import Outline.Proofs.Extraction.Scan
import Outline.Proofs.Extraction.Java.Enum
import Outline.Proofs.Extraction.Java.Head

/-!
# The class of an enum

The text of an enum gives one class.  Its word and its name are matched at the start of the
text, and no other type, and no field, is found behind them; methods may be found but change
no properties.  So the class keeps the properties that its constants gave.
-/

namespace Outline
namespace Java

open Parameter (IsIdent NameOf isIdentChar isDollarStart isDollarChar)

/-! ## The match -/

section
variable (rest : List Char)

/-- The start of a text that begins with the word for an enum and a space. -/
def enumCursor : Cursor := ⟨none, 0, 'e' :: 'n' :: 'u' :: 'm' :: ' ' :: rest⟩

theorem ends_enumModifiers (entered : List (Part × Cursor)) (marks : List Mark) :
    (modifiers ["public", "protected", "private", "static", "final", "abstract", "sealed",
      "non-sealed", "strictfp"]).ends [⟨enumCursor rest, entered, marks⟩] =
    [⟨enumCursor rest, entered, ⟨.modifiers, enumCursor rest, 0⟩ :: marks⟩] := by
  have hnone : ∀ word ∈ ["public", "protected", "private", "static", "final", "abstract", "sealed",
      "non-sealed", "strictfp"], (Pattern.lit word).ends
        [Reach.enter .modifiers ⟨enumCursor rest, entered, marks⟩] = [] := by
    simp only [List.forall_mem_cons]
    exact ⟨rfl, rfl, rfl, rfl, rfl, rfl, rfl, rfl, rfl, nofun⟩
  rw [modifiers, Pattern.ends, List.map_singleton, Pattern.many, Pattern.ends_star_of_nil]
  · rfl
  · intro reach hr
    rw [List.mem_singleton.mp hr]
    exact Pattern.ends_seq_of_nil (Pattern.ends_oneOf_of_nil hnone)
  · exact List.pairwise_singleton _ _

theorem ends_enumKind (entered : List (Part × Cursor)) (marks : List Mark) :
    (Pattern.part .kind (.oneOf ["class", "interface", "enum", "record", "@interface"])).ends
      [⟨enumCursor rest, entered, marks⟩] =
    [⟨⟨some 'm', 4, ' ' :: rest⟩, entered, ⟨.kind, enumCursor rest, 4⟩ :: marks⟩] := by
  have hbefore : ∀ word ∈ ["class", "interface"], (Pattern.lit word).ends
      [Reach.enter .kind ⟨enumCursor rest, entered, marks⟩] = [] := by
    simp only [List.forall_mem_cons]
    exact ⟨rfl, rfl, nofun⟩
  have hafter : ∀ word ∈ ["record", "@interface"], (Pattern.lit word).ends
      [Reach.enter .kind ⟨enumCursor rest, entered, marks⟩] = [] := by
    simp only [List.forall_mem_cons]
    exact ⟨rfl, rfl, nofun⟩
  rw [Pattern.ends, List.map_singleton]
  show List.map Reach.leave ((Pattern.oneOf (["class", "interface"] ++ "enum" ::
    ["record", "@interface"])).ends [_]) = _
  rw [Pattern.ends_oneOf hbefore hafter]
  rfl

/-- An enum matches up to the end of its name. -/
theorem matchAt_enum {enumName : List Char} (hn : IsIdent enumName) :
    ∃ found, typePattern.matchAt (enumCursor (enumName ++ ' ' :: rest)) = some found ∧
      found.start = 0 ∧ found.part? .name = some ⟨5, enumName⟩ ∧
      found.text .kind = "enum".toList ∧ found.text .modifiers = [] ∧
      ∃ declaration, found.part? .declaration = some declaration ∧ declaration.start = 0 := by
  have hdollar : NameOf isDollarStart isDollarChar enumName :=
    ⟨hn.head, fun c hc => isDollarChar_of_isIdentChar (hn.all c hc)⟩
  obtain ⟨a, more, rfl, hfirst⟩ := hn.exists_cons
  have hblank : ∀ c, (a :: more ++ ' ' :: rest).head? = some c → Text.isBlank c = false := by
    intro c hc
    obtain rfl : a = c := Option.some.inj hc
    exact Parameter.isBlank_of_isIdentChar (hn.all a List.mem_cons_self)
  let start : Cursor := enumCursor (a :: more ++ ' ' :: rest)
  let named : Reach := ⟨⟨some ' ', 5, a :: more ++ ' ' :: rest⟩, [(.declaration, start)],
    [⟨.kind, start, 4⟩, ⟨.modifiers, start, 0⟩]⟩
  have hannotations : annotations.ends [.start start] = [.start start] := by
    refine ends_annotations (fun reach hr => ?_) (List.pairwise_singleton _ _)
    rw [List.mem_singleton.mp hr]
    exact fun h => absurd (show 'e' = '@' from Option.some.inj h) (by decide)
  have hword : (Pattern.blanks1).ends ((Pattern.part .kind
      (.oneOf ["class", "interface", "enum", "record", "@interface"])).ends
        ((modifiers ["public", "protected", "private", "static", "final", "abstract", "sealed",
          "non-sealed", "strictfp"]).ends [Reach.enter .declaration (.start start)])) = [named] := by
    show Pattern.blanks1.ends (Pattern.ends _ ((modifiers _).ends
      [⟨start, [(.declaration, start)], []⟩])) = _
    rw [ends_enumModifiers, ends_enumKind]
    show (Pattern.run true Text.isBlank).ends ((Pattern.char Text.isBlank).ends [_]) = _
    rw [Pattern.ends_char _ rfl rfl, Pattern.ends_run_of_not true _ hblank]
    rfl
  have hends : (typePattern.ends [.start start]).head? =
      some (((named.enter .name).after (a :: more) (' ' :: rest)).leave).leave := by
    show (((Pattern.dollarName.ends ((Pattern.blanks1.ends (Pattern.ends _ ((modifiers _).ends
      ((annotations.ends [.start start]).map (Reach.enter .declaration))))).map
        (Reach.enter .name))).map Reach.leave).map Reach.leave).head? = _
    have hname : (Pattern.dollarName.ends [named.enter .name]).head? =
        some ((named.enter .name).after (a :: more) (' ' :: rest)) :=
      head?_ends_dollarName _ hdollar rfl (fun c hc => Option.some.inj hc ▸ rfl) (by simp)
    rw [hannotations, List.map_singleton, hword, List.map_singleton, List.head?_map, List.head?_map,
      hname]
    rfl
  have hname : (Cursor.mk (some ' ') 5 (a :: more ++ ' ' :: rest)).Reads (a :: more)
      ⟨(a :: more).getLast?.or (some ' '), 5 + Text.width (a :: more), ' ' :: rest⟩ := ⟨rfl, rfl⟩
  refine ⟨_, Pattern.matchAt_of_head? hends, rfl, ?_, rfl, rfl, _, rfl, rfl⟩
  exact congrArg some (hname.capture_eq 0)

end

/-! ## What is recorded of an enum -/

theorem supertypes_nil : supertypes .enum [] = .ok (none, []) := rfl

/-- What is recorded of an enum. -/
structure EnumDraft (enumName : List Char) (draft : ClassDraft) : Prop where
  name : draft.entry.name = String.ofList enumName
  kind : draft.entry.kind = .enum
  properties : draft.entry.properties = []

theorem typeFindings_enum {text : List Char} {subject : Subject} (h : subject.Of text)
    {scan : Scan} {found : Match} {declaration name : Capture} {opening : Nat}
    {P : List Finding → Prop} (hkind : found.text .kind = "enum".toList)
    (hheader : headerStart subject.masked .enum name.stop = (opening, none))
    (ho : Text.charAt? subject.masked opening = some '\x7b')
    (hconstants : Yields (enumConstants subject scan.classes.length opening name.text) P) :
    Yields (typeFindings subject scan found declaration name opening) fun findings =>
      ∃ draft warnings constants, findings = [.classBody draft] ++ warnings ++ constants ∧
        EnumDraft name.text draft ∧ Finding.Among [.warning] warnings ∧ P constants := by
  have hslice : subject.source.maskedPart (min opening opening) opening = .ok [] := by
    obtain ⟨before, after, hm, hw⟩ := Text.charAt?_eq_some_iff.mp ho
    have hempty : Text.slice? subject.masked (min opening opening) opening = some [] :=
      Text.slice?_eq_some_iff.mpr ⟨before, '\x7b' :: after, by simpa using hm, by simp [hw],
        by simp [hw]⟩
    rw [SourceText.maskedPart, SourceText.part, show subject.source.masked = subject.masked from rfl,
      hempty]
  have hword : kindOf "enum".toList = .enum := rfl
  rw [typeFindings, hkind, hword, hheader]
  refine (show Yields _ (· = []) from ⟨[], hslice, rfl⟩).bind ?_
  rintro header rfl
  refine (show Yields _ (· = (none, [])) from ⟨_, supertypes_nil, rfl⟩).bind ?_
  rintro _ rfl
  refine (h.body_yields ho).bind fun body _ => ?_
  refine (show Yields (recordComponents subject _ none) (· = []) from ⟨[], rfl, rfl⟩).bind ?_
  rintro components rfl
  dsimp only
  rw [if_pos rfl]
  refine hconstants.bind fun constants hp => .ok ?_
  refine ⟨_, _, constants, congrArg (· ++ constants) (List.append_nil _), ⟨rfl, rfl, rfl⟩, ?_, hp⟩
  exact Finding.among_checkTerminated (by simp) _ _ _ _

section

variable {enumName gap : List Char} {first : EnumConstant} {constants : List EnumConstant}
variable {subject : Subject} {scan : Scan} {found : Match}

theorem enumText_eq_front (enumName : List Char) (first : EnumConstant)
    (constants : List EnumConstant) (gap : List Char) :
    enumText enumName (first :: constants) gap = ("enum ".toList ++ enumName) ++ ' ' :: '\x7b' ::
      (([' '] ++ enumList first constants gap) ++ ';' :: [' ', '\x7d']) := by
  rw [enumText_cons, enumHead_eq, List.append_assoc]
  rfl

/-- A declaration that is found in the text of an enum, where one may start, is the enum or
starts with the name of the first constant. -/
theorem starts_of_found {p : Pattern} (hn : IsIdent enumName)
    (hgap : ∀ c ∈ gap, Text.isBlank c = true) (hc : p.consumes = true)
    (hspace : p.avoids ' ' = true) (hclose : p.avoids '\x7d' = true)
    (hf : p.FoundIn (enumText enumName (first :: constants) gap) found) :
    Yields (Statement.startsAt (enumText enumName (first :: constants) gap) found.start false)
      fun starts => starts = true → found.start = 0 ∨
        found.start = Text.width (enumHead enumName) + 2 ∧ ∃ c d ms,
          p.Matches c d ms ∧ c.rest = enumList first constants gap ++ ';' :: [' ', '\x7d'] := by
  obtain ⟨before, rest, d, ms, ht, hm, rfl⟩ := hf
  show Yields (Statement.startsAt _ (Text.width before) false) _
  rw [ht, Statement.startsAt_append]
  refine .ok fun hs => ?_
  obtain ⟨a, ha, hne⟩ := hm.exists_head hc
  rcases starts_enumText hn hgap ht hs ha (hne ' ' hspace) (hne '\x7d' hclose) with
    rfl | ⟨rfl, rfl⟩
  · exact .inl rfl
  · refine .inr ⟨?_, _, d, ms, hm, rfl⟩
    exact Text.width_append _ _

theorem inName_enumList (hgap : ∀ c ∈ gap, Text.isBlank c = true) (rest : List Char) :
    InName (enumList first constants gap ++ ';' :: rest) := by
  refine ⟨first.name, first.trail ++ (following constants ++ gap) ++ ';' :: rest,
    by simp [enumList, EnumConstant.text], first.ident.all, ?_⟩
  unfold EnumConstant.trail
  split
  · cases constants with
    | nil => exact ⟨gap, ';', rest, by simp [following], hgap, by decide⟩
    | cons next constants =>
      exact ⟨[], ',', _, by simp [following]; rfl, by simp, by decide⟩
  · exact ⟨[], '(', _, by simp; rfl, by simp, by decide⟩

/-! ## What the recognizers find -/

/-- The findings of an enum of which the constants are known. -/
def EnumFindings (enumName : List Char) (index : Nat) (constants : List EnumConstant)
    (findings : List Finding) : Prop :=
  ∃ draft warnings entries,
    findings = [.classBody draft] ++ warnings ++ entries.map (.property index) ∧
      EnumDraft enumName draft ∧ Finding.Among [.warning] warnings ∧
      ShowAll enumName constants entries

theorem findType_enum (hn : IsIdent enumName) (hgap : ∀ c ∈ gap, Text.isBlank c = true)
    {text : List Char} (h : subject.Of text)
    (hm : subject.masked = enumText enumName (first :: constants) gap)
    {declaration : Capture} (hdecl : found.part? .declaration = some declaration)
    (hname : found.part? .name = some ⟨5, enumName⟩) (hkind : found.text .kind = "enum".toList)
    (hstart : found.start = 0) :
    Yields (findType subject scan found)
      (EnumFindings enumName scan.classes.length (kept 0 (first :: constants))) := by
  have hfront := enumText_eq_front enumName first constants gap
  have hstop : (Capture.mk 5 enumName).stop = Text.width ("enum ".toList ++ enumName) := by
    rw [Text.width_append]
    rfl
  have hwidth : Text.width (enumHead enumName ++ ['\x7b']) =
      Text.width ("enum ".toList ++ enumName) + 1 + 1 := by
    rw [Text.width_append, enumHead_eq, Text.width_append ("enum ".toList ++ enumName)]
    rfl
  have hstarts : Statement.startsAt subject.masked found.start false = .ok true := by
    rw [hstart]
    exact Statement.startsAt_zero _ _
  have hopen : Statement.bodyOpen? subject.masked (Capture.mk 5 enumName).stop =
      some (Text.width ("enum ".toList ++ enumName) + 1) := by
    rw [hm, hfront, hstop]
    exact (Statement.bodyOpen?_append _ [' '] _ (by decide)).trans
      (congrArg some (Text.width_append _ _))
  have hheader : headerStart subject.masked .enum (Capture.mk 5 enumName).stop =
      (Text.width ("enum ".toList ++ enumName) + 1, none) := by
    rw [hm, hfront, hstop]
    exact headerStart_behind_space _ _ _ rfl (by decide) (by decide)
  have hbehind : Text.IsBoundary subject.masked (Capture.mk 5 enumName).stop := by
    rw [hm, hfront, hstop]
    exact ⟨_, _, rfl, rfl⟩
  obtain ⟨hbrace, -⟩ := Statement.charAt?_bodyOpen? hbehind hopen
  have htext : subject.masked = enumHead enumName ++ ['\x7b'] ++
      ([' '] ++ (first.text ++ (following constants ++ gap)) ++ ';' :: [' ', '\x7d']) := by
    rw [hm, enumText_cons, List.append_cons]
    rfl
  have hbare : Text.isBare subject.masked = true := by
    rw [hm]
    exact isBare_enumText hn hgap
  have hconstants := enumConstants_kept hgap htext hbare hwidth.symm scan.classes.length enumName
  rw [findType, hdecl, hname]
  refine (show Yields _ (· = true) from ⟨true, hstarts, rfl⟩).bind ?_
  rintro _ rfl
  rw [if_pos rfl, hopen]
  refine (typeFindings_enum h hkind hheader hbrace hconstants).mono ?_
  rintro findings ⟨draft, warnings, _, rfl, hdraft, hwarnings, entries, rfl, hshow⟩
  exact ⟨draft, warnings, entries, rfl, hdraft, hwarnings, hshow⟩

/-- Behind the first constant no body opens, so no other type is found. -/
theorem findType_behind (hn : IsIdent enumName) (hgap : ∀ c ∈ gap, Text.isBlank c = true)
    (hm : subject.masked = enumText enumName (first :: constants) gap)
    (hf : typePattern.FoundIn subject.masked found) (hpos : 0 < found.start) :
    Yields (findType subject scan found) (· = []) := by
  rw [hm] at hf
  have hbehind : '\x7b' ∉ ([' '] ++ enumList first constants gap) ++ ';' :: [' ', '\x7d'] := by
    rw [List.mem_append]
    rintro (h | h)
    · exact not_mem_of_isFree (isFree_enumList hgap) rfl h
    · exact absurd h (by decide)
  rw [findType]
  split
  · next declaration name hdecl hname =>
    rw [hm]
    refine (starts_of_found hn hgap rfl (by decide) (by decide) hf).bind fun starts hs => ?_
    cases starts with
    | false => exact .ok rfl
    | true =>
      rcases hs rfl with hzero | ⟨hat, -⟩
      · omega
      · rw [if_pos rfl]
        split
        · next opening hopen =>
          obtain ⟨hpart, hle, -⟩ := hf.part_at hname
          obtain ⟨hbrace, hstop⟩ := Statement.charAt?_bodyOpen? hpart.isBoundary_stop hopen
          obtain ⟨x, y, ht, hw⟩ := Text.charAt?_eq_some_iff.mp hbrace
          rw [enumText_cons] at ht
          obtain ⟨rfl, -⟩ := (List.append_cons_inj_of_notMem
            (not_mem_of_isFree (isFree_enumHead hn) rfl) hbehind).mp ht
          have hnamed : name.start ≤ name.stop := Nat.le_add_right _ _
          omega
        · exact .ok rfl
  · exact .ok rfl

/-- No fields are found. -/
theorem findField_enum (hn : IsIdent enumName) (hgap : ∀ c ∈ gap, Text.isBlank c = true)
    (hb : subject.source.braces = .ofText subject.masked)
    (hm : subject.masked = enumText enumName (first :: constants) gap)
    (hf : fieldPattern.FoundIn subject.masked found) :
    Yields (findField subject scan found) (· = []) := by
  rw [hm] at hf
  rw [findField]
  split
  · next type name index draft _ _ hclass =>
    rw [hm]
    refine (starts_of_found hn hgap rfl (by decide) (by decide) hf).bind fun starts hs => ?_
    cases starts with
    | false =>
      rw [Bool.not_false, Bool.or_true, if_pos rfl]
      exact .ok rfl
    | true =>
      rcases hs rfl with hzero | ⟨-, c, d, ms, hmatch, hrest⟩
      · rw [hzero, Scan.classAt?_zero hb] at hclass
        cases hclass
      · have hin : InName c.rest := hrest ▸ inName_enumList hgap _
        exact absurd hmatch hin.not_field
  · exact .ok rfl

end

end Java

/-! ## The scan -/

/-- What a draft shows besides methods and places. -/
def ClassDraft.outline (draft : ClassDraft) : String × ClassKind × List PropertyEntry :=
  (draft.entry.name, draft.entry.kind, draft.entry.properties)

namespace Scan

theorem outline_record {finding : Finding} (hc : finding.kind ≠ .classBody)
    (hp : finding.kind ≠ .property) (scan : Scan) :
    (scan.record finding).classes.map ClassDraft.outline =
      scan.classes.map ClassDraft.outline := by
  cases finding with
  | classBody => exact absurd rfl hc
  | property => exact absurd rfl hp
  | package | imported | block | function | error | warning => rfl
  | label | abstractClass | method =>
    rw [record, map_modify]
    intro draft
    rfl

theorem outline_recordAll {kinds : List Finding.Kind} {findings : List Finding}
    (h : Finding.Among kinds findings) (hc : .classBody ∉ kinds) (hp : .property ∉ kinds)
    (scan : Scan) : (scan.recordAll findings).classes.map ClassDraft.outline =
      scan.classes.map ClassDraft.outline := by
  induction findings generalizing scan with
  | nil => rfl
  | cons finding findings ih =>
    have hkind := h finding List.mem_cons_self
    rw [recordAll, List.foldl_cons, ← recordAll, ih fun f hf => h f (List.mem_cons_of_mem _ hf),
      outline_record (fun heq => hc (heq ▸ hkind)) fun heq => hp (heq ▸ hkind)]

theorem outline_recordAll_properties {name : String} {kind : ClassKind}
    {properties : List PropertyEntry} (entries : List PropertyEntry) {scan : Scan}
    (h : scan.classes.map ClassDraft.outline = [(name, kind, properties)]) :
    (scan.recordAll (entries.map (.property 0))).classes.map ClassDraft.outline =
      [(name, kind, properties ++ entries)] := by
  induction entries generalizing scan properties with
  | nil => simpa [recordAll] using h
  | cons entry entries ih =>
    have hone : (scan.record (.property 0 entry)).classes.map ClassDraft.outline =
        [(name, kind, properties ++ [entry])] := by
      obtain ⟨draft, hdraft, houtline⟩ := List.map_eq_singleton_iff.mp h
      obtain ⟨rfl, rfl, rfl⟩ : draft.entry.name = name ∧ draft.entry.kind = kind ∧
        draft.entry.properties = properties := by simpa [ClassDraft.outline] using houtline
      simp [record, hdraft, ClassDraft.outline]
    have hrest := ih hone
    rw [List.append_assoc] at hrest
    exact hrest

end Scan

namespace Rule

variable {rule : Rule} {subject : Subject}

/-- A rule that finds neither classes nor properties leaves the outlines as they are. -/
theorem run_outline (kinds : List Finding.Kind) (hfinds : rule.Finds kinds)
    (hc : .classBody ∉ kinds) (hp : .property ∉ kinds)
    (h : ∀ scan, ∀ found ∈ rule.pattern.findAll (rule.text subject.source),
      Yields (rule.apply subject scan found) fun _ => True)
    {outlines : List (String × ClassKind × List PropertyEntry)} {scan : Scan}
    (hs : scan.classes.map ClassDraft.outline = outlines) : Yields (rule.run subject scan)
      fun scan => scan.classes.map ClassDraft.outline = outlines := by
  refine run_yields (fun scan hs found hf => ?_) hs
  obtain ⟨findings, hok, -⟩ := h scan found hf
  have hkeeps := Scan.outline_recordAll (hfinds subject scan found findings hok) hc hp scan
  exact ⟨findings, hok, hkeeps.trans hs⟩

end Rule

namespace Java

open Parameter (IsIdent)

variable {enumName gap : List Char} {first : EnumConstant} {constants : List EnumConstant}

/-- A scan holds one class, an enum with properties for some constants. -/
def HoldsEnum (enumName : List Char) (constants : List EnumConstant) (scan : Scan) : Prop :=
  ∃ entries, scan.classes.map ClassDraft.outline = [(String.ofList enumName, .enum, entries)] ∧
    ShowAll enumName constants entries

theorem holdsEnum_recordAll {scan : Scan} {findings : List Finding}
    (hs : scan.classes.map ClassDraft.outline = [])
    (h : EnumFindings enumName scan.classes.length constants findings) :
    HoldsEnum enumName constants (scan.recordAll findings) := by
  obtain ⟨draft, warnings, entries, rfl, hdraft, hwarnings, hshow⟩ := h
  have hnil : scan.classes = [] := List.map_eq_nil_iff.mp hs
  have hfirst : (scan.recordAll ([.classBody draft] ++ warnings)).classes.map ClassDraft.outline =
      [(String.ofList enumName, .enum, [])] := by
    rw [Scan.recordAll_append, Scan.outline_recordAll hwarnings (by decide) (by decide)]
    show (scan.classes ++ [draft]).map ClassDraft.outline = _
    rw [hnil, List.nil_append, List.map_singleton, ClassDraft.outline, hdraft.name, hdraft.kind,
      hdraft.properties]
  refine ⟨entries, ?_, hshow⟩
  rw [Scan.recordAll_append, hnil, List.length_nil]
  exact Scan.outline_recordAll_properties entries hfirst

theorem run_types (hn : IsIdent enumName) (hgap : ∀ c ∈ gap, Text.isBlank c = true)
    {text : List Char} {subject : Subject} (h : subject.Of text)
    (hm : subject.masked = enumText enumName (first :: constants) gap) {scan : Scan}
    (hscan : scan.classes.map ClassDraft.outline = []) :
    Yields (Rule.run ⟨.masked, typePattern, findType⟩ subject scan)
      (HoldsEnum enumName (kept 0 (first :: constants))) := by
  obtain ⟨found, hmatch, hstart, hname, hkind, -, declaration, hdecl, -⟩ :=
    matchAt_enum ('\x7b' :: (([' '] ++ enumList first constants gap) ++ ';' :: [' ', '\x7d'])) hn
  have hcursor : typePattern.matchAt ⟨none, 0, subject.masked⟩ = some found := by
    rw [hm, enumText_eq_front]
    exact hmatch
  obtain ⟨others, hall, hlater⟩ := Pattern.exists_findAll_of_matchAt hcursor
  have hfound : ∀ other ∈ others, typePattern.FoundIn subject.masked other := fun other ho =>
    Pattern.foundIn_of_mem_findAll (hall ▸ List.mem_cons_of_mem found ho)
  exact Rule.run_of_findAll_cons hall
    ((findType_enum hn hgap h hm hdecl hname hkind hstart).mono
      fun findings hf => holdsEnum_recordAll hscan hf)
    fun other ho _ => findType_behind hn hgap hm (hfound other ho)
      (Nat.lt_of_le_of_lt (Nat.zero_le _) (hlater other ho))

theorem scan_enum (hn : IsIdent enumName) (hgap : ∀ c ∈ gap, Text.isBlank c = true) :
    Yields (language.scan (language.subject (enumText enumName (first :: constants) gap)))
      (HoldsEnum enumName (kept 0 (first :: constants))) := by
  have h := language.subject_of (enumText enumName (first :: constants) gap)
  have hbare : Text.isBare (enumText enumName (first :: constants) gap) = true :=
    isBare_enumText hn hgap
  have hmasked := (Mask.views_of_isBare hbare).2
  generalize hsubject : language.subject (enumText enumName (first :: constants) gap) = subject at h
  have hm : subject.masked = enumText enumName (first :: constants) gap := by
    rw [← hsubject]
    exact hmasked
  have htext : subject.source.text = enumText enumName (first :: constants) gap := by
    rw [← hsubject]
    rfl
  have hb : subject.source.braces = .ofText subject.masked := by
    rw [← hsubject]
    rfl
  rw [scan_eq]
  have hempty : Scan.empty.classes.map ClassDraft.outline = [] := rfl
  refine (Rule.run_outline [.package] (fun _ _ _ => findPackage_among) (by decide) (by decide)
    (fun scan found hf => ?_) hempty).bind fun scan hscan => ?_
  · exact findPackage_yields (Pattern.foundIn_of_mem_findAll hf)
  refine (Rule.run_outline [.imported] (fun _ scan _ => @findImport_among _ scan _) (by decide)
    (by decide) (fun scan found hf => ?_) hscan).bind fun scan hscan => ?_
  · have hf : found ∈ importPattern.findAll subject.source.text := hf
    rw [htext] at hf
    exact @findImport_yields _ subject scan found h (Pattern.foundIn_of_mem_findAll hf)
  refine (run_types hn hgap h hm hscan).bind fun scan hholds => ?_
  obtain ⟨entries, hscan, hshow⟩ := hholds
  refine (Rule.run_outline [.warning, .method, .function] (fun _ _ _ => findMethod_among)
    (by decide) (by decide) (fun scan found hf => ?_) hscan).bind fun scan hscan => ?_
  · exact findMethod_yields h (Pattern.foundIn_of_mem_findAll hf)
  have hholds : HoldsEnum enumName (kept 0 (first :: constants)) scan := ⟨entries, hscan, hshow⟩
  refine Rule.run_yields (fun scan hs found hf => ?_) hholds
  refine (findField_enum hn hgap hb hm (Pattern.foundIn_of_mem_findAll hf)).mono ?_
  rintro _ rfl
  exact hs

/-- The text of an enum gives one class, with the name of the enum and its kind, and the
properties of the class are the constants in front of which no angle bracket is open, in their
order.  They are all constants if and only if no angle bracket is open in front of any. -/
theorem parse_enumText {enumName : List Char} (hn : IsIdent enumName)
    {constants : List EnumConstant} (hne : constants ≠ []) {gap : List Char}
    (hgap : ∀ c ∈ gap, Text.isBlank c = true) :
    ∃ entry, (Registry.java.parse (enumText enumName constants gap)).classes = [entry] ∧
      entry.name = String.ofList enumName ∧ entry.kind = .enum ∧
      List.Forall₂ (EnumConstant.ShownAs enumName) (kept 0 constants) entry.properties ∧
      (kept 0 constants = constants ↔ ∀ before constant after,
        constants = before ++ constant :: after → anglesBehindAll before = 0) := by
  obtain ⟨first, rest, rfl⟩ := List.exists_cons_of_ne_nil hne
  obtain ⟨scan, hscan, entries, houtline, hshow⟩ :=
    @scan_enum enumName gap first rest hn hgap
  obtain ⟨summary, hsummary, hclasses⟩ := Language.extract_classes hscan
  obtain ⟨draft, hdraft, hview⟩ := List.map_eq_singleton_iff.mp houtline
  obtain ⟨hname, hkind, hproperties⟩ : draft.entry.name = String.ofList enumName ∧
    draft.entry.kind = .enum ∧ draft.entry.properties = entries := by
      simpa [ClassDraft.outline] using hview
  refine ⟨Scan.finishClass draft, ?_, hname, hkind, ?_, kept_eq_iff 0 _⟩
  · rw [show Registry.java.parse _ = summary from Extractor.parse_eq hsummary, hclasses, hdraft]
    rfl
  · -- The properties are in the order of their lines already.
    have hsorted : draft.entry.properties.mergeSort (fun a b => a.line ≤ b.line) =
        draft.entry.properties := by
      refine List.mergeSort_of_pairwise ?_
      rw [hproperties]
      exact hshow.inOrder.imp fun hab => decide_eq_true hab
    show List.Forall₂ _ _ (draft.entry.properties.mergeSort _)
    rw [hsorted, hproperties]
    exact hshow.each

/-- A constant with a comparison for an argument. -/
def comparing : EnumConstant where
  name := ['A']
  arguments := some "1 < 2".toList
  ident := ⟨⟨'A', rfl, rfl⟩, by decide⟩
  argued := by
    rintro _ ⟨⟩
    exact ⟨by decide, by decide, by decide, by decide⟩

/-- A constant without arguments. -/
def plain : EnumConstant where
  name := ['B']
  arguments := none
  ident := ⟨⟨'B', rfl, rfl⟩, by decide⟩
  argued := nofun

/-- The constant behind a comparison is lost. -/
theorem parse_enumText_comparing :
    IsIdent ['E'] ∧ [comparing, plain] ≠ [] ∧ (∀ c ∈ [' '], Text.isBlank c = true) ∧
      enumText ['E'] [comparing, plain] [' '] = "enum E \x7b A(1 < 2), B ; \x7d".toList ∧
      ∃ entry, (Registry.java.parse (enumText ['E'] [comparing, plain] [' '])).classes = [entry] ∧
        entry.name = "E" ∧ entry.kind = .enum ∧ entry.properties.map (·.name) = ["A"] := by
  have hn : IsIdent ['E'] := ⟨⟨'E', rfl, rfl⟩, by decide⟩
  have hne : [comparing, plain] ≠ [] := List.cons_ne_nil _ _
  have hgap : ∀ c ∈ [' '], Text.isBlank c = true := by decide
  obtain ⟨entry, hclasses, hname, hkind, heach, -⟩ := parse_enumText hn hne hgap
  refine ⟨hn, hne, hgap, rfl, entry, hclasses, hname, hkind, ?_⟩
  have hkept : kept 0 [comparing, plain] = [comparing] := rfl
  rw [hkept] at heach
  obtain ⟨property, rest, hproperty, hrest, hproperties⟩ := List.forall₂_cons_left_iff.mp heach
  rw [List.forall₂_nil_left_iff.mp hrest] at hproperties
  rw [hproperties, List.map_singleton, hproperty.name]
  rfl

end Java
end Outline
