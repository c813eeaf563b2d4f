import Outline.Proofs.Extraction.Cpp.NamespaceMatch
import Outline.Proofs.Extraction.Cpp.TrailingReturn

/-!
# Functions in nested namespaces

Each opening records its namespace at its brace, and in front of the function exactly these braces
are open.  So its scope is what the names of the openings make, from the outermost inward, and it
is exported if and only if all of them have one.
-/

namespace Outline

/-- Behind distinct keys everything is found. -/
theorem lookup_of_mem {α : Type} {entries : List (Nat × α)} {key : Nat} {value : α}
    (hkeys : (entries.map Prod.fst).Nodup) (h : (key, value) ∈ entries) :
    entries.lookup key = some value := by
  induction entries with
  | nil => cases h
  | cons entry entries ih =>
    obtain ⟨first, other⟩ := entry
    rw [List.map_cons, List.nodup_cons] at hkeys
    rw [List.lookup_cons]
    rcases List.mem_cons.mp h with heq | hmem
    · obtain ⟨rfl, rfl⟩ := Prod.mk.inj heq
      rw [beq_self_eq_true]
    · have hne : key ≠ first := by
        rintro rfl
        exact hkeys.1 (List.mem_map.mpr ⟨_, hmem, rfl⟩)
      rw [beq_eq_false_iff_ne.mpr hne]
      exact ih hkeys.2 hmem

namespace Cpp

variable {subject : Subject} {scan : Scan} {found : Match}

/-- A body that comes right behind the parameters and a space is the trailer. -/
theorem trailer?_body (front rest : List Char) :
    trailer? (front ++ ' ' :: '\x7b' :: rest) (Text.width front) =
      .ok (some ⟨.body (Text.width front + 1), none⟩) := by
  have hbody : front ++ ' ' :: '\x7b' :: rest = (front ++ [' ']) ++ '\x7b' :: rest :=
    List.append_cons _ _ _
  have hspace : Text.width (front ++ [' ']) = Text.width front + 1 := Text.width_append _ _
  have hskip : Text.skipBlanks (front ++ ' ' :: '\x7b' :: rest) (Text.width front) =
      Text.width (front ++ [' ']) := by
    rw [hspace]
    exact Text.skipBlanks_up_to rfl front [' '] rest
  rw [trailer?, trailerFrom_succ none _ hbody hskip, roundAt, hspace]

namespace Opening

/-! ## Views -/

/-- All views of a subject are the text, and hide nothing of it. -/
structure Shown (openings : List Opening) (subject : Subject) : Prop where
  of : subject.Of (text openings)
  text : subject.source.text = text openings
  stripped : subject.source.stripped = Opening.text openings
  masked : subject.masked = Opening.text openings
  braces : subject.source.braces = .ofText (Opening.text openings)

theorem shown_subject (openings : List Opening) :
    Shown openings (language.subject (text openings)) := by
  obtain ⟨hstripped, hmasked⟩ := views_text openings
  exact ⟨language.subject_of _, rfl, hstripped, hmasked, congrArg BraceIndex.ofText hmasked⟩

/-! ## The braces of namespaces -/

/-- The name of the namespace, if it has one. -/
def scope (opening : Opening) : Option String := opening.name?.map String.ofList

/-- The braces of openings from an offset on, with what they open. -/
def scopes : Nat → List Opening → List (Nat × Option String)
  | _, [] => []
  | offset, opening :: openings =>
    (offset + Text.width opening.head, opening.scope) ::
      scopes (offset + Text.width opening.head + 2) openings

/-- The brace of a namespace as it is recorded. -/
def block (entry : Nat × Option String) : Nat × Block := (entry.1, .scope entry.2)

theorem width_opened_cons (opening : Opening) (openings : List Opening) :
    Text.width (opened (opening :: openings)) =
      Text.width opening.head + 2 + Text.width (opened openings) := by
  rw [opened_cons, Text.width_append, Text.width_append]
  rfl

/-- The braces stand behind the offset, in their order. -/
theorem le_of_mem_scopes {offset : Nat} {openings : List Opening} {entry : Nat × Option String}
    (h : entry ∈ scopes offset openings) : offset ≤ entry.1 := by
  induction openings generalizing offset with
  | nil => cases h
  | cons opening openings ih =>
    rcases List.mem_cons.mp h with rfl | h
    · exact Nat.le_add_right _ _
    · exact Nat.le_trans (by omega) (ih h)

theorem nodup_scopes (offset : Nat) (openings : List Opening) :
    ((scopes offset openings).map Prod.fst).Nodup := by
  induction openings generalizing offset with
  | nil => exact List.nodup_nil
  | cons opening openings ih =>
    rw [scopes, List.map_cons, List.nodup_cons]
    refine ⟨fun hmem => ?_, ih _⟩
    obtain ⟨entry, hentry, heq⟩ := List.mem_map.mp hmem
    have hle := le_of_mem_scopes hentry
    omega

theorem map_scopes (offset : Nat) (openings : List Opening) :
    (scopes offset openings).map Prod.snd = openings.map scope := by
  induction openings generalizing offset with
  | nil => rfl
  | cons opening openings ih => exact congrArg (opening.scope :: ·) (ih _)

/-- Behind the openings their braces are open, the last one innermost. -/
theorem stackFrom_opened (openings : List Opening) (rest : List Char) {q offset : Nat}
    (hq : offset + Text.width (opened openings) ≤ q) (stack : List Nat) :
    BraceIndex.stackFrom q stack offset (opened openings ++ rest) =
      BraceIndex.stackFrom q (((scopes offset openings).map Prod.fst).reverse ++ stack)
        (offset + Text.width (opened openings)) rest := by
  induction openings generalizing offset stack with
  | nil => rfl
  | cons opening openings ih =>
    rw [width_opened_cons] at hq ⊢
    have hbalanced : Delimiter.balanced '\x7b' '\x7d' opening.head = true :=
      Delimiter.balanced_of_not_mem (opening.notMem_head (by decide) (by decide +kernel))
        (opening.notMem_head (by decide) (by decide +kernel))
    have htext : opened (opening :: openings) ++ rest =
        opening.head ++ '\x7b' :: ' ' :: (opened openings ++ rest) := by
      rw [opened_cons]
      simp
    have hspace : (' ' : Char).utf8Size = 1 := rfl
    rw [htext, BraceIndex.stackFrom_append_of_balanced hbalanced (by omega),
      BraceIndex.stackFrom_open, if_pos (by omega),
      BraceIndex.stackFrom_other _ _ _ _ (by decide) (by decide), hspace,
      ih (by omega), scopes, List.map_cons, List.reverse_cons, List.append_assoc]
    congr 1
    omega

/-! ## The namespaces around the function -/

/-- Everything that is known of the scan is what the openings open. -/
structure Holds (openings : List Opening) (scan : Scan) : Prop where
  blocks : scan.blocks = (scopes 0 openings).reverse.map block
  classes : scan.classes = []
  functions : scan.functions = []
  package : scan.package = none

variable {openings : List Opening}

theorem enclosingChain_function (h : Shown openings subject) :
    subject.source.braces.enclosingChain (Text.width (opened openings)) =
      (scopes 0 openings).reverse.map Prod.fst := by
  rw [h.braces, BraceIndex.enclosingChain_eq, text,
    stackFrom_opened openings _ (Nat.le_of_eq (Nat.zero_add _)) [],
    BraceIndex.stackFrom_of_le (Nat.le_of_eq (Nat.zero_add _).symm), List.append_nil,
    List.map_reverse]

theorem blockAt?_of_mem (hs : Holds openings scan) {entry : Nat × Option String}
    (h : entry ∈ (scopes 0 openings).reverse) :
    scan.blockAt? entry.1 = some (.scope entry.2) := by
  rw [Scan.blockAt?, hs.blocks]
  refine lookup_of_mem ?_ (List.mem_map.mpr ⟨entry, h, rfl⟩)
  have hkeys : Prod.fst ∘ block = Prod.fst := rfl
  rw [List.map_map, hkeys, List.map_reverse, List.nodup_reverse]
  exact nodup_scopes 0 openings

theorem classAt?_eq_none (hs : scan.classes = []) (offset : Nat) :
    scan.classAt? subject offset = none := by
  rw [Scan.classAt?, hs]
  split
  · simp
  · rfl

theorem atTopLevel_function (h : Shown openings subject) (hs : Holds openings scan) :
    scan.atTopLevel subject (Text.width (opened openings)) = true := by
  have hopen : subject.source.braces.enclosingOpen (Text.width (opened openings)) =
      (scopes 0 openings).reverse.head?.map Prod.fst := by
    rw [BraceIndex.enclosingOpen, enclosingChain_function h, List.head?_map]
  rw [Scan.atTopLevel, Scan.inAnyClass, hs.classes, hopen]
  cases hfirst : (scopes 0 openings).reverse.head? with
  | none => rfl
  | some entry =>
    rw [Option.map_some]
    dsimp only
    rw [blockAt?_of_mem hs (List.mem_of_head? hfirst)]
    rfl

/-- The namespaces around the function are those of the openings. -/
theorem scopesAt_function (h : Shown openings subject) (hs : Holds openings scan) :
    scan.scopesAt subject (Text.width (opened openings)) = (openings.map scope).reverse := by
  have hnames : (scopes 0 openings).reverse.filterMap (some ∘ Prod.snd) =
      (openings.map scope).reverse := by
    rw [List.filterMap_eq_map, List.map_reverse, map_scopes]
  rw [Scan.scopesAt, enclosingChain_function h, List.filterMap_map, ← hnames]
  refine List.filterMap_congr fun entry hentry => ?_
  rw [Function.comp_apply, blockAt?_of_mem hs hentry]
  rfl

/-- The names of the openings that have one, from the outermost inward. -/
def names (openings : List Opening) : List String := openings.filterMap scope

/-- The namespace inside of all of them, if any has a name. -/
def scopeInside (openings : List Opening) : Option String :=
  if names openings = [] then none else some (String.intercalate "::" (names openings))

theorem scopeAt_function (h : Shown openings subject) (hs : Holds openings scan) :
    scan.scopeAt subject (Text.width (opened openings)) = scopeInside openings := by
  have hnamed : (openings.map scope).reverse.filterMap id = (names openings).reverse := by
    rw [List.filterMap_reverse, List.filterMap_map, names]
    rfl
  rw [Scan.scopeAt, scopesAt_function h hs, hnamed, scopeInside]
  split
  · next hnone =>
    rw [if_pos (List.reverse_eq_nil_iff.mp hnone), hs.package]
  · next hsome =>
    rw [if_neg fun hnone => hsome (by rw [hnone]; rfl), List.reverse_reverse]

theorem inAnonymousScope_function (h : Shown openings subject) (hs : Holds openings scan) :
    scan.inAnonymousScope subject (Text.width (opened openings)) =
      openings.any (·.name?.isNone) := by
  rw [Scan.inAnonymousScope, scopesAt_function h hs, List.any_reverse, List.any_map]
  congr 1
  funext opening
  exact Option.isNone_map

/-! ## The scan -/

theorem startsAfter_opened (openings : List Opening) (labels : Bool) :
    Statement.startsAfter (opened openings) labels = true := by
  rcases List.eq_nil_or_concat openings with rfl | ⟨openings, opening, rfl⟩
  · rfl
  · have htext : opened (openings.concat opening) =
        (opened openings ++ opening.head) ++ '\x7b' :: [' '] := by
      rw [List.concat_eq_append, opened_append, List.append_assoc]
      exact congrArg _ (List.append_nil _)
    rw [htext]
    exact Statement.startsAfter_of_mark (by decide) _ (by decide) labels

theorem findNamespace_opening (h : Shown openings subject) {earlier later : List Opening}
    (hsplit : openings = earlier ++ later) {opening : Opening}
    (hf : opening.Shows (Text.width (opened earlier)) found) (scan : Scan) :
    findNamespace subject scan found =
      .ok [.block (Text.width (opened earlier) + Text.width opening.head)
        (.scope opening.scope)] := by
  have htext : text openings =
      opened earlier ++ (opened later ++ (signature ++ behind openings)) := by
    rw [text, hsplit, opened_append, List.append_assoc]
  have hstarts : Statement.startsAt subject.masked found.start false = .ok true := by
    rw [h.masked, htext, hf.start, Statement.startsAt_append, startsAfter_opened]
  have hname : (found.part? .name).map (String.ofList ·.text) = opening.scope := by
    rw [scope, ← hf.name, Option.map_map]
    rfl
  rw [findNamespace, hstarts, hf.stop, hname]
  rfl

/-- The openings are recorded one after another. -/
theorem foldlM_namespaces (h : Shown openings subject) {offset : Nat} {later : List Opening}
    {founds : List Match} (hall : ShowsAll offset later founds) {earlier : List Opening}
    (hsplit : openings = earlier ++ later) (hoffset : offset = Text.width (opened earlier))
    (scan : Scan) :
    founds.foldlM (Rule.step ⟨.masked, namespacePattern, findNamespace⟩ subject) scan =
      .ok { scan with blocks := (scopes offset later).reverse.map block ++ scan.blocks } := by
  induction hall generalizing earlier scan with
  | nil => rfl
  | @cons offset opening later found founds first others ih =>
    have hnext : offset + Text.width opening.head + 2 =
        Text.width (opened (earlier ++ [opening])) := by
      rw [opened_append, Text.width_append, width_opened_cons, hoffset, Nat.add_assoc]
      rfl
    have hstep : Rule.step ⟨.masked, namespacePattern, findNamespace⟩ subject scan found =
        .ok (scan.record (.block (offset + Text.width opening.head) (.scope opening.scope))) := by
      rw [hoffset] at first ⊢
      exact congrArg (Except.map scan.recordAll) (findNamespace_opening h hsplit first scan)
    rw [List.foldlM_cons, hstep]
    refine (ih (hsplit.trans (List.append_cons _ _ _)) hnext _).trans ?_
    rw [scopes, List.reverse_cons, List.map_append, List.append_assoc]
    rfl

theorem run_namespaces (h : Shown openings subject) :
    Yields (Rule.run ⟨.masked, namespacePattern, findNamespace⟩ subject .empty)
      (Holds openings) := by
  have hrun := foldlM_namespaces h (showsAll_findAll openings) (List.nil_append openings).symm rfl
    .empty
  rw [← h.masked] at hrun
  exact ⟨_, hrun, List.append_nil _, rfl, rfl, rfl⟩

/-! ## The function -/

/-- The function as it is recorded. -/
structure EntryShown (openings : List Opening) (entry : FunctionEntry) : Prop where
  name : entry.name = "f"
  parameters : entry.parameters = []
  returnType : entry.returnType = some "void"
  receiver : entry.receiver = none
  scope : entry.scope = scopeInside openings
  isExported : entry.isExported = !openings.any (·.name?.isNone)

/-- What stands behind the parameters. -/
def trailer (openings : List Opening) : Trailer := ⟨.body (Text.width (opened openings) + 9), none⟩

/-- What is known of the match of the function. -/
structure FunctionMatch (openings : List Opening) (found : Match) : Prop where
  start : found.start = Text.width (opened openings)
  stop : found.stop = Text.width (opened openings) + 7
  declaration : ∃ declaration, found.part? .declaration = some declaration
  name : found.part? .name = some ⟨Text.width (opened openings) + 5, ['f']⟩
  type : found.part? .type = some ⟨Text.width (opened openings), "void ".toList⟩
  modifiers : found.text .modifiers = []

theorem functionMatch (openings : List Opening) :
    FunctionMatch openings (functionFound.down (Text.width (opened openings))) := by
  refine ⟨?_, ?_, ⟨_, Match.part?_down _ _ _⟩, ?_, ?_, Match.text_down _ _ _⟩
  · rw [Match.start_down]
    exact Nat.zero_add _
  · rw [Match.stop_down, Nat.add_comm]
    rfl
  · rw [Match.part?_down, Nat.add_comm]
    rfl
  · rw [Match.part?_down]
    show some (Capture.mk (0 + Text.width (opened openings)) _) = _
    rw [Nat.zero_add]

section
variable (h : Shown openings subject)
include h

/-- In front of the name only `void` is declared. -/
theorem spelling_void : subject.spelling (Text.width (opened openings))
    (Text.width (opened openings) + 5) = .ok "void".toList := by
  have htext : text openings = opened openings ++
      (['v', 'o', 'i', 'd', ' '] ++ (['f', '('] ++ behind openings)) := rfl
  have hpart := SourceText.part_of_append _ htext
  rw [← h.stripped] at hpart
  rw [Subject.spelling, SourceText.strippedPart]
  exact (congrArg (Except.map Text.normalizeSpace) hpart).trans (by decide)

theorem find_parameters : Delimiter.find subject.masked (Text.width (opened openings) + 6) =
    ⟨Text.width (opened openings) + 7, true⟩ := by
  have htext : text openings = (opened openings ++ ['v', 'o', 'i', 'd', ' ', 'f']) ++
      '(' :: ([] ++ ')' :: ([' ', '\x7b', '\x7d'] ++ closed openings)) := by
    rw [List.append_assoc]
    rfl
  have hwidth : Text.width (opened openings) + 6 =
      Text.width (opened openings ++ ['v', 'o', 'i', 'd', ' ', 'f']) := by
    rw [Text.width_append]
    rfl
  rw [h.masked, htext, hwidth, Delimiter.find_of_balanced
    (rfl : Delimiter.closing? '(' = some ')') (rfl : Delimiter.balanced '(' ')' [] = true) rfl,
    ← hwidth]
  rfl

theorem parameters_eq : subject.source.strippedPart (Text.width (opened openings) + 7)
    (Text.width (opened openings) + 7) = .ok [] := by
  have htext : text openings = (opened openings ++ signature) ++ ([] ++ behind openings) :=
    (List.append_assoc _ _ _).symm
  have hpart := SourceText.part_of_append _ htext
  rw [Text.width_append, ← h.stripped] at hpart
  exact hpart

theorem trailer?_function : trailer? subject.masked (Text.width (opened openings) + 8) =
    .ok (some (trailer openings)) := by
  have htext : text openings = (opened openings ++ (signature ++ [')'])) ++
      ' ' :: '\x7b' :: '\x7d' :: closed openings := by
    rw [List.append_assoc, List.append_assoc]
    rfl
  have hbody := trailer?_body (opened openings ++ (signature ++ [')'])) ('\x7d' :: closed openings)
  rw [← htext, Text.width_append] at hbody
  rw [h.masked]
  exact hbody

theorem charAt?_body :
    Text.charAt? subject.masked (Text.width (opened openings) + 9) = some '\x7b' := by
  refine Text.charAt?_eq_some_iff.mpr
    ⟨opened openings ++ (signature ++ [')', ' ']), '\x7d' :: closed openings, ?_, ?_⟩
  · rw [h.masked, List.append_assoc, List.append_assoc]
    rfl
  · rw [Text.width_append]
    rfl

/-- The function as far as it is known before its body is read. -/
def functionHead (openings : List Opening) (declaration : Capture) : Head :=
  ⟨declaration, ['f'], none, [], some "void".toList, false, Text.width (opened openings) + 7,
    Text.width (opened openings) + 7, trailer openings⟩

/-- The function is recorded with what the openings make of its scope. -/
theorem functionFindings_function (hs : Holds openings scan)
    (hstart : found.start = Text.width (opened openings)) (declaration : Capture) :
    Yields (functionFindings subject scan found (functionHead openings declaration)) fun findings =>
      ∃ warnings entry, findings = warnings ++ [.function entry] ∧
        Finding.Among [.warning] warnings ∧ EntryShown openings entry := by
  rw [functionFindings, classAt?_eq_none hs.classes, hstart, scopeAt_function h hs,
    inAnonymousScope_function h hs]
  have hnone : Parameter.ofList parameterRules [] = [] := by decide
  refine Yields.bind_of_eq (parameters_eq h) ?_
  refine (h.of.body_yields (charAt?_body h)).some.bind fun result hresult => ?_
  obtain ⟨body, rfl, -⟩ := hresult
  exact .ok ⟨_, _, rfl, Finding.among_checkTerminated (by simp) _ _ _ _, rfl, hnone, rfl, rfl,
    rfl, rfl⟩

theorem findFunction_function (hs : Holds openings scan) (hf : FunctionMatch openings found) :
    Yields (findFunction subject scan found) fun findings => ∃ warnings entry,
      findings = warnings ++ [.function entry] ∧ Finding.Among [.warning] warnings ∧
        EntryShown openings entry := by
  obtain ⟨declaration, hdeclaration⟩ := hf.declaration
  have hsplit : splitQualified ['f'] = (none, ['f']) := by decide +kernel
  have hstarts : Statement.startsAt subject.masked found.start true = .ok true := by
    rw [h.masked, hf.start, text, Statement.startsAt_append, startsAfter_opened]
  have hreturn : declaredReturn subject found ⟨Text.width (opened openings) + 5, ['f']⟩ =
      .ok (some "void".toList) := by
    rw [declaredReturn, hf.type]
    dsimp only
    rw [spelling_void h]
    rfl
  have hhead : findHead subject scan found declaration ⟨Text.width (opened openings) + 5, ['f']⟩
      (some "void".toList) (Text.width (opened openings) + 7) (Text.width (opened openings) + 7)
      (trailer openings) = .ok (some (functionHead openings declaration)) := by
    rw [findHead, hsplit, hf.modifiers]
    rfl
  have hhere : isFunctionHere subject scan found (trailer openings) = true := by
    rw [isFunctionHere, hf.start, atTopLevel_function h hs]
    exact Bool.or_true _
  rw [findFunction, hdeclaration, hf.name]
  dsimp only
  rw [hsplit, hf.stop]
  refine Yields.bind_of_eq hstarts ?_
  rw [if_neg (by decide)]
  refine Yields.bind_of_eq hreturn ?_
  rw [if_neg (by decide)]
  have hparen : Text.width (opened openings) + 7 - 1 = Text.width (opened openings) + 6 := rfl
  rw [hparen, find_parameters h]
  dsimp only
  rw [if_pos rfl]
  refine Yields.bind_of_eq (trailer?_function h) ?_
  dsimp only
  refine Yields.bind_of_eq hhead ?_
  dsimp only
  rw [if_pos hhere]
  exact functionFindings_function h hs hf.start declaration

end

/-! ## The summary -/

/-- The function is all that is recorded, namespaces aside. -/
structure Recorded (openings : List Opening) (scan : Scan) : Prop where
  classes : scan.classes = []
  function : ∃ entry, scan.functions = [entry] ∧ EntryShown openings entry

/-- Warnings and errors change nothing about it. -/
theorem Recorded.record (h : Recorded openings scan) {finding : Finding}
    (hf : finding.kind ∈ [.error, .warning]) : Recorded openings (scan.record finding) := by
  cases finding with
  | error | warning => exact ⟨h.classes, h.function⟩
  | package | imported | block | classBody | label | abstractClass | method | property
  | function => exact absurd hf (by simp [Finding.kind])

theorem run_functions (h : Shown openings subject) (hs : Holds openings scan) :
    Yields (Rule.run ⟨.masked, functionPattern, findFunction⟩ subject scan)
      (Recorded openings) := by
  refine Rule.run_of_findAll_cons ((congrArg _ h.masked).trans (findAll_function openings))
    ((findFunction_function h hs (functionMatch openings)).mono ?_) nofun
  rintro _ ⟨warnings, entry, rfl, hwarnings, hentry⟩
  have hheld : Holds openings (scan.recordAll warnings) := by
    refine Scan.recordAll_of_among (fun scan hs finding hf => ?_) hwarnings hs
    cases finding with
    | warning => exact ⟨hs.blocks, hs.classes, hs.functions, hs.package⟩
    | package | imported | block | classBody | label | abstractClass | method | property
    | function | error => exact absurd hf (by simp [Finding.kind])
  rw [Scan.recordAll_append]
  refine ⟨hheld.classes, entry, ?_, hentry⟩
  show (scan.recordAll warnings).functions ++ [entry] = [entry]
  rw [hheld.functions, List.nil_append]

/-- Outside of classes no fields are recorded. -/
theorem run_fields (hs : Recorded openings scan) :
    Yields (Rule.run ⟨.masked, fieldPattern, findField⟩ subject scan) (Recorded openings) := by
  refine Rule.run_yields (fun scan hs found _ => ?_) hs
  have hnone : findField subject scan found = .ok [] := by
    rw [findField, classAt?_eq_none hs.classes]
    cases found.part? .type <;> cases found.part? .name <;> rfl
  exact ⟨[], hnone, hs⟩

theorem scan_text (openings : List Opening) :
    Yields (language.scan (language.subject (text openings))) (Recorded openings) := by
  have h := shown_subject openings
  generalize language.subject (text openings) = subject at h
  have hinclude : includePattern.findAll subject.source.text = [] :=
    Pattern.findAll_of_needs (show includePattern.needs '#' = true by decide)
      (h.text ▸ notMem_text openings (by decide +kernel))
  have hlinkage : linkagePattern.findAll subject.masked = [] :=
    Pattern.findAll_of_needs (show linkagePattern.needs '"' = true by decide)
      (h.masked ▸ notMem_text openings (by decide +kernel))
  have hclass : classPattern.findAll subject.masked = [] := by
    rw [h.masked, findAll_class]
  have haccess : accessPattern.findAll subject.masked = [] :=
    Pattern.findAll_of_needs (show accessPattern.needs ':' = true by decide)
      (h.masked ▸ notMem_text openings (by decide +kernel))
  rw [scan_eq]
  refine Yields.bind_of_eq (Rule.run_of_findAll_nil hinclude _) ?_
  refine (run_namespaces h).bind fun scan hs => ?_
  refine Yields.bind_of_eq (Rule.run_of_findAll_nil hlinkage _) ?_
  refine Yields.bind_of_eq (Rule.run_of_findAll_nil hclass _) ?_
  refine Yields.bind_of_eq (Rule.run_of_findAll_nil haccess _) ?_
  refine (run_functions h hs).bind fun scan hs => ?_
  exact run_fields hs

/-- A function inside of any number of namespaces is read back as the only function of the file,
and nothing else is a class.  Its scope joins the names of the openings that have one, from the
outermost inward; it is exported, and listed among the exports, if and only if all of them have
one. -/
theorem parse_namespaced (openings : List Opening) : ∃ entry,
    (Registry.cpp.parse (text openings)).functions = [entry] ∧
      (Registry.cpp.parse (text openings)).classes = [] ∧ entry.name = "f" ∧
      entry.parameters = [] ∧ entry.returnType = some "void" ∧
      entry.scope = scopeInside openings ∧
      (entry.isExported = true ↔ ∀ opening ∈ openings, opening.name? ≠ none) ∧
      (Registry.cpp.parse (text openings)).exports =
        if entry.isExported then [⟨"f", .functionExport, entry.startLine⟩] else [] := by
  obtain ⟨scan, hscan, hrecorded⟩ := scan_text openings
  obtain ⟨hclasses, entry, hfunctions, hentry⟩ :=
    Scan.recordAll_of_among (fun _ hs _ hf => hs.record hf)
      (language.hints_among (language.subject (text openings))) hrecorded
  have hparse : Registry.cpp.parse (text openings) =
      (scan.recordAll (language.hints (language.subject (text openings)))).finish "cpp" := by
    refine Extractor.parse_eq ?_
    show language.extract (text openings) = _
    rw [Language.extract, hscan]
    rfl
  generalize scan.recordAll (language.hints (language.subject (text openings))) = whole at *
  have hsorted : whole.functions.mergeSort (fun a b => a.startLine ≤ b.startLine) = [entry] := by
    rw [hfunctions, List.mergeSort_singleton]
  refine ⟨entry, ?_, ?_, hentry.name, hentry.parameters, hentry.returnType, hentry.scope, ?_, ?_⟩
  · rw [hparse]
    exact hsorted
  · rw [hparse, Scan.finish, hclasses]
    rfl
  · rw [hentry.isExported, Bool.not_eq_true', List.any_eq_false]
    simp
  · have hexport : Scan.exportOfFunction? entry =
        if entry.isExported then some ⟨"f", .functionExport, entry.startLine⟩ else none := by
      rw [Scan.exportOfFunction?, FunctionEntry.qualifiedName, hentry.receiver, hentry.name]
    rw [hparse, Scan.finish, hclasses, hsorted]
    show ([] ++ (Scan.exportOfFunction? entry).toList).mergeSort _ = _
    rw [hexport, List.nil_append]
    split
    · exact List.mergeSort_singleton _
    · exact List.mergeSort_nil

end Opening
end Cpp
end Outline
