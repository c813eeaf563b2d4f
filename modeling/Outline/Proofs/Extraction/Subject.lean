import Outline.Extraction.Declarator
import Outline.Extraction.Language
import Outline.Proofs.Declaration.Complexity
import Outline.Proofs.Declaration.Parameter
import Outline.Proofs.Extraction.Scan
import Outline.Proofs.Extraction.Statement
import Outline.Proofs.Pattern.Found
import Outline.Proofs.Text.Line

/-!
# What recognizers ask of a source

The views of a source are blankings of its text, so where a character of the
masked view is no space, all of them can be cut.  The readers that recognizers
call succeed when the offsets they are given are such places.
-/

namespace Outline

/-- The views and the lines of a subject are those of one text. -/
structure Subject.Of (text : List Char) (subject : Subject) : Prop where
  stripped : Blanks text subject.source.stripped
  masked : Blanks subject.source.stripped subject.masked
  index : subject.source.index = LineIndex.ofText text

theorem Language.subject_of (language : Language) (text : List Char) :
    (language.subject text).Of text :=
  ⟨Mask.blanks_stripped _ _, Mask.blanks_stripped_masked _ _, rfl⟩

/-- The checks of positions and sizes in the summary of a text with so many lines
and so many bytes. -/
def Checks.placed (lines width : Nat) : Checks :=
  { function := fun entry => 1 ≤ entry.startLine ∧ entry.startLine ≤ entry.endLine ∧
      entry.endLine ≤ lines ∧ 1 ≤ entry.complexity ∧ entry.complexity ≤ 1 + width
    classLines := fun start stop => 1 ≤ start ∧ start ≤ stop ∧ stop ≤ lines
    property := fun entry => 1 ≤ entry.line ∧ entry.line ≤ lines
    imported := fun entry => 1 ≤ entry.line ∧ entry.line ≤ lines
    diagnostic := fun diagnostic => 1 ≤ diagnostic.line ∧ diagnostic.line ≤ lines ∧
      1 ≤ diagnostic.column ∧ diagnostic.code ≠ some Summary.parseErrorCode }

/-- The checks for the summary of a text. -/
def Checks.ofText (text : List Char) : Checks := .placed (text.count '\n' + 1) (Text.width text)

namespace Subject

variable {text : List Char} {subject : Subject}

/-! ## Lines -/

theorem Of.lineOf_mono (_ : subject.Of text) {a b : Nat} (hab : a ≤ b) :
    subject.lineOf a ≤ subject.lineOf b := subject.source.index.lineOf_mono hab

theorem Of.one_le_lineOf (h : subject.Of text) (offset : Nat) : 1 ≤ subject.lineOf offset := by
  rw [lineOf, SourceText.lineOf, h.index]
  exact LineIndex.one_le_lineOf_ofText text offset

theorem Of.lineOf_le (h : subject.Of text) (offset : Nat) :
    subject.lineOf offset ≤ text.count '\n' + 1 := by
  rw [lineOf, SourceText.lineOf, h.index, ← LineIndex.lineCount_ofText]
  exact LineIndex.lineOf_le_lineCount _ _

theorem Of.width_masked (h : subject.Of text) : Text.width subject.masked = Text.width text := by
  rw [h.masked.width_eq, h.stripped.width_eq]

/-! ## Parts of the views -/

theorem Of.isBoundary_of_charAt? (h : subject.Of text) {offset : Nat} {c : Char} (hc : c ≠ ' ')
    (ho : Text.charAt? subject.masked offset = some c) :
    Text.IsBoundary subject.source.stripped offset ∧
      Text.IsBoundary subject.source.stripped (offset + c.utf8Size) :=
  h.masked.isBoundary_of_charAt? hc ho

/-- A part of a match that has no spaces starts where all views can be cut. -/
theorem Of.isBoundary_part (h : subject.Of text) {p : Pattern} {found : Match} {label : Part}
    {part : Capture} (hf : p.FoundIn subject.masked found) (hp : p.partAvoids label ' ' = true)
    (hpart : found.part? label = some part) :
    Text.IsBoundary subject.source.stripped part.start := by
  obtain ⟨_, c, hc, hne⟩ := hf.char_of_partAvoids ' ' hp hpart
  exact (h.isBoundary_of_charAt? hne hc).1

/-- A part of a match that has no space at its end stops where all views can be cut. -/
theorem Of.isBoundary_partStop (h : subject.Of text) {p : Pattern} {found : Match} {label : Part}
    {part : Capture} (hf : p.FoundIn subject.masked found)
    (hp : p.partAvoidsLast label ' ' = true) (hpart : found.part? label = some part) :
    Text.IsBoundary subject.source.stripped part.stop := by
  obtain ⟨front, last, htext, hne⟩ := hf.getLast_of_partAvoidsLast ' ' hp hpart
  obtain ⟨before, after, hm, hw⟩ := (hf.part_at hpart).1
  have hlast : Text.charAt? subject.masked (Text.width (before ++ front)) = some last := by
    refine Text.charAt?_eq_some_iff.mpr ⟨before ++ front, after, ?_, rfl⟩
    rw [hm, htext]
    simp only [List.append_assoc, List.singleton_append]
  have hstop : part.stop = Text.width (before ++ front) + last.utf8Size := by
    rw [Capture.stop, htext, ← hw]
    simp only [Text.width_append, Text.width_cons, Text.width_nil]
    omega
  rw [hstop]
  exact (h.isBoundary_of_charAt? hne hlast).2

theorem spelling_yields {start stop : Nat} (hs : Text.IsBoundary subject.source.stripped start)
    (he : Text.IsBoundary subject.source.stripped stop) (hle : start ≤ stop) :
    Yields (subject.spelling start stop) fun _ => True :=
  (SourceText.part_yields hs he hle).map fun _ _ => trivial

/-! ## Bodies -/

/-- What is known of a body that has been read. -/
structure BodyAt (subject : Subject) (text : List Char) (opening : Nat) (body : Body) : Prop where
  close : body.close = (Delimiter.find subject.masked opening).close
  terminated : body.terminated = (Delimiter.find subject.masked opening).terminated
  endLine : body.endLine = subject.lineOf body.close
  one_le_complexity : 1 ≤ body.complexity
  complexity_le : body.complexity ≤ 1 + Text.width text

theorem BodyAt.opening_le_close {opening : Nat} {body : Body} (h : subject.BodyAt text opening body)
    (ho : Text.charAt? subject.masked opening = some '\x7b') : opening ≤ body.close := by
  rw [h.close]
  exact Delimiter.le_find_close rfl ho

/-- A part of a view is no longer than the text is wide. -/
theorem Of.length_maskedPart_le (h : subject.Of text) {start stop : Nat} :
    Allows (subject.source.maskedPart start stop) fun part => part.length ≤ Text.width text := by
  intro part hp
  rw [SourceText.maskedPart, SourceText.part] at hp
  split at hp
  · next hslice =>
    cases hp
    obtain ⟨before, after, hm, _⟩ := Text.slice?_eq_some_iff.mp hslice
    have hw := congrArg Text.width hm
    have hwidth := h.width_masked
    have hle := Text.length_le_width part
    rw [Text.width_append, Text.width_append] at hw
    rw [Subject.masked] at hwidth
    omega
  · simp at hp

theorem Of.body_allows (h : subject.Of text) (opening : Nat) :
    Allows (subject.body opening) (subject.BodyAt text opening) := by
  rw [Subject.body]
  refine h.length_maskedPart_le.bind fun part hlen => .ok ⟨rfl, rfl, rfl, Nat.le_add_right _ _, ?_⟩
  exact Nat.le_trans (complexity_le part) (Nat.add_le_add_left hlen 1)

/-- A body that opens with a brace can be read. -/
theorem Of.body_yields (h : subject.Of text) {opening : Nat}
    (ho : Text.charAt? subject.masked opening = some '\x7b') :
    Yields (subject.body opening) (subject.BodyAt text opening) := by
  have hs : Text.IsBoundary subject.masked opening := by
    obtain ⟨before, after, hm, hw⟩ := Text.charAt?_eq_some_iff.mp ho
    exact (Text.isBoundary_of_char hm hw).1
  have he := Delimiter.isBoundary_find_close_succ rfl ho
  have hle := Delimiter.le_find_close rfl ho
  have hbody : Yields (subject.body opening) fun _ => True := by
    rw [Subject.body, Nat.min_eq_left he.le_width]
    exact (SourceText.part_yields hs he (by omega)).bind fun _ _ => .ok trivial
  obtain ⟨body, hok, _⟩ := hbody
  exact ⟨body, hok, h.body_allows opening body hok⟩

/-- A declaration in front of a body is on lines of the text, up to the end of the body. -/
theorem Of.bodyLines (h : subject.Of text) {opening start : Nat} {body : Body}
    (hbody : subject.BodyAt text opening body)
    (ho : Text.charAt? subject.masked opening = some '\x7b') (hs : start ≤ opening) :
    1 ≤ subject.lineOf start ∧ subject.lineOf start ≤ body.endLine ∧
      body.endLine ≤ text.count '\n' + 1 := by
  rw [hbody.endLine]
  exact ⟨h.one_le_lineOf _, h.lineOf_mono (Nat.le_trans hs (hbody.opening_le_close ho)),
    h.lineOf_le _⟩

theorem Of.checkTerminated_meets (h : subject.Of text) (body : Body) (name : List Char)
    (offset : Nat) : Finding.AllMeet (.ofText text) (subject.checkTerminated body name offset) := by
  rw [checkTerminated]
  split
  · exact Finding.allMeet_nil
  · refine Finding.allMeet_singleton ?_
    refine ⟨h.one_le_lineOf offset, h.lineOf_le offset, LineIndex.one_le_columnOf _ _ _, ?_⟩
    show some unterminatedCode ≠ some Summary.parseErrorCode
    decide

/-! ## Parameters -/

/-- The match of a function ends with the parenthesis that opens its parameters.
When the parenthesis closes, the parameters lie between two places where the
views can be cut, after the place where the declaration starts. -/
structure ParametersAt (subject : Subject) (found : Match) (declaration : Capture)
    (close : Nat) : Prop where
  starts : Text.IsBoundary subject.source.stripped (found.stop - 1 + 1)
  stops : Text.IsBoundary subject.source.stripped close
  le : found.stop - 1 + 1 ≤ close
  declared : declaration.start ≤ close
  goesOn : Text.IsBoundary subject.masked (close + 1)

/-- Whether the matches of a pattern are declarations of functions up to the
parenthesis after the name. -/
def declaresFunction (pattern : Pattern) : Bool :=
  pattern.closesWith '(' && pattern.startsBefore .declaration .name
    && pattern.partAvoids .name ' '

theorem Of.parametersAt (h : subject.Of text) {p : Pattern} {found : Match}
    (hf : p.FoundIn subject.masked found) (hp : declaresFunction p = true)
    {declaration name : Capture} (hdecl : found.part? .declaration = some declaration)
    (hname : found.part? .name = some name)
    (ht : (Delimiter.find subject.masked (found.stop - 1)).terminated = true) :
    subject.ParametersAt found declaration
      (Delimiter.find subject.masked (found.stop - 1)).close := by
  simp only [declaresFunction, Bool.and_eq_true] at hp
  obtain ⟨⟨hlast, hbefore⟩, havoids⟩ := hp
  obtain ⟨hparen, _⟩ := hf.charAt?_of_closesWith '(' hlast (by decide)
  obtain ⟨hclose, hle⟩ := Delimiter.charAt?_find_close rfl hparen ht
  have hnamed := hf.start_le_of_startsBefore hbefore hdecl hname
  obtain ⟨hlt, _⟩ := hf.char_of_partAvoids ' ' havoids hname
  have hstop := (hf.part_at hname).2.2
  exact ⟨(h.isBoundary_of_charAt? (by decide) hparen).2,
    (h.isBoundary_of_charAt? (by decide) hclose).1, hle, by omega,
    Delimiter.isBoundary_find_close_succ rfl hparen⟩

/-! ## Declarators -/

/-- A piece of a list stands where it says: at the start of the list or behind a comma, and up to
a comma or the end of the list. -/
theorem mem_piecesWithOffsets {pieces : List (List Char)} (before : List Char) {offset : Nat}
    {piece : List Char} (h : (offset, piece) ∈ piecesWithOffsets (Text.width before) pieces) :
    ∃ front back, before ++ Text.join [','] pieces = front ++ (piece ++ back) ∧
      Text.width front = offset ∧ (front = before ∨ ∃ lead, front = lead ++ [',']) ∧
      (back = [] ∨ ∃ more, back = ',' :: more) := by
  induction pieces generalizing before with
  | nil => exact nomatch h
  | cons first pieces ih =>
    rw [piecesWithOffsets] at h
    cases pieces with
    | nil =>
      obtain ⟨rfl, rfl⟩ := Prod.mk.inj (List.mem_singleton.mp h)
      refine ⟨before, [], ?_, rfl, .inl rfl, .inl rfl⟩
      rw [Text.join, List.intercalate_singleton, List.append_nil]
    | cons next pieces =>
      have hjoin : Text.join [','] (first :: next :: pieces) =
          first ++ ',' :: Text.join [','] (next :: pieces) := by
        rw [Text.join, List.intercalate_cons_cons, List.append_assoc]
        rfl
      rw [hjoin]
      rcases List.mem_cons.mp h with heq | h
      · obtain ⟨rfl, rfl⟩ := Prod.mk.inj heq
        exact ⟨before, _, rfl, rfl, .inl rfl, .inr ⟨_, rfl⟩⟩
      · have hw : Text.width (before ++ first ++ [',']) =
            Text.width before + Text.width first + 1 := by
          rw [Text.width_append, Text.width_append]
          rfl
        rw [← hw] at h
        obtain ⟨front, back, heq, hwidth, hfront, hback⟩ := ih _ h
        refine ⟨front, back, ?_, hwidth, .inr ?_, hback⟩
        · rw [← heq]
          simp only [List.append_assoc, List.singleton_append]
        · rcases hfront with rfl | hlead
          · exact ⟨_, rfl⟩
          · exact hlead

/-- The pieces between commas of the masked view lie between places where the
other views can be cut, too. -/
theorem isBoundary_piecesWithOffsets {source masked : List Char} (hb : Blanks source masked)
    (pieces : List (List Char)) (before after : List Char)
    (hm : masked = before ++ Text.join [','] pieces ++ after)
    (hs : Text.IsBoundary source (Text.width before))
    (he : Text.IsBoundary source (Text.width (before ++ Text.join [','] pieces))) :
    ∀ entry ∈ piecesWithOffsets (Text.width before) pieces,
      Text.IsBoundary source entry.1 ∧ Text.IsBoundary source (entry.1 + Text.width entry.2) := by
  rintro ⟨offset, piece⟩ hentry
  obtain ⟨front, back, heq, rfl, hfront, hback⟩ := mem_piecesWithOffsets before hentry
  rw [heq] at hm he
  have hcomma : ∀ lead more, masked = lead ++ ',' :: more →
      Text.IsBoundary source (Text.width lead) ∧ Text.IsBoundary source (Text.width lead + 1) :=
    fun lead more h => hb.isBoundary_of_charAt? (by decide)
      (Text.charAt?_eq_some_iff.mpr ⟨lead, more, h, rfl⟩)
  constructor
  · rcases hfront with rfl | ⟨lead, rfl⟩
    · exact hs
    · rw [Text.width_append]
      refine (hcomma lead (piece ++ back ++ after) ?_).2
      rw [hm]
      simp only [List.append_assoc, List.cons_append, List.nil_append]
  · show Text.IsBoundary source (Text.width front + Text.width piece)
    rw [← Text.width_append]
    rcases hback with rfl | ⟨more, rfl⟩
    · rwa [List.append_nil] at he
    · refine (hcomma (front ++ piece) (more ++ after) ?_).1
      rw [hm]
      simp only [List.append_assoc, List.cons_append]

/-- A list of declarators is read to its end from a name that is kept in all
views. -/
theorem Of.declarators_yields (h : subject.Of text) (leading : Pattern) {start : Nat}
    (hm : Text.IsBoundary subject.masked start)
    (hs : Text.IsBoundary subject.source.stripped start) :
    Yields (subject.declarators leading start) fun _ => True := by
  have hend := Statement.isBoundary_endAt h.masked hm
  obtain ⟨hle, _⟩ := Statement.endAt_spec hm
  rw [Subject.declarators]
  refine (SourceText.part_yields hm (h.masked.isBoundary hend) hle).bind fun list hslice => ?_
  obtain ⟨before, after, hmasked, hw, hstop⟩ := Text.slice?_eq_some_iff.mp hslice
  have hpieces := isBoundary_piecesWithOffsets h.masked (splitTopLevel ',' list) before after
    (by rw [join_splitTopLevel]; exact hmasked)
    (by rw [hw]; exact hs) (by rw [join_splitTopLevel, hstop]; exact hend)
  rw [hw] at hpieces
  refine (Yields.mapM fun entry hentry => ?_).bind fun _ _ => .ok trivial
  obtain ⟨hos, hoe⟩ := hpieces entry hentry
  exact (SourceText.part_yields hos hoe (Nat.le_add_right _ _)).bind fun _ _ => .ok trivial

end Subject
end Outline
