import Outline.Extraction.Java.Rule
import Outline.Proofs.Extraction.Language
import Outline.Proofs.Pattern.Found

/-!
# What the recognizers of Java find

A recognizer may give the extraction up, at the header of a record for one.  What
it finds when it does not stands on lines of the text, in order.
-/

namespace Outline
namespace Java

open Finding (allMeet_nil allMeet_singleton)

variable {text : List Char} {subject : Subject} {scan : Scan} {found : Match}

/-! ## Packages and imports -/

theorem findPackage_allows :
    Allows (findPackage subject scan found) (Finding.AllMeet (.ofText text)) := by
  refine (allows_true _).bind fun starts _ => ?_
  split
  · exact .ok (allMeet_singleton trivial)
  · exact .ok allMeet_nil

theorem findImport_allows (h : subject.Of text) :
    Allows (findImport subject scan found) (Finding.AllMeet (.ofText text)) := by
  refine (allows_true _).bind fun live _ => ?_
  split
  · exact .ok (allMeet_singleton ⟨h.one_le_lineOf _, h.lineOf_le _⟩)
  · exact .ok allMeet_nil

/-! ## Types -/

/-- Fields that stand on lines of the text. -/
theorem allMeet_properties {α : Type} (h : subject.Of text) (index : Nat) (fields : List α)
    (entryOf : α → PropertyEntry) (offsetOf : α → Nat)
    (hline : ∀ a, (entryOf a).line = subject.lineOf (offsetOf a)) :
    Finding.AllMeet (.ofText text) (fields.map fun a => .property index (entryOf a)) := by
  intro finding hf
  obtain ⟨a, _, rfl⟩ := List.mem_map.mp hf
  show 1 ≤ (entryOf a).line ∧ (entryOf a).line ≤ text.count '\n' + 1
  rw [hline]
  exact ⟨h.one_le_lineOf _, h.lineOf_le _⟩

theorem recordComponents_allows (h : subject.Of text) (index : Nat) (range : Option (Nat × Nat)) :
    Allows (recordComponents subject index range) (Finding.AllMeet (.ofText text)) := by
  unfold recordComponents
  split
  · exact .ok allMeet_nil
  · next start stop =>
    refine (allows_true _).bind fun text' _ => .ok ?_
    exact allMeet_properties h index _ _ (fun _ => start) fun _ => rfl

theorem enumConstants_allows (h : subject.Of text) (index opening : Nat) (enumName : List Char) :
    Allows (enumConstants subject index opening enumName) (Finding.AllMeet (.ofText text)) := by
  refine (allows_true _).bind fun list _ => .ok ?_
  intro finding hf
  obtain ⟨⟨offset, piece⟩, _, hpiece⟩ := List.mem_filterMap.mp hf
  obtain ⟨name, _, rfl⟩ := Option.map_eq_some_iff.mp hpiece
  exact ⟨h.one_le_lineOf _, h.lineOf_le _⟩

theorem typeFindings_allows (h : subject.Of text) {declaration name : Capture} {opening : Nat}
    (hopen : Text.charAt? subject.masked opening = some '\x7b')
    (hdecl : declaration.start ≤ opening) :
    Allows (typeFindings subject scan found declaration name opening)
      (Finding.AllMeet (.ofText text)) := by
  rw [typeFindings]
  refine (allows_true _).bind fun header _ => (allows_true _).bind fun supertypes _ => ?_
  refine (h.body_allows opening).bind fun body hbody => ?_
  refine (recordComponents_allows h _ _).bind fun components hcomponents => ?_
  have hlines := h.bodyLines hbody hopen hdecl
  have hall : ∀ draft : ClassDraft, draft.entry.startLine = subject.lineOf declaration.start →
      draft.entry.endLine = body.endLine → draft.entry.methods = [] → draft.entry.properties = [] →
      ∀ constants, Finding.AllMeet (.ofText text) constants →
        Finding.AllMeet (.ofText text) ([.classBody draft]
          ++ subject.checkTerminated body name.text declaration.start
          ++ components ++ constants) := by
    intro draft hstart hend hmethods hproperties constants hconstants
    have hdraft : draft.entry.Meets (.ofText text) := by
      refine ⟨?_, by simp [hmethods], by simp [hproperties]⟩
      rw [hstart, hend]
      exact hlines
    exact .append (.append (.append (allMeet_singleton hdraft) (h.checkTerminated_meets _ _ _))
      hcomponents) hconstants
  dsimp only
  split
  · refine (enumConstants_allows h _ _ _).bind fun constants hconstants => .ok ?_
    exact hall _ rfl rfl rfl rfl _ hconstants
  · exact .ok (hall _ rfl rfl rfl rfl _ allMeet_nil)

theorem findType_allows (h : subject.Of text) (hf : typePattern.FoundIn subject.masked found) :
    Allows (findType subject scan found) (Finding.AllMeet (.ofText text)) := by
  rw [findType]
  split
  · next declaration name hdecl hname =>
    refine (allows_true _).bind fun starts _ => ?_
    split
    · split
      · next opening hbody =>
        have hstop := (hf.part_at hname).1.isBoundary_stop
        obtain ⟨hopen, hle⟩ := Statement.charAt?_bodyOpen? hstop hbody
        have hbefore := hf.start_le_of_startsBefore (by decide) hdecl hname
        have hname' : name.start ≤ name.stop := Nat.le_add_right _ _
        exact typeFindings_allows h hopen (by omega)
      · exact .ok allMeet_nil
    · exact .ok allMeet_nil
  · exact .ok allMeet_nil

/-! ## Methods -/

/-- Where a trailer stands. -/
def Trailer.offset : Trailer → Nat
  | .body opening => opening
  | .declaration stop => stop

/-- A trailer comes at or after the offset it is read from, and a body opens with
its brace. -/
theorem trailer?_yields {masked : List Char} {start : Nat} (hs : Text.IsBoundary masked start) :
    Yields (trailer? masked start) fun trailer => ∀ t, trailer = some t →
      start ≤ t.offset ∧ ∀ opening, t = .body opening →
        Text.charAt? masked opening = some '\x7b' := by
  have hskip := Text.isBoundary_skipBlanks (Or.inl hs)
  have hle := Text.le_skipBlanks hs.le_width
  rw [trailer?]
  refine (SourceText.tailFrom_yields hskip).bind fun rest _ => .ok ?_
  intro t ht
  obtain ⟨stop, hstop, ht⟩ := Option.bind_eq_some_iff.mp ht
  have hstart : start ≤ stop := by
    split at hstop
    · obtain ⟨n, _, rfl⟩ := Option.map_eq_some_iff.mp hstop
      exact Nat.le_trans hle (Nat.le_add_right _ _)
    · cases hstop
      exact hle
  split at ht
  · next hbrace =>
    cases ht
    refine ⟨hstart, fun opening ho => ?_⟩
    cases ho
    exact hbrace
  · cases ht
    exact ⟨hstart, by simp⟩
  · simp at ht

/-- The body of a method or its last character comes after its start. -/
theorem methodFindings_allows (h : subject.Of text) {declaration name : Capture}
    {parametersStart parametersStop : Nat} {trailer : Trailer}
    (hdecl : declaration.start ≤ trailer.offset)
    (hbrace : ∀ opening, trailer = .body opening →
      Text.charAt? subject.masked opening = some '\x7b') :
    Allows (methodFindings subject scan found declaration name parametersStart parametersStop
      trailer) (Finding.AllMeet (.ofText text)) := by
  rw [methodFindings]
  refine (allows_true _).bind fun returnType _ => (allows_true _).bind fun parametersText _ => ?_
  cases trailer with
  | body opening =>
    have hopen := hbrace opening rfl
    refine (h.body_allows opening).some.bind fun result hresult => ?_
    obtain ⟨body, rfl, hbody⟩ := hresult
    obtain ⟨hfirst, hlines, hlast⟩ := h.bodyLines hbody hopen hdecl
    refine .ok ((h.checkTerminated_meets _ _ _).append (allMeet_singleton ?_))
    split
    · exact ⟨hfirst, hlines, hlast, hbody.one_le_complexity, hbody.complexity_le⟩
    · exact ⟨hfirst, hlines, hlast, hbody.one_le_complexity, hbody.complexity_le⟩
  | declaration stop =>
    have hlines := h.lineOf_mono hdecl
    refine .ok (allMeet_singleton ?_)
    split
    · exact ⟨h.one_le_lineOf _, hlines, h.lineOf_le _, Nat.le_refl _, Nat.le_add_right _ _⟩
    · exact ⟨h.one_le_lineOf _, hlines, h.lineOf_le _, Nat.le_refl _, Nat.le_add_right _ _⟩

theorem findMethod_allows (h : subject.Of text) (hf : methodPattern.FoundIn subject.masked found) :
    Allows (findMethod subject scan found) (Finding.AllMeet (.ofText text)) := by
  rw [findMethod]
  split
  · next declaration name hdecl hname =>
    refine (allows_true _).bind fun starts _ => ?_
    split
    · exact .ok allMeet_nil
    · dsimp only
      split
      · next hterminated =>
        have hp := h.parametersAt hf (by decide) hdecl hname hterminated
        refine (trailer?_yields hp.goesOn).allows.bind fun trailer? ht => ?_
        split
        · next trailer =>
          obtain ⟨hafter, hbrace⟩ := ht trailer rfl
          have hdeclared := hp.declared
          split
          · exact methodFindings_allows h (by omega) hbrace
          · exact .ok allMeet_nil
        · exact .ok allMeet_nil
      · exact .ok allMeet_nil
  · exact .ok allMeet_nil

/-! ## Fields -/

theorem findField_allows (h : subject.Of text) :
    Allows (findField subject scan found) (Finding.AllMeet (.ofText text)) := by
  rw [findField]
  split
  · refine (allows_true _).bind fun starts _ => ?_
    split
    · exact .ok allMeet_nil
    · refine (allows_true _).bind fun typeText _ => (allows_true _).bind fun fields _ => .ok ?_
      exact allMeet_properties h _ _ _ (fun field => field.1) fun _ => rfl
  · exact .ok allMeet_nil

/-! ## Places to cut

The recognizers cut a view where a match or one of its parts starts or stops, or where a
delimiter, a comma or a name stands in the masked view.  Only the header of a record may be cut
out of order. -/

theorem findPackage_yields (hf : packagePattern.FoundIn subject.masked found) :
    Yields (findPackage subject scan found) fun _ => True := by
  refine (Statement.startsAt_yields hf.whole_at.isBoundary_start false).bind fun starts _ => ?_
  split
  · exact .ok trivial
  · exact .ok trivial

/-- An import is found in the text itself, and where a text can be cut its masked view can. -/
theorem findImport_yields (h : subject.Of text) (hf : importPattern.FoundIn text found) :
    Yields (findImport subject scan found) fun _ => True := by
  have hstart := h.masked.isBoundary (h.stripped.isBoundary hf.whole_at.isBoundary_start)
  refine (SourceText.tailFrom_yields hstart).bind fun live _ => ?_
  split
  · exact .ok trivial
  · exact .ok trivial

/-! ### Types -/

/-- A clause ends where the next one starts, or with the header. -/
theorem clausesFrom_yields {header : List Char} {keywords : List Capture}
    (hat : ∀ keyword ∈ keywords, keyword.At header)
    (hord : keywords.Pairwise fun a b => a.stop ≤ b.start) :
    Yields (clausesFrom header keywords) fun _ => True := by
  induction keywords with
  | nil => exact .ok trivial
  | cons keyword rest ih =>
    obtain ⟨hfirst, hrest⟩ := List.pairwise_cons.mp hord
    have hstart := (hat keyword List.mem_cons_self).isBoundary_stop
    have hstop : Text.IsBoundary header ((rest.head?.map (·.start)).getD (Text.width header)) ∧
        keyword.stop ≤ (rest.head?.map (·.start)).getD (Text.width header) := by
      cases rest with
      | nil => exact ⟨Text.isBoundary_width header, hstart.le_width⟩
      | cons next rest =>
        exact ⟨(hat next (by simp)).isBoundary_start, hfirst next List.mem_cons_self⟩
    obtain ⟨slice, hslice⟩ := Text.slice?_isSome hstart hstop.1 hstop.2
    have hlater := ih (fun keyword h => hat keyword (List.mem_cons_of_mem _ h)) hrest
    rw [clausesFrom]
    dsimp only
    rw [hslice]
    exact hlater.bind fun later _ => .ok trivial

theorem clauses_yields (header : List Char) : Yields (clauses header) fun _ => True := by
  have hfound : ∀ found ∈ clausePattern.findAll header, clausePattern.FoundIn header found :=
    fun found hf => Pattern.foundIn_of_mem_findAll hf
  refine clausesFrom_yields ?_ ?_
  · intro keyword hk
    obtain ⟨found, hf, hpart⟩ := List.mem_filterMap.mp hk
    exact ((hfound found hf).part_at hpart).1
  · refine List.pairwise_filterMap.mpr ?_
    refine (clausePattern.pairwise_stop_findAll header).imp_of_mem ?_
    intro a b ha hb hle x hx y hy
    have hstop := ((hfound a ha).part_at hx).2.2
    have hstart := ((hfound b hb).part_at hy).2.1
    exact Nat.le_trans hstop (Nat.le_trans hle hstart)

/-- Unless it is a record, the header of a type starts behind its type parameters. -/
theorem headerStart_of_ne {masked : List Char} {kind : ClassKind} (hk : kind ≠ .record)
    {nameStop : Nat} (hn : Text.IsBoundary masked nameStop) :
    Text.IsBoundary masked (headerStart masked kind nameStop).1 ∧
      (headerStart masked kind nameStop).2 = none := by
  have hskip := Text.isBoundary_skipBlanks (Or.inl hn)
  rw [headerStart]
  simp only [hk, false_and, if_false, and_true]
  split
  · next hangle =>
    exact Text.isBoundary_skipBlanks (.inl (Delimiter.isBoundary_find_close_succ rfl hangle))
  · exact hskip

theorem enumConstants_yields (h : subject.Of text) (index : Nat) {opening : Nat}
    (enumName : List Char) (hopen : Text.charAt? subject.masked opening = some '\x7b') :
    Yields (enumConstants subject index opening enumName) fun _ => True := by
  obtain ⟨before, after, hm, hw⟩ := Text.charAt?_eq_some_iff.mp hopen
  have hstart : Text.IsBoundary subject.masked (opening + 1) := (Text.isBoundary_of_char hm hw).2
  have hstop := h.masked.isBoundary (Statement.isBoundary_endAt h.masked hstart)
  rw [enumConstants]
  exact (SourceText.part_yields hstart hstop (Statement.endAt_spec hstart).1).bind
    fun list _ => .ok trivial

theorem typeFindings_yields (h : subject.Of text) {declaration name : Capture} {opening : Nat}
    (hk : kindOf (found.text .kind) ≠ .record) (hn : Text.IsBoundary subject.masked name.stop)
    (hopen : Text.charAt? subject.masked opening = some '\x7b') :
    Yields (typeFindings subject scan found declaration name opening) fun _ => True := by
  obtain ⟨hcursor, hcomponents⟩ := headerStart_of_ne hk hn
  obtain ⟨before, after, hm, hw⟩ := Text.charAt?_eq_some_iff.mp hopen
  have hopening := (Text.isBoundary_of_char hm hw).1
  have hstart : Text.IsBoundary subject.masked
      (min (headerStart subject.masked (kindOf (found.text .kind)) name.stop).1 opening) := by
    rcases Nat.le_total (headerStart subject.masked (kindOf (found.text .kind)) name.stop).1 opening
      with hle | hle
    · rwa [Nat.min_eq_left hle]
    · rwa [Nat.min_eq_right hle]
  rw [typeFindings]
  dsimp only
  rw [hcomponents]
  refine (SourceText.part_yields hstart hopening (Nat.min_le_right _ _)).bind fun header _ => ?_
  refine ((clauses_yields header).map fun _ _ => trivial).bind (P := fun _ => True)
    fun supertypes _ => ?_
  refine (h.body_yields hopen).bind fun body _ => ?_
  refine (Yields.ok (P := fun _ => True) trivial).bind fun components _ => ?_
  split
  · exact (enumConstants_yields h _ name.text hopen).bind fun constants _ => .ok trivial
  · exact .ok trivial

theorem findType_yields (h : subject.Of text) (hf : typePattern.FoundIn subject.masked found)
    (hk : kindOf (found.text .kind) ≠ .record) :
    Yields (findType subject scan found) fun _ => True := by
  rw [findType]
  split
  · next declaration name hdecl hname =>
    refine (Statement.startsAt_yields hf.whole_at.isBoundary_start false).bind fun starts _ => ?_
    split
    · split
      · next opening hbody =>
        have hstop := (hf.part_at hname).1.isBoundary_stop
        exact typeFindings_yields h hk hstop (Statement.charAt?_bodyOpen? hstop hbody).1
      · exact .ok trivial
    · exact .ok trivial
  · exact .ok trivial

/-! ### Methods -/

theorem declaredReturn_yields (h : subject.Of text)
    (hf : methodPattern.FoundIn subject.masked found) :
    Yields (declaredReturn subject found) fun _ => True := by
  unfold declaredReturn
  split
  · next type htype =>
    have hspelled : Yields (subject.spelling type.start type.stop) fun _ => True :=
      Subject.spelling_yields (h.isBoundary_part hf (by decide) htype)
        (h.isBoundary_partStop hf (by decide) htype) (Nat.le_add_right _ _)
    exact hspelled.map fun _ _ => trivial
  · exact .ok trivial

theorem methodFindings_yields (h : subject.Of text)
    (hf : methodPattern.FoundIn subject.masked found) {declaration name : Capture} {close : Nat}
    (hp : subject.ParametersAt found declaration close) {trailer : Trailer}
    (hbrace : ∀ opening, trailer = .body opening →
      Text.charAt? subject.masked opening = some '\x7b') :
    Yields (methodFindings subject scan found declaration name (found.stop - 1 + 1) close trailer)
      fun _ => True := by
  rw [methodFindings]
  refine (declaredReturn_yields h hf).bind fun returnType _ => ?_
  refine (SourceText.part_yields hp.starts hp.stops hp.le).bind fun parametersText _ => ?_
  cases trailer with
  | body opening =>
    exact (h.body_yields (hbrace opening rfl)).some.bind fun result _ => .ok trivial
  | declaration stop => exact .ok trivial

theorem findMethod_yields (h : subject.Of text)
    (hf : methodPattern.FoundIn subject.masked found) :
    Yields (findMethod subject scan found) fun _ => True := by
  rw [findMethod]
  split
  · next declaration name hdecl hname =>
    refine (Statement.startsAt_yields hf.whole_at.isBoundary_start false).bind fun starts _ => ?_
    split
    · exact .ok trivial
    · dsimp only
      split
      · next hterminated =>
        have hp := h.parametersAt hf (by decide) hdecl hname hterminated
        refine (trailer?_yields hp.goesOn).bind fun trailer? ht => ?_
        split
        · next trailer =>
          split
          · exact methodFindings_yields h hf hp (ht trailer rfl).2
          · exact .ok trivial
        · exact .ok trivial
      · exact .ok trivial
  · exact .ok trivial

/-! ### Fields -/

theorem findField_yields (h : subject.Of text) (hf : fieldPattern.FoundIn subject.masked found) :
    Yields (findField subject scan found) fun _ => True := by
  rw [findField]
  split
  · next type name index draft htype hname _ =>
    refine (Statement.startsAt_yields hf.whole_at.isBoundary_start false).bind fun starts _ => ?_
    split
    · exact .ok trivial
    · have hstart := h.isBoundary_part hf (by decide) htype
      have hstop := h.isBoundary_partStop hf (by decide) htype
      refine (Subject.spelling_yields hstart hstop (Nat.le_add_right _ _)).bind fun spelled _ => ?_
      exact (h.declarators_yields leadingName (hf.part_at hname).1.isBoundary_start
        (h.isBoundary_part hf (by decide) hname)).bind fun fields _ => .ok trivial
  · exact .ok trivial

/-! ## The language -/

/-- The rules run one after the other. -/
theorem scan_eq (subject : Subject) : language.scan subject =
    Rule.run ⟨.masked, packagePattern, findPackage⟩ subject .empty >>= fun scan =>
    Rule.run ⟨.full, importPattern, findImport⟩ subject scan >>= fun scan =>
    Rule.run ⟨.masked, typePattern, findType⟩ subject scan >>= fun scan =>
    Rule.run ⟨.masked, methodPattern, findMethod⟩ subject scan >>= fun scan =>
    Rule.run ⟨.masked, fieldPattern, findField⟩ subject scan := by
  simp only [Language.scan, language, List.foldlM_cons, List.foldlM_nil, bind_pure]

theorem gives_of_mem_rules (text : List Char) :
    ∀ rule ∈ language.rules, rule.Gives (.ofText text) (language.subject text) := by
  have h := language.subject_of text
  intro rule hr scan found hm
  have hf := Pattern.foundIn_of_mem_findAll hm
  simp only [language, List.mem_cons, List.not_mem_nil, or_false] at hr
  rcases hr with rfl | rfl | rfl | rfl | rfl <;> dsimp only
  · exact findPackage_allows
  · exact findImport_allows h
  · exact findType_allows h hf
  · exact findMethod_allows h hf
  · exact findField_allows h

/-- A type is no record when the masked view does not have the word. -/
theorem kindOf_ne_record (h : ¬ "record".toList <:+: subject.masked)
    (hf : typePattern.FoundIn subject.masked found) : kindOf (found.text .kind) ≠ .record := by
  intro hkind
  have htext : found.text .kind = "record".toList := by
    unfold kindOf at hkind
    split at hkind
    · exact nomatch hkind
    · split at hkind
      · exact nomatch hkind
      · split at hkind
        · assumption
        · exact nomatch hkind
  rw [Match.text] at htext
  cases hpart : found.part? .kind with
  | none =>
    rw [hpart] at htext
    exact absurd htext (by decide)
  | some kind =>
    rw [hpart] at htext
    obtain ⟨before, after, hm, _⟩ := (hf.part_at hpart).1
    exact h ⟨before, after, by rw [← htext]; exact hm.symm⟩

/-- No rule gives a text without records up. -/
theorem ensures_of_mem_rules (text : List Char)
    (hrecord : ¬ "record".toList <:+: (language.subject text).masked) :
    ∀ rule ∈ language.rules, rule.Ensures (.ofText text) (language.subject text) := by
  have h := language.subject_of text
  intro rule hr scan found hm
  refine Yields.with_allows (P := fun _ => True) ?_ (gives_of_mem_rules text rule hr scan found hm)
  have hf := Pattern.foundIn_of_mem_findAll hm
  simp only [language, List.mem_cons, List.not_mem_nil, or_false] at hr
  rcases hr with rfl | rfl | rfl | rfl | rfl <;> dsimp only
  · exact findPackage_yields hf
  · exact findImport_yields h hf
  · exact findType_yields h hf (kindOf_ne_record hrecord hf)
  · exact findMethod_yields h hf
  · exact findField_yields h hf

/-! ## Where nothing may start -/

/-- Where no declaration may start, none is found in the masked view. -/
theorem apply_of_not_starts {rule : Rule} (hr : rule ∈ language.rules) (hv : rule.view = .masked)
    {subject : Subject} {found : Match}
    (hs : Statement.startsAt subject.masked found.start false = .ok false) (scan : Scan) :
    rule.apply subject scan found = .ok [] := by
  simp only [language, List.mem_cons, List.not_mem_nil, or_false] at hr
  rcases hr with rfl | rfl | rfl | rfl | rfl
  · show findPackage subject scan found = _
    rw [findPackage, hs]
    show (if scan.package.isNone && false then _ else Except.ok []) = Except.ok []
    rw [Bool.and_false, if_neg Bool.false_ne_true]
  · cases hv
  · show findType subject scan found = _
    rw [findType.eq_def]
    split
    · rw [hs]
      rfl
    · rfl
  · show findMethod subject scan found = _
    rw [findMethod.eq_def]
    split
    · next name _ _ =>
      rw [hs]
      show (if oneOfWords keywords name.text || !false || oneOfWords keywords (found.text .type) then
        Except.ok [] else _) = Except.ok []
      rw [Bool.not_false, Bool.or_true, Bool.true_or, if_pos rfl]
    · rfl
  · show findField subject scan found = _
    rw [findField.eq_def]
    split
    · next type _ _ _ _ _ _ =>
      rw [hs]
      show (if oneOfWords keywords type.text || !false then Except.ok [] else _) = Except.ok []
      rw [Bool.not_false, Bool.or_true, if_pos rfl]
    · rfl

end Java
end Outline
