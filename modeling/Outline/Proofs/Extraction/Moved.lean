import Outline.Proofs.Extraction.Inserted
import Outline.Proofs.Extraction.Outcome
import Outline.Proofs.Source.Inserted

/-!
# Subjects that differ by an aspect

One of two subjects is the other further down, and what an aspect leaves out may be
something else in it.  Whatever recognizers ask of the two, they get the same answers,
further down.  So a rule tells the same of both when it does of each of its matches.
-/

namespace Outline

open Text (lower)

/-- The second subject is the first one further down, as far as an aspect shows them. -/
structure Subject.Moved (aspect : Aspect) (s t : Subject) : Prop where
  masked : t.masked = lower aspect.lines s.masked
  stripped : t.source.stripped = lower aspect.lines s.source.stripped
  enclosingChain : ∀ offset, t.source.braces.enclosingChain (offset + aspect.lines) =
    (s.source.braces.enclosingChain offset).map (· + aspect.lines)
  lineOf : ∀ offset, t.lineOf (offset + aspect.lines) = s.lineOf offset + aspect.lines
  dependencies : t.dependencies = s.dependencies
  text : aspect.bare = false → t.source.text = lower aspect.lines s.source.text
  columnOf : aspect.bare = false → ∀ offset,
    t.source.columnOf (offset + aspect.lines) = s.source.columnOf offset
  docstring : aspect.bare = false → ∀ offset skipped,
    t.docstring (offset + aspect.lines) skipped = s.docstring offset skipped

/-- A text and the same text further down. -/
theorem Language.subject_lower (language : Language) (feeds : Nat) (text : List Char) :
    Subject.Moved (.lowered feeds) (language.subject text) (language.subject (lower feeds text)) where
  masked := Mask.masked_lower _ _ _
  stripped := Mask.stripped_lower _ _ _
  enclosingChain offset := by
    show (BraceIndex.ofText (Mask.masked _ _)).enclosingChain _ = _
    rw [Mask.masked_lower]
    exact BraceIndex.enclosingChain_lower feeds _ offset
  lineOf := LineIndex.lineOf_lower feeds text
  dependencies := rfl
  text _ := rfl
  columnOf _ := LineIndex.columnOf_lower feeds text
  docstring _ offset skipped := by
    show String.ofList (Docstring.find (Text.lines (lower feeds text))
      ((LineIndex.ofText (lower feeds text)).lineOf (offset + feeds)) skipped) = _
    rw [Text.lines_lower, LineIndex.lineOf_lower,
      Docstring.find_lower skipped feeds _ (LineIndex.one_le_lineOf_ofText text offset)]
    rfl

/-- Two texts with the same views, which differ in their comments. -/
theorem Language.subject_uncommented {language : Language} {text text' : List Char}
    (hm : Mask.masked language.maskRules text = Mask.masked language.maskRules text')
    (hs : Mask.stripped language.maskRules text = Mask.stripped language.maskRules text') :
    Subject.Moved .uncommented (language.subject text) (language.subject text') where
  masked := hm.symm
  stripped := hs.symm
  enclosingChain offset := by
    show (BraceIndex.ofText (Mask.masked _ _)).enclosingChain offset = _
    rw [← hm]
    exact (List.map_id _).symm
  lineOf offset := by
    have hindex : LineIndex.ofText text' = LineIndex.ofText text := by
      rw [← (Mask.blanks_masked language.maskRules text).lineIndex_eq, hm,
        (Mask.blanks_masked language.maskRules text').lineIndex_eq]
    exact congrArg (LineIndex.lineOf · offset) hindex
  dependencies := rfl
  text h := nomatch h
  columnOf h := nomatch h
  docstring h := nomatch h

variable {aspect : Aspect} {s t : Subject} {a b : Scan}

/-! ## Something in front of all of it -/

/-- What is in front of the second subject is put in where the first one starts. -/
def Insertion.atStart (aspect : Aspect) (s : Subject) : Insertion :=
  ⟨aspect, id, 0, aspect.lines, s.masked, s.source.stripped⟩

theorem Subject.Moved.relates (h : Moved aspect s t) : (Insertion.atStart aspect s).Relates s t where
  mono := strictMono_id
  masked := .refl s.masked
  masked' := h.masked ▸ Text.behind_lower aspect.lines s.masked
  stripped := .refl s.source.stripped
  stripped' := h.stripped ▸ Text.behind_lower aspect.lines s.source.stripped
  startsAt offset := by
    rw [h.masked]
    exact Statement.startsAt_lower _ _ offset false
  enclosingChain := h.enclosingChain
  site_eq _ _ _ := rfl
  lineOf := h.lineOf
  dependencies := h.dependencies
  columnOf := h.columnOf
  docstring := h.docstring

namespace Insertion

theorem atStart_same {fs gs : List Finding} :
    (atStart aspect s).Same fs gs ↔ Finding.SameUnder aspect fs gs := by
  have hplaced : fs.map (Finding.placed id) = fs :=
    (congrArg (fs.map ·) (funext Finding.placed_id)).trans (List.map_id fs)
  show Finding.SameUnder aspect (fs.map (Finding.placed id)) gs ↔ _
  rw [hplaced]

theorem atStart_sameScan : (atStart aspect s).SameScan a b ↔ a.SameUnder aspect b := by
  show (a.placed id).SameUnder aspect b ↔ _
  rw [Scan.placed_id]

theorem atStart_moves (found : Match) :
    (atStart aspect s).Moves found (found.down aspect.lines) :=
  ⟨rfl, Match.stop_down _ _, rfl⟩

theorem agree_of_atStart {x : Match → Except ExtractError (List Finding)}
    {y : Except ExtractError (List Finding)} {found : Match}
    (h : Agree (atStart aspect s).width (atStart aspect s).Same
      (x (found.down (atStart aspect s).before)) y) :
    Agree aspect.lines (Finding.SameUnder aspect) (x found) y := by
  have hsame : Agree aspect.lines (atStart aspect s).Same (x (found.down 0)) y := h
  rw [Match.down_zero] at hsame
  exact hsame.imp fun _ _ => atStart_same.mp

end Insertion

namespace Subject.Moved

theorem docstring_under (h : Moved aspect s t) (offset : Nat) (skipped : List String) :
    aspect.still.docstring (t.docstring (offset + aspect.lines) skipped) =
      aspect.docstring (s.docstring offset skipped) := h.relates.docstring_under offset skipped

/-! ## Parts of the source -/

theorem maskedPart (h : Moved aspect s t) (start stop : Nat) :
    Agree aspect.lines Eq (s.source.maskedPart start stop)
      (t.source.maskedPart (start + aspect.lines) (stop + aspect.lines)) :=
  h.relates.maskedPart start stop

theorem strippedPart (h : Moved aspect s t) (start stop : Nat) :
    Agree aspect.lines Eq (s.source.strippedPart start stop)
      (t.source.strippedPart (start + aspect.lines) (stop + aspect.lines)) :=
  h.relates.strippedPart start stop

theorem spelling (h : Moved aspect s t) (start stop : Nat) :
    Agree aspect.lines Eq (s.spelling start stop)
      (t.spelling (start + aspect.lines) (stop + aspect.lines)) := h.relates.spelling start stop

theorem startsAt (h : Moved aspect s t) (offset : Nat) (labels : Bool) :
    Agree aspect.lines Eq (Statement.startsAt s.masked offset labels)
      (Statement.startsAt t.masked (offset + aspect.lines) labels) := by
  rw [h.masked]
  exact Statement.startsAt_lower _ _ _ _

theorem find (h : Moved aspect s t) (hs : s.masked ≠ []) (offset : Nat) :
    Delimiter.find t.masked (offset + aspect.lines) =
      (Delimiter.find s.masked offset).down aspect.lines := by
  rw [h.masked, Delimiter.find_lower _ hs]

end Subject.Moved

/-- A body so many bytes and lines further down. -/
def Body.down (n : Nat) (body : Body) : Body :=
  { body with close := body.close + n, endLine := body.endLine + n }

namespace Subject.Moved

theorem body (h : Moved aspect s t) (hs : s.masked ≠ []) (opening : Nat) :
    Agree aspect.lines (fun a b => b = a.down aspect.lines) (s.body opening)
      (t.body (opening + aspect.lines)) := h.relates.body_of_close hs rfl

/-- The body of a function that may have none. -/
theorem body_some (h : Moved aspect s t) (hs : s.masked ≠ []) (opening : Nat) :
    Agree aspect.lines (fun x y => ∃ body, x = some body ∧ y = some (body.down aspect.lines))
      ((s.body opening).map some) ((t.body (opening + aspect.lines)).map some) :=
  (h.body hs opening).map fun body _ hbody => ⟨body, rfl, congrArg some hbody⟩

theorem checkTerminated (h : Moved aspect s t) (body : Body) (name : List Char) (offset : Nat) :
    Finding.SameUnder aspect (s.checkTerminated body name offset)
      (t.checkTerminated (body.down aspect.lines) name (offset + aspect.lines)) :=
  Insertion.atStart_same.mp (h.relates.checkTerminated body name offset)

theorem declarators (h : Moved aspect s t) (leading : Pattern) (start : Nat) :
    Agree aspect.lines (fun xs ys => ys = xs.map (Field.down aspect.lines))
      (s.declarators leading start) (t.declarators leading (start + aspect.lines)) := by
  refine (h.relates.declarators leading start).imp ?_
  rintro _ _ ⟨fields, rfl, rfl⟩
  exact congrArg (List.map _) (List.map_id fields).symm

end Subject.Moved

/-! ## Places in a scan -/

namespace Scan.SameUnder

/-- In both runs no class contains a place directly, or one does with the same index. -/
theorem classAt?_cases (h : SameUnder aspect a b) (ht : Subject.Moved aspect s t) (offset : Nat) :
    (a.classAt? s offset = none ∧ b.classAt? t (offset + aspect.lines) = none) ∨
      ∃ index d e, a.classAt? s offset = some (index, d) ∧
        b.classAt? t (offset + aspect.lines) = some (index, e) ∧
        d.under aspect = e.under aspect.still := by
  have hcases := (Insertion.atStart_sameScan.mpr h).classAt?_cases ht.relates offset
  exact hcases.imp id fun ⟨index, d, e, ha, hb, hde⟩ =>
    ⟨index, d, e, ha, hb, (congrArg _ d.placed_id).symm.trans hde⟩

theorem atTopLevel_eq (h : SameUnder aspect a b) (ht : Subject.Moved aspect s t) (offset : Nat) :
    b.atTopLevel t (offset + aspect.lines) = a.atTopLevel s offset :=
  (Insertion.atStart_sameScan.mpr h).atTopLevel_eq ht.relates offset

theorem scopesAt_eq (h : SameUnder aspect a b) (ht : Subject.Moved aspect s t) (offset : Nat) :
    b.scopesAt t (offset + aspect.lines) = a.scopesAt s offset :=
  (Insertion.atStart_sameScan.mpr h).scopesAt_eq ht.relates offset

theorem scopeAt_eq (h : SameUnder aspect a b) (ht : Subject.Moved aspect s t) (offset : Nat) :
    b.scopeAt t (offset + aspect.lines) = a.scopeAt s offset :=
  (Insertion.atStart_sameScan.mpr h).scopeAt_eq ht.relates offset

theorem inAnonymousScope_eq (h : SameUnder aspect a b) (ht : Subject.Moved aspect s t)
    (offset : Nat) : b.inAnonymousScope t (offset + aspect.lines) = a.inAnonymousScope s offset := by
  rw [Scan.inAnonymousScope, Scan.inAnonymousScope, h.scopesAt_eq ht]

end Scan.SameUnder

/-! ## Rules -/

/-- A rule tells the same of two subjects, given the same. -/
def Rule.Agrees (aspect : Aspect) (rule : Rule) (s t : Subject) : Prop :=
  ∀ a b : Scan, a.SameUnder aspect b →
    Agree aspect.lines (Scan.SameUnder aspect) (rule.run s a) (rule.run t b)

section Rules

variable {rule : Rule}

/-- A rule whose view moves finds the same matches further down. -/
theorem Rule.agrees_of_lower (hp : rule.pattern.skipsFeeds = true)
    (htext : rule.text t.source = lower aspect.lines (rule.text s.source))
    (h : ∀ a b : Scan, a.SameUnder aspect b →
      ∀ found, rule.pattern.FoundIn (rule.text s.source) found →
        Agree aspect.lines (Finding.SameUnder aspect) (rule.apply s a found)
          (rule.apply t b (found.down aspect.lines))) :
    rule.Agrees aspect s t := by
  intro a b hab
  rw [Rule.run, Rule.run, htext, Pattern.findAll_lower hp]
  refine Agree.foldlM (fun c d hcd found hf => ?_) hab
  exact (h c d hcd found (Pattern.foundIn_of_mem_findAll hf)).map fun _ _ hs => hcd.recordAll hs

/-- A match takes up a part of the text that is searched. -/
theorem Rule.pos_of_foundIn {text : List Char} {found : Match} {p : Pattern}
    (hp : p.skipsFeeds = true) (hf : p.FoundIn text found) : 0 < found.stop ∧ text ≠ [] := by
  simp only [Pattern.skipsFeeds, Bool.and_eq_true] at hp
  have hlt := hf.start_lt_stop hp.1.1
  refine ⟨Nat.lt_of_le_of_lt (Nat.zero_le _) hlt, ?_⟩
  rintro rfl
  have hle : found.stop ≤ 0 := hf.whole_at.isBoundary_stop.le_width
  omega

/-- A rule that reads the masked view tells the same of both subjects when it does of each
match. -/
theorem Rule.agrees_of_masked (ht : Subject.Moved aspect s t) (hp : rule.pattern.skipsFeeds = true)
    (hview : rule.view = .masked)
    (h : ∀ a b : Scan, a.SameUnder aspect b → ∀ found : Match,
      rule.pattern.FoundIn s.masked found → 0 < found.stop → s.masked ≠ [] →
      Agree aspect.lines (Finding.SameUnder aspect) (rule.apply s a found)
        (rule.apply t b (found.down aspect.lines))) :
    rule.Agrees aspect s t := by
  have htext : ∀ subject : Subject, rule.text subject.source = subject.masked := by
    intro subject
    rw [Rule.text, hview]
    rfl
  refine Rule.agrees_of_lower hp (by rw [htext, htext, ht.masked]) fun a b hab found hf => ?_
  rw [htext] at hf
  obtain ⟨hpos, hne⟩ := Rule.pos_of_foundIn hp hf
  exact h a b hab found hf hpos hne

theorem Rule.agrees_iff : rule.Agrees aspect s t ↔
    (Insertion.atStart aspect s).Tells rule s t (rule.pattern.findAll (rule.text s.source))
      (rule.pattern.findAll (rule.text t.source)) :=
  ⟨fun h a b hab => (h a b (Insertion.atStart_sameScan.mp hab)).imp fun _ _ =>
      Insertion.atStart_sameScan.mpr,
    fun h a b hab => (h a b (Insertion.atStart_sameScan.mpr hab)).imp fun _ _ =>
      Insertion.atStart_sameScan.mp⟩

/-- A rule that finds nothing but what an aspect leaves out, and always succeeds, tells nothing. -/
theorem Rule.agrees_of_silent
    (hs : ∀ a, ∀ found ∈ rule.pattern.findAll (rule.text s.source),
      Yields (rule.apply s a found) fun fs => ∀ f ∈ fs, f.under? aspect = none)
    (ht : ∀ a, ∀ found ∈ rule.pattern.findAll (rule.text t.source),
      Yields (rule.apply t a found) fun fs => ∀ f ∈ fs, f.under? aspect.still = none) :
    rule.Agrees aspect s t := by
  refine agrees_iff.mpr (.silent (fun a found hf => (hs a found hf).mono fun fs hfs => ?_)
    fun b found hf => (ht b found hf).mono fun fs hfs => ?_)
  · exact Insertion.atStart_same.mpr (List.filterMap_eq_nil_iff.mpr hfs)
  · exact Insertion.atStart_same.mpr (List.filterMap_eq_nil_iff.mpr hfs).symm

/-! ## Languages -/

theorem Language.hints_sameUnder (language : Language) (ht : Subject.Moved aspect s t) :
    Finding.SameUnder aspect (language.hints s) (language.hints t) := by
  rw [Language.hints, Language.hints, ht.masked, LineCheck.check_lower, LineHints.down]
  refine .append ?_ ?_
  · rw [Finding.SameUnder, List.filterMap_map, List.map_map, List.filterMap_map]
    rfl
  · rw [Finding.SameUnder, List.filterMap_map, List.map_map, List.filterMap_map]
    rfl

/-- Two extractions finish scans that are the same under an aspect when each rule tells the
same. -/
theorem Language.extract_agree {language : Language} {text text' : List Char}
    (ht : Subject.Moved aspect (language.subject text) (language.subject text'))
    (h : ∀ rule ∈ language.rules,
      rule.Agrees aspect (language.subject text) (language.subject text')) :
    Agree aspect.lines
      (fun x y => ∃ a b : Scan, a.SameUnder aspect b ∧ x = a.finish language.id ∧
        y = b.finish language.id)
      (language.extract text) (language.extract text') := by
  have hscan : Agree aspect.lines (Scan.SameUnder aspect) (language.scan (language.subject text))
      (language.scan (language.subject text')) :=
    (Insertion.scan_agree fun rule hr => Rule.agrees_iff.mp (h rule hr)).imp fun _ _ =>
      Insertion.atStart_sameScan.mp
  refine hscan.bind fun a b hab => .ok ?_
  exact ⟨_, _, hab.recordAll (language.hints_sameUnder ht), rfl, rfl⟩

end Rules
end Outline
