import Mathlib.Order.Monotone.Basic
import Outline.Extraction.Declarator
import Outline.Extraction.Language
import Outline.Proofs.Extraction.Agree
import Outline.Proofs.Extraction.Aspect
import Outline.Proofs.Extraction.Outcome
import Outline.Proofs.Pattern.Anchor
import Outline.Proofs.Source.Delimiter

/-!
# Subjects that end alike

From some place on two subjects have the same text, which stands further down in the second one
because something was put in front of it there.  Whatever recognizers ask of the common end, they
get the same answers, further down.  A declaration may start in front of the common end in the
second subject, so where matches start is told apart from where they lie.

All that a scan keeps of offsets is where bodies open and close and where labels stand.  With other
offsets there its summary is the same.  And what is asked of it gets the same answers at the other
offsets, if these are in the same order.
-/

namespace Outline

/-! ## Scans with their bodies elsewhere -/

section

variable {place : Nat → Nat}

/-- A draft whose body and labels stand elsewhere. -/
def ClassDraft.placed (place : Nat → Nat) (draft : ClassDraft) : ClassDraft :=
  { draft with
    opening := place draft.opening
    close := place draft.close
    labels := draft.labels.map fun (offset, visibility) => (place offset, visibility) }

def Finding.placed (place : Nat → Nat) : Finding → Finding
  | .block opening kind => .block (place opening) kind
  | .classBody draft => .classBody (draft.placed place)
  | .label index offset visibility => .label index (place offset) visibility
  | finding => finding

def Scan.placed (place : Nat → Nat) (scan : Scan) : Scan :=
  { scan with
    classes := scan.classes.map (ClassDraft.placed place)
    blocks := scan.blocks.map fun (opening, block) => (place opening, block) }

/-! ### In place -/

theorem ClassDraft.placed_id (draft : ClassDraft) : draft.placed id = draft :=
  congrArg (fun labels => { draft with labels }) (List.map_id _)

theorem Finding.placed_id (finding : Finding) : finding.placed id = finding := by
  cases finding with
  | classBody draft => exact congrArg Finding.classBody draft.placed_id
  | _ => rfl

theorem Scan.placed_id (scan : Scan) : scan.placed id = scan := by
  have hclasses : scan.classes.map (ClassDraft.placed id) = scan.classes :=
    (congrArg (scan.classes.map ·) (funext ClassDraft.placed_id)).trans (List.map_id _)
  exact congrArg₂ (fun classes blocks => { scan with classes, blocks }) hclasses (List.map_id _)

namespace Scan

/-! ### Recording -/

theorem record_placed (scan : Scan) (finding : Finding) :
    (scan.record finding).placed place = (scan.placed place).record (finding.placed place) := by
  cases finding with
  | classBody draft => simp [Scan.record, Scan.placed, Finding.placed, ClassDraft.placed]
  | label index offset visibility =>
    refine congrArg (fun classes => { scan.placed place with classes }) (map_modify_eq ?_ _ _)
    intro draft
    simp [ClassDraft.placed]
  | abstractClass index | method index entry | property index entry =>
    refine congrArg (fun classes => { scan.placed place with classes }) (map_modify_eq ?_ _ _)
    exact fun draft => rfl
  | _ => rfl

theorem recordAll_placed (scan : Scan) (findings : List Finding) :
    (scan.recordAll findings).placed place =
      (scan.placed place).recordAll (findings.map (Finding.placed place)) := by
  induction findings generalizing scan with
  | nil => rfl
  | cons finding findings ih =>
    show ((scan.record finding).recordAll findings).placed place = _
    rw [ih, record_placed]
    rfl

/-! ### Answers -/

theorem blockAt?_placed (hplace : StrictMono place) (scan : Scan) (opening : Nat) :
    (scan.placed place).blockAt? (place opening) = scan.blockAt? opening :=
  lookup_map_key (fun _ _ h => hplace.injective h) scan.blocks opening

theorem inAnyClass_placed (hplace : StrictMono place) (scan : Scan) (offset : Nat) :
    (scan.placed place).inAnyClass (place offset) = scan.inAnyClass offset := by
  rw [inAnyClass, inAnyClass, placed, List.any_map]
  refine congrArg (scan.classes.any ·) (funext fun draft => ?_)
  simp [ClassDraft.placed, hplace.le_iff_le]

theorem finish_placed (scan : Scan) (language : String) :
    (scan.placed place).finish language = scan.finish language := by
  have hclasses : (scan.placed place).classes.map finishClass = scan.classes.map finishClass :=
    List.map_map.trans (List.map_congr_left fun _ _ => rfl)
  have hexports : (scan.placed place).classes.filterMap exportOfClass? =
      scan.classes.filterMap exportOfClass? :=
    List.filterMap_map.trans (List.filterMap_congr fun _ _ => rfl)
  rw [finish, finish, hclasses, hexports]
  rfl

end Scan

end

/-! ## Insertions -/

/-- Something that one of two subjects has in front of what both have. -/
structure Insertion where
  aspect : Aspect
  /-- Where what starts at an offset of the first subject starts in the second one, but for lines
  that are added. -/
  place : Nat → Nat
  /-- The bytes in front of the common end in the first subject, and how many more there are in
  the second. -/
  before : Nat
  width : Nat
  /-- The common end in the masked view and in the view with literals. -/
  live : List Char
  kept : List Char

theorem piecesWithOffsets_add (n offset : Nat) (pieces : List (List Char)) :
    piecesWithOffsets (offset + n) pieces =
      (piecesWithOffsets offset pieces).map fun (start, piece) => (start + n, piece) := by
  induction pieces generalizing offset with
  | nil => rfl
  | cons piece pieces ih =>
    have hnext : offset + n + Text.width piece + 1 = offset + Text.width piece + 1 + n := by omega
    rw [piecesWithOffsets, piecesWithOffsets, hnext, ih]
    rfl

theorem Text.ne_nil_of_charAt? {text : List Char} {offset : Nat} {c : Char}
    (h : charAt? text offset = some c) : text ≠ [] := by
  obtain ⟨before, after, rfl, -⟩ := charAt?_eq_some_iff.mp h
  exact List.append_ne_nil_of_right_ne_nil before (List.cons_ne_nil c after)

/-- A declared field: where it stands, its name and its default value. -/
abbrev Field := Nat × List Char × Option (List Char)

def Field.down (n : Nat) (field : Field) : Field := (field.1 + n, field.2)

namespace Insertion

/-- The bytes in front of the common end in the second subject. -/
def after (i : Insertion) : Nat := i.width + i.before

/-- Where in the second subject starts what starts at an offset of the first one. -/
def shift (i : Insertion) (offset : Nat) : Nat := i.place offset + i.aspect.lines

/-- Where in the second subject starts what starts at an offset of the common end. -/
def site (i : Insertion) (offset : Nat) : Nat := i.shift (offset + i.before)

/-- What recognizers can tell of two subjects. -/
structure Relates (i : Insertion) (s t : Subject) : Prop where
  mono : StrictMono i.place
  masked : Text.Behind i.before i.live s.masked
  masked' : Text.Behind i.after i.live t.masked
  stripped : Text.Behind i.before i.kept s.source.stripped
  stripped' : Text.Behind i.after i.kept t.source.stripped
  startsAt : ∀ offset, Agree i.width Eq (Statement.startsAt s.masked (offset + i.before) false)
    (Statement.startsAt t.masked (i.site offset) false)
  enclosingChain : ∀ offset, t.source.braces.enclosingChain (i.site offset) =
    (s.source.braces.enclosingChain (offset + i.before)).map i.shift
  /-- Bodies open and close in the common end. -/
  site_eq : ∀ {opening : Nat}, Text.charAt? i.live opening = some '\x7b' →
    ∀ offset, opening ≤ offset → i.site offset = offset + i.after
  lineOf : ∀ offset, t.lineOf (offset + i.after) = s.lineOf (offset + i.before) + i.aspect.lines
  dependencies : t.dependencies = s.dependencies
  columnOf : i.aspect.bare = false → ∀ offset,
    t.source.columnOf (offset + i.after) = s.source.columnOf (offset + i.before)
  docstring : i.aspect.bare = false → ∀ offset skipped,
    t.docstring (offset + i.after) skipped = s.docstring (offset + i.before) skipped

/-- A match of the common end, and the match in the second subject, which may start earlier. -/
structure Moves (i : Insertion) (found found' : Match) : Prop where
  start : found'.start = i.site found.start
  stop : found'.stop = found.stop + i.after
  parts : found'.parts = (found.down i.after).parts

/-- The findings of both subjects are the same, at other offsets and under an aspect. -/
def Same (i : Insertion) (fs gs : List Finding) : Prop :=
  Finding.SameUnder i.aspect (fs.map (Finding.placed i.place)) gs

def SameDraft (i : Insertion) (d e : ClassDraft) : Prop :=
  (d.placed i.place).under i.aspect = e.under i.aspect.still

/-- The scans are. -/
def SameScan (i : Insertion) (a b : Scan) : Prop := (a.placed i.place).SameUnder i.aspect b

variable {i : Insertion} {s t : Subject} {a b : Scan} {found found' : Match}

namespace Moves

theorem part?_eq (h : i.Moves found found') (label : Part) :
    found'.part? label = (found.part? label).map (Capture.down i.after) := by
  rw [← Match.part?_down, Match.part?, Match.part?, h.parts]

theorem text_eq (h : i.Moves found found') (label : Part) : found'.text label = found.text label := by
  rw [← Match.text_down i.after found, Match.text, Match.text, Match.part?, Match.part?, h.parts]

/-- The last byte of a match that takes up some. -/
theorem stop_pred (h : i.Moves found found') (hpos : 0 < found.stop) :
    found'.stop - 1 = found.stop - 1 + i.after := by
  rw [h.stop]
  omega

end Moves

/-! ## Findings -/

namespace SameDraft

variable {d e : ClassDraft}

theorem name_eq (h : i.SameDraft d e) : e.entry.name = d.entry.name :=
  ClassDraft.name_eq_of_under (d := d.placed i.place) h

theorem kind_eq (h : i.SameDraft d e) : e.entry.kind = d.entry.kind :=
  ClassDraft.kind_eq_of_under (d := d.placed i.place) h

theorem defaultVisibility_eq (h : i.SameDraft d e) : e.defaultVisibility = d.defaultVisibility :=
  ClassDraft.defaultVisibility_eq_of_under (d := d.placed i.place) h

end SameDraft

namespace Same

theorem nil : i.Same [] [] := Finding.SameUnder.nil

theorem append {fs gs fs' gs' : List Finding} (h : i.Same fs gs) (k : i.Same fs' gs') :
    i.Same (fs ++ fs') (gs ++ gs') := by
  rw [Same, List.map_append]
  exact Finding.SameUnder.append h k

theorem single {f g : Finding}
    (h : (f.placed i.place).under? i.aspect = g.under? i.aspect.still) : i.Same [f] [g] :=
  Finding.SameUnder.single h

theorem classBody {d e : ClassDraft} (h : i.SameDraft d e) :
    i.Same [.classBody d] [.classBody e] := Finding.SameUnder.classBody h

theorem method (index : Nat) {x y : FunctionEntry} (h : x.under i.aspect = y.under i.aspect.still) :
    i.Same [.method index x] [.method index y] :=
  Finding.SameUnder.method index h

theorem function {x y : FunctionEntry} (h : x.under i.aspect = y.under i.aspect.still) :
    i.Same [.function x] [.function y] :=
  Finding.SameUnder.function h

theorem filterMap {α : Type} {f g : α → Option Finding} {entries : List α}
    (h : ∀ x ∈ entries, (f x).bind (fun finding => (finding.placed i.place).under? i.aspect) =
      (g x).bind (Finding.under? i.aspect.still)) :
    i.Same (entries.filterMap f) (entries.filterMap g) := by
  rw [Same, Finding.SameUnder, List.filterMap_map, List.filterMap_filterMap,
    List.filterMap_filterMap]
  exact List.filterMap_congr h

theorem map {α : Type} {f g : α → Finding} {entries : List α}
    (h : ∀ x ∈ entries, ((f x).placed i.place).under? i.aspect = (g x).under? i.aspect.still) :
    i.Same (entries.map f) (entries.map g) := by
  rw [← List.filterMap_eq_map, ← List.filterMap_eq_map]
  exact filterMap h

end Same

theorem SameScan.recordAll (h : i.SameScan a b) {fs gs : List Finding} (hs : i.Same fs gs) :
    i.SameScan (a.recordAll fs) (b.recordAll gs) := by
  rw [SameScan, Scan.recordAll_placed]
  exact Scan.SameUnder.recordAll h hs

/-! ## Parts of the source -/

namespace Relates

theorem docstring_under (h : i.Relates s t) (offset : Nat) (skipped : List String) :
    i.aspect.still.docstring (t.docstring (offset + i.after) skipped) =
      i.aspect.docstring (s.docstring (offset + i.before) skipped) := by
  rw [Aspect.docstring, Aspect.docstring, Aspect.bare_still]
  split
  · rfl
  · next hbare => exact h.docstring (by simpa using hbare) offset skipped

theorem maskedPart (h : i.Relates s t) (start stop : Nat) :
    Agree i.width Eq (s.source.maskedPart (start + i.before) (stop + i.before))
      (t.source.maskedPart (start + i.after) (stop + i.after)) :=
  SourceText.part_behind h.masked h.masked' start stop

theorem strippedPart (h : i.Relates s t) (start stop : Nat) :
    Agree i.width Eq (s.source.strippedPart (start + i.before) (stop + i.before))
      (t.source.strippedPart (start + i.after) (stop + i.after)) :=
  SourceText.part_behind h.stripped h.stripped' start stop

theorem spelling (h : i.Relates s t) (start stop : Nat) :
    Agree i.width Eq (s.spelling (start + i.before) (stop + i.before))
      (t.spelling (start + i.after) (stop + i.after)) :=
  (h.strippedPart start stop).map_eq _

end Relates

/-! ## Bodies -/

/-- A body of the common end in the second subject. -/
def body (i : Insertion) (body : Body) : Body :=
  { body with close := i.shift body.close, endLine := body.endLine + i.aspect.lines }

namespace Relates

/-- A body is read to its end, which stands further down. -/
theorem body_of_close (h : i.Relates s t) (hne : i.live ≠ []) {opening : Nat}
    (hclose : i.site (Delimiter.find i.live opening).close =
      (Delimiter.find i.live opening).close + i.after) :
    Agree i.width (fun x y => y = i.body x) (s.body (opening + i.before))
      (t.body (opening + i.after)) := by
  have hstop : ∀ n, min ((Delimiter.find i.live opening).close + n + 1) (Text.width i.live + n) =
      min ((Delimiter.find i.live opening).close + 1) (Text.width i.live) + n := by
    intro n
    rw [Nat.add_right_comm, Nat.add_min_add_right]
  rw [Subject.body, Subject.body, h.masked.find_eq hne, h.masked'.find_eq hne,
    Delimiter.Match.close_down, Delimiter.Match.close_down, h.masked.width_eq, h.masked'.width_eq,
    hstop, hstop]
  refine (h.maskedPart _ _).bind_eq fun text => .ok ?_
  rw [h.lineOf, h.dependencies, ← hclose]
  rfl

theorem body (h : i.Relates s t) {opening : Nat}
    (ho : Text.charAt? i.live opening = some '\x7b') :
    Agree i.width (fun x y => y = i.body x) (s.body (opening + i.before))
      (t.body (opening + i.after)) := by
  exact h.body_of_close (Text.ne_nil_of_charAt? ho) (h.site_eq ho _ (Delimiter.le_find_close rfl ho))

/-- The body of a function that may have none. -/
theorem body_some (h : i.Relates s t) {opening : Nat}
    (ho : Text.charAt? i.live opening = some '\x7b') :
    Agree i.width (fun x y => ∃ body, x = some body ∧ y = some (i.body body))
      ((s.body (opening + i.before)).map some) ((t.body (opening + i.after)).map some) :=
  (h.body ho).map fun body _ hbody => ⟨body, rfl, congrArg some hbody⟩

theorem checkTerminated (h : i.Relates s t) (body : Body) (name : List Char) (offset : Nat) :
    i.Same (s.checkTerminated body name (offset + i.before))
      (t.checkTerminated (i.body body) name (offset + i.after)) := by
  rw [Subject.checkTerminated, Subject.checkTerminated]
  show i.Same _ (if body.terminated then [] else _)
  split
  · exact .nil
  · refine .single (congrArg some (congrArg Finding.warning ?_))
    cases hbare : i.aspect.bare with
    | true => simp [Diagnostic.under, Diagnostic.down, hbare, h.lineOf]
    | false => simp [Diagnostic.under, Diagnostic.down, hbare, h.lineOf, h.columnOf hbare]

/-! ## Declarators -/

theorem declarators (h : i.Relates s t) (leading : Pattern) (start : Nat) :
    Agree i.width
      (fun xs ys => ∃ fields : List Field,
        xs = fields.map (Field.down i.before) ∧ ys = fields.map (Field.down i.after))
      (s.declarators leading (start + i.before)) (t.declarators leading (start + i.after)) := by
  rw [Subject.declarators, Subject.declarators, h.masked.endAt_eq, h.masked'.endAt_eq]
  refine (h.maskedPart _ _).bind_eq fun list => ?_
  rw [piecesWithOffsets_add, piecesWithOffsets_add]
  refine Agree.bind (R := fun xs ys => ∃ found : List (Option Field),
    xs = found.map (Option.map (Field.down i.before)) ∧
      ys = found.map (Option.map (Field.down i.after))) (Agree.mapM ?_) ?_
  · rintro ⟨offset, piece⟩ -
    have htext := h.strippedPart offset (offset + Text.width piece)
    rw [Nat.add_right_comm offset (Text.width piece), Nat.add_right_comm offset (Text.width piece)]
      at htext
    refine htext.bind_eq fun text => ?_
    let name := (leading.find? (splitDefault text).1).bind (·.part? .name)
    refine .ok ⟨name.map fun name =>
      (offset, name.text, (splitDefault text).2.map Text.normalizeSpace), ?_, ?_⟩
    · rw [Option.map_map]
      rfl
    · rw [Option.map_map]
      rfl
  · rintro _ _ ⟨found, rfl, rfl⟩
    refine .ok ⟨found.filterMap id, ?_, ?_⟩
    · rw [List.filterMap_map, List.map_filterMap]
      rfl
    · rw [List.filterMap_map, List.map_filterMap]
      rfl

end Relates

/-! ## Places in a scan -/

namespace SameScan

theorem package_eq (h : i.SameScan a b) : b.package = a.package :=
  Scan.SameUnder.package_eq (a := a.placed i.place) h

theorem length_classes_eq (h : i.SameScan a b) : b.classes.length = a.classes.length :=
  (Scan.SameUnder.length_classes_eq (a := a.placed i.place) h).trans (List.length_map _)

theorem blockAt?_eq (h : i.SameScan a b) (ht : i.Relates s t) (opening : Nat) :
    b.blockAt? (i.shift opening) = a.blockAt? opening :=
  (Scan.SameUnder.blockAt?_eq h _).trans (a.blockAt?_placed ht.mono opening)

theorem inAnyClass_eq (h : i.SameScan a b) (ht : i.Relates s t) (offset : Nat) :
    b.inAnyClass (i.site offset) = a.inAnyClass (offset + i.before) :=
  (Scan.SameUnder.inAnyClass_eq h _).trans (a.inAnyClass_placed ht.mono _)

theorem enclosingOpen_eq (ht : i.Relates s t) (offset : Nat) :
    t.source.braces.enclosingOpen (i.site offset) =
      (s.source.braces.enclosingOpen (offset + i.before)).map i.shift := by
  rw [BraceIndex.enclosingOpen, BraceIndex.enclosingOpen, ht.enclosingChain, List.head?_map]

/-- In both runs no class contains a place directly, or one does with the same index. -/
theorem classAt?_cases (h : i.SameScan a b) (ht : i.Relates s t) (offset : Nat) :
    (a.classAt? s (offset + i.before) = none ∧ b.classAt? t (i.site offset) = none) ∨
      ∃ index d e, a.classAt? s (offset + i.before) = some (index, d) ∧
        b.classAt? t (i.site offset) = some (index, e) ∧ i.SameDraft d e := by
  have hblock : ((s.source.braces.enclosingOpen (offset + i.before)).map i.shift).bind b.blockAt? =
      (s.source.braces.enclosingOpen (offset + i.before)).bind a.blockAt? := by
    cases s.source.braces.enclosingOpen (offset + i.before) with
    | none => rfl
    | some opening => exact h.blockAt?_eq ht opening
  rw [Scan.classAt?, Scan.classAt?, enclosingOpen_eq ht, hblock]
  split
  · next index _ =>
    have hclass : (b.classes[index]?).map (ClassDraft.under i.aspect.still) =
        ((a.classes[index]?).map (ClassDraft.placed i.place)).map (ClassDraft.under i.aspect) := by
      rw [← List.getElem?_map, ← List.getElem?_map, ← List.getElem?_map, Scan.SameUnder.classes_eq h]
      rfl
    cases ha : a.classes[index]? with
    | none =>
      rw [ha, Option.map_none, Option.map_none, Option.map_eq_none_iff] at hclass
      rw [hclass]
      exact .inl ⟨rfl, rfl⟩
    | some d =>
      rw [ha, Option.map_some, Option.map_some, Option.map_eq_some_iff] at hclass
      obtain ⟨e, he, hde⟩ := hclass
      rw [he]
      exact .inr ⟨index, d, e, rfl, rfl, hde.symm⟩
  · exact .inl ⟨rfl, rfl⟩

theorem atTopLevel_eq (h : i.SameScan a b) (ht : i.Relates s t) (offset : Nat) :
    b.atTopLevel t (i.site offset) = a.atTopLevel s (offset + i.before) := by
  rw [Scan.atTopLevel, Scan.atTopLevel, h.inAnyClass_eq ht, enclosingOpen_eq ht]
  cases s.source.braces.enclosingOpen (offset + i.before) with
  | none => rfl
  | some opening =>
    rw [Option.map_some]
    dsimp only
    rw [h.blockAt?_eq ht]

theorem scopesAt_eq (h : i.SameScan a b) (ht : i.Relates s t) (offset : Nat) :
    b.scopesAt t (i.site offset) = a.scopesAt s (offset + i.before) := by
  rw [Scan.scopesAt, Scan.scopesAt, ht.enclosingChain, List.filterMap_map]
  refine congrArg (List.filterMap · _) (funext fun opening => ?_)
  rw [Function.comp_apply, h.blockAt?_eq ht]

theorem scopeAt_eq (h : i.SameScan a b) (ht : i.Relates s t) (offset : Nat) :
    b.scopeAt t (i.site offset) = a.scopeAt s (offset + i.before) := by
  rw [Scan.scopeAt, Scan.scopeAt, h.scopesAt_eq ht, h.package_eq]

end SameScan

/-! ## Rules -/

theorem SameScan.empty : i.SameScan .empty .empty := Scan.SameUnder.empty

/-- By these matches a rule tells the same of the two subjects, given the same. -/
def Tells (i : Insertion) (rule : Rule) (s t : Subject) (founds founds' : List Match) : Prop :=
  ∀ a b : Scan, i.SameScan a b →
    Agree i.width i.SameScan (founds.foldlM (rule.step s) a) (founds'.foldlM (rule.step t) b)

namespace Tells

variable {rule : Rule} {founds founds' others others' : List Match}

theorem append (h : i.Tells rule s t founds founds') (k : i.Tells rule s t others others') :
    i.Tells rule s t (founds ++ others) (founds' ++ others') := by
  intro a b hab
  rw [List.foldlM_append, List.foldlM_append]
  exact (h a b hab).bind k

/-- Matches that come from the same ones tell the same one by one. -/
theorem map {u v : Match → Match} (h : ∀ a b, i.SameScan a b → ∀ found ∈ founds,
    Agree i.width i.Same (rule.apply s a (u found)) (rule.apply t b (v found))) :
    i.Tells rule s t (founds.map u) (founds.map v) := by
  intro a b hab
  rw [List.foldlM_map]
  refine Agree.foldlM (fun a b hab found hf => ?_) hab
  exact (h a b hab found hf).map fun _ _ hs => hab.recordAll hs

theorem single (h : ∀ a b, i.SameScan a b →
    Agree i.width i.Same (rule.apply s a found) (rule.apply t b found')) :
    i.Tells rule s t [found] [found'] := by
  intro a b hab
  rw [List.foldlM_cons, List.foldlM_cons]
  exact ((h a b hab).map fun _ _ hs => hab.recordAll hs).bind fun _ _ => .ok

/-- Matches that tell nothing, whatever else is in front of the common end. -/
theorem silent (hs : ∀ a, ∀ found ∈ founds, Yields (rule.apply s a found) (i.Same · []))
    (ht : ∀ b, ∀ found ∈ founds', Yields (rule.apply t b found) (i.Same [])) :
    i.Tells rule s t founds founds' := by
  intro a b hab
  obtain ⟨a', ha, hsame⟩ : Yields (founds.foldlM (rule.step s) a) (i.SameScan · b) :=
    Yields.foldlM (fun a hab found hf => (hs a found hf).map fun _ hfs => hab.recordAll hfs) hab
  obtain ⟨b', hb, hsame'⟩ : Yields (founds'.foldlM (rule.step t) b) (i.SameScan a') :=
    Yields.foldlM (fun b hab found hf => (ht b found hf).map fun _ hgs => hab.recordAll hgs) hsame
  rw [ha, hb]
  exact .ok hsame'

/-- Matches of which a rule finds nothing tell the same. -/
theorem nothing (hs : ∀ found ∈ founds, ∀ scan, rule.apply s scan found = .ok [])
    (ht : ∀ found ∈ founds', ∀ scan, rule.apply t scan found = .ok []) :
    i.Tells rule s t founds founds' :=
  .silent (fun a found hf => ⟨[], hs found hf a, .nil⟩) fun b found hf => ⟨[], ht found hf b, .nil⟩

end Tells

theorem scan_agree {language : Language} (h : ∀ rule ∈ language.rules,
    i.Tells rule s t (rule.pattern.findAll (rule.text s.source))
      (rule.pattern.findAll (rule.text t.source))) :
    Agree i.width i.SameScan (language.scan s) (language.scan t) := by
  have hfold := Agree.foldlM (u := fun rule => rule)
    (f := fun (scan : Scan) (rule : Rule) => rule.run s scan)
    (g := fun (scan : Scan) (rule : Rule) => rule.run t scan)
    (fun a b hab rule hr => h rule hr a b hab) SameScan.empty
  rwa [List.map_id'] at hfold

end Insertion
end Outline
