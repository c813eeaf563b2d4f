import Outline.Proofs.Extraction.Inserted
import Outline.Proofs.Extraction.Statement
import Outline.Proofs.Source.Inserted

/-!
# A stretch of code in front of a declaration

A stretch on one line and without braces is put in where a declaration starts.  The declaration
then starts with the stretch, and all that is behind its first character stands further on.
-/

namespace Outline

/-! ## The stretch -/

/-- Code in front of a place and a stretch of code on one line, without braces, that is put in
there.  What stood at the place is neither a blank nor a brace. -/
structure Takes (front note rest : List Char) : Prop where
  ahead : Text.IsCode front
  code : Text.IsCode note
  opening : '\x7b' ∉ note
  closing : '\x7d' ∉ note
  feed : '\n' ∉ note
  goesOn : ∃ c more, Mask.masked .java rest = c :: more ∧ Text.isBlank c = false ∧
    c ≠ '\x7b' ∧ c ≠ '\x7d'

/-- What a stretch behind a front does to offsets.  The place in front of which it is put is where
the declaration there still starts. -/
def Insertion.between (front note rest : List Char) : Insertion where
  aspect := .uncommented
  place offset := if offset ≤ Text.width front then offset else offset + Text.width note
  before := Text.width front
  width := Text.width note
  live := Mask.masked .java rest
  kept := Mask.stripped .java rest

namespace Takes

open Insertion (between)

variable {front note rest : List Char}

section

variable (front note rest)

theorem site_zero : (between front note rest).site 0 = Text.width front := by
  simp [Insertion.site, Insertion.shift, between, Aspect.uncommented]

theorem site_pos {offset : Nat} (h : 0 < offset) :
    (between front note rest).site offset = offset + (Text.width note + Text.width front) := by
  have hlt : ¬ offset + Text.width front ≤ Text.width front := by omega
  simp only [Insertion.site, Insertion.shift, between, Aspect.uncommented, if_neg hlt]
  omega

theorem shift_of_le {offset : Nat} (h : offset ≤ Text.width front) :
    (between front note rest).shift offset = offset := by
  simp [Insertion.shift, between, Aspect.uncommented, h]

theorem strictMono_place : StrictMono (between front note rest).place := by
  intro a b hab
  simp only [between]
  split <;> split <;> omega

end

variable (h : Takes front note rest)
include h

/-! ## Views -/

theorem views_eq (language : Language) (hl : language.maskRules = .java) :
    (language.subject (front ++ rest)).masked = front ++ Mask.masked .java rest ∧
      (language.subject (front ++ rest)).source.stripped = front ++ Mask.stripped .java rest ∧
      (language.subject (front ++ (note ++ rest))).masked =
        (front ++ note) ++ Mask.masked .java rest ∧
      (language.subject (front ++ (note ++ rest))).source.stripped =
        (front ++ note) ++ Mask.stripped .java rest := by
  have hviews : ∀ text, (language.subject text).masked = Mask.masked .java text ∧
      (language.subject text).source.stripped = Mask.stripped .java text := fun text =>
    ⟨congrArg (Mask.masked · text) hl, congrArg (Mask.stripped · text) hl⟩
  obtain ⟨hstripped, hmasked⟩ := Mask.views_code_append h.ahead rest
  obtain ⟨hstripped', hmasked'⟩ := Mask.views_code_append (h.ahead.append h.code) rest
  rw [(hviews _).1, (hviews _).2, (hviews _).1, (hviews _).2, hmasked, hstripped,
    ← List.append_assoc front note rest, hmasked', hstripped']
  exact ⟨rfl, rfl, rfl, rfl⟩

theorem startsAt (offset : Nat) : Agree (Text.width note) Eq
    (Statement.startsAt (front ++ Mask.masked .java rest) (offset + Text.width front) false)
    (Statement.startsAt ((front ++ note) ++ Mask.masked .java rest)
      ((between front note rest).site offset) false) := by
  obtain ⟨c, more, hlive, hblank, -, -⟩ := h.goesOn
  cases offset with
  | zero =>
    rw [site_zero, Nat.zero_add, Statement.startsAt_append, List.append_assoc,
      Statement.startsAt_append]
    exact .ok rfl
  | succ offset =>
    have hmin : ∀ front : List Char,
        min (offset + 1 + Text.width front) (Text.width (front ++ Mask.masked .java rest)) =
          min (offset + 1) (Text.width (Mask.masked .java rest)) + Text.width front := by
      intro front
      rw [Text.width_append, Nat.add_comm (Text.width front), Nat.add_min_add_right]
    have hafter : (between front note rest).site (offset + 1) =
        offset + 1 + Text.width (front ++ note) := by
      rw [site_pos _ _ _ (Nat.succ_pos offset), Text.width_append, Nat.add_comm (Text.width note)]
    rw [hafter, Statement.startsAt, Statement.startsAt, hmin, hmin, SourceText.headTo,
      SourceText.headTo, Text.takeWidth?_behind, Text.takeWidth?_behind]
    cases htake : Text.takeWidth? (min (offset + 1) (Text.width (Mask.masked .java rest)))
        (Mask.masked .java rest) with
    | none =>
      rw [Text.width_append, ← Nat.add_assoc]
      exact (SourceText.crash_agree _ _).map fun _ _ hab => hab
    | some read =>
      -- What is read of the declaration begins with its first character.
      obtain ⟨unread, hread, hwidth⟩ := Text.eq_append_of_takeWidth? htake
      have hpos := Char.utf8Size_pos c
      have hmem : c ∈ read := by
        cases read with
        | nil =>
          rw [hlive, Text.width_nil, Text.width_cons] at hwidth
          omega
        | cons a read =>
          rw [hlive] at hread
          rw [(List.cons.inj hread).1]
          exact List.mem_cons_self
      exact .ok ((Statement.startsAfter_behind hmem hblank front).trans
        (Statement.startsAfter_behind hmem hblank (front ++ note)).symm)

/-- The stretch has no braces, so the braces around a place are those that were around it. -/
theorem enclosingChain (offset : Nat) :
    (BraceIndex.ofText ((front ++ note) ++ Mask.masked .java rest)).enclosingChain
        ((between front note rest).site offset) =
      ((BraceIndex.ofText (front ++ Mask.masked .java rest)).enclosingChain
        (offset + Text.width front)).map (between front note rest).shift := by
  obtain ⟨c, more, hlive, -, hopen, hclose⟩ := h.goesOn
  obtain ⟨stack, hlt, hstack⟩ := @BraceIndex.exists_stackFrom_append 0 [] front nofun
  rw [Nat.zero_add] at hlt hstack
  have hsame : stack.map (between front note rest).shift = stack :=
    (List.map_congr_left fun x hx => shift_of_le _ _ _ (Nat.le_of_lt (hlt x hx))).trans
      (List.map_id' stack)
  rw [BraceIndex.enclosingChain_eq, BraceIndex.enclosingChain_eq, List.append_assoc]
  cases offset with
  | zero =>
    rw [site_zero, Nat.zero_add, hstack _ _ (Nat.le_refl _), hstack _ _ (Nat.le_refl _),
      BraceIndex.stackFrom_of_le (Nat.le_refl _), BraceIndex.stackFrom_of_le (Nat.le_refl _), hsame]
  | succ offset =>
    have hmoved : ∀ p, Text.width front + c.utf8Size ≤ p →
        (between front note rest).shift p = p + Text.width note := by
      intro p hp
      have hpos := Char.utf8Size_pos c
      have hsite := site_pos front note rest (show 0 < p - Text.width front by omega)
      rw [Insertion.site, show (between front note rest).before = Text.width front from rfl,
        Nat.sub_add_cancel (by omega)] at hsite
      omega
    have hbalanced : Delimiter.balanced '\x7b' '\x7d' note = true :=
      Delimiter.balanced_of_not_mem h.opening h.closing
    rw [site_pos _ _ _ (Nat.succ_pos offset), hstack _ _ (by omega), hstack _ _ (by omega),
      BraceIndex.stackFrom_append_of_balanced hbalanced (by omega), hlive,
      BraceIndex.stackFrom_other _ _ _ _ hopen hclose, BraceIndex.stackFrom_other _ _ _ _ hopen hclose]
    have hmap := @BraceIndex.stackFrom_map _ _ more _ hmoved (offset + 1 + Text.width front) stack
    rw [hsame] at hmap
    rw [← hmap, Nat.add_right_comm (Text.width front), Nat.add_assoc (offset + 1),
      Nat.add_comm (Text.width note)]

theorem relates (language : Language) (hl : language.maskRules = .java) :
    (between front note rest).Relates (language.subject (front ++ rest))
      (language.subject (front ++ (note ++ rest))) := by
  obtain ⟨hmasked, hstripped, hmasked', hstripped'⟩ := h.views_eq language hl
  have hafter : (between front note rest).after = Text.width (front ++ note) := by
    rw [Text.width_append, Nat.add_comm]
    rfl
  have hbraces : ∀ text, (language.subject text).source.braces =
      .ofText (language.subject text).masked := fun _ => rfl
  have hlines : ∀ text offset, (language.subject text).lineOf offset =
      (LineIndex.ofText text).lineOf offset := fun _ _ => rfl
  refine ⟨strictMono_place front note rest, ?_, ?_, ?_, ?_, ?_, ?_, ?_, ?_, rfl, nofun, nofun⟩
  · exact hmasked ▸ Text.Behind.append front _
  · exact hmasked' ▸ hafter ▸ Text.Behind.append (front ++ note) _
  · exact hstripped ▸ Text.Behind.append front _
  · exact hstripped' ▸ hafter ▸ Text.Behind.append (front ++ note) _
  · intro offset
    rw [hmasked, hmasked']
    exact h.startsAt offset
  · intro offset
    rw [hbraces, hbraces, hmasked, hmasked']
    exact h.enclosingChain offset
  · intro opening hopening offset hle
    obtain ⟨c, more, hlive, -, hc, -⟩ := h.goesOn
    refine site_pos front note rest (Nat.lt_of_lt_of_le (Nat.pos_of_ne_zero ?_) hle)
    rintro rfl
    have hfirst : Text.charAt? (c :: more) 0 = some '\x7b' := hlive ▸ hopening
    exact hc (Option.some.inj hfirst)
  · intro offset
    have hcount : note.count '\n' = 0 := List.count_eq_zero.mpr h.feed
    rw [hlines, hlines, hafter, ← List.append_assoc, LineIndex.lineOf_behind]
    show _ = (LineIndex.ofText (front ++ rest)).lineOf (offset + Text.width front) + 0
    rw [LineIndex.lineOf_behind, List.count_append, hcount]
    rfl

omit h in
/-- What is said of the start of the text is said there in both. -/
theorem checkTerminated_zero {language : Language} (body body' : Body) (name : List Char)
    (hterminated : body'.terminated = body.terminated) :
    (between front note rest).Same
      ((language.subject (front ++ rest)).checkTerminated body name 0)
      ((language.subject (front ++ (note ++ rest))).checkTerminated body' name 0) := by
  rw [Subject.checkTerminated, Subject.checkTerminated, hterminated]
  split
  · exact .nil
  · have hline : ∀ text, (language.subject text).lineOf 0 = 1 := LineIndex.lineOf_zero
    rw [hline, hline]
    exact .single rfl

end Takes
end Outline
