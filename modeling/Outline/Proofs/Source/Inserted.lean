import Outline.Proofs.Source.Balanced
import Outline.Proofs.Source.Lower
import Outline.Proofs.Text.Line

/-!
# A stretch put into a source

A stretch without quotes and comments, up to its end, is code wherever it stands.  So it changes
neither what is hidden behind it nor which delimiters close there, and on one line and without
braces it only moves what stands behind it further on.
-/

namespace Outline

variable {a rest : List Char} {c : Char}

/-! ## Lines -/

/-- Behind a front the lines of a text are counted on. -/
theorem LineIndex.lineOf_behind (front text : List Char) (offset : Nat) :
    (ofText (front ++ text)).lineOf (offset + Text.width front) =
      (ofText text).lineOf offset + front.count '\n' := by
  have hstop : min (offset + Text.width front) (Text.width front + Text.width text) =
      min offset (Text.width text) + Text.width front := by
    rw [Nat.add_comm (Text.width front), Nat.add_min_add_right]
  have hfront : (Text.startsAfterFeeds 0 front).countP
      (· ≤ min offset (Text.width text) + Text.width front) = front.count '\n' := by
    rw [← Text.length_startsAfterFeeds 0 front, List.countP_eq_length]
    intro start hs
    have hbounds := Text.bounds_of_mem_startsAfterFeeds hs
    simp only [decide_eq_true_eq]
    omega
  rw [lineOf, lineOf, ofText, ofText]
  dsimp only
  rw [Text.width_append, hstop, Text.startsAfterFeeds_append, Text.startsAfterFeeds_add,
    List.countP_cons_of_pos (by simp), List.countP_cons_of_pos (by simp), List.countP_append, hfront,
    List.countP_map, Nat.add_comm (front.count '\n')]
  simp only [Function.comp_def, Nat.add_le_add_iff_right]
  omega

theorem LineIndex.lineOf_zero (text : List Char) : (ofText text).lineOf 0 = 1 := by
  have hlater : (Text.startsAfterFeeds 0 text).countP (· ≤ 0) = 0 := by
    refine List.countP_eq_zero.mpr fun start hs => ?_
    have hbounds := Text.bounds_of_mem_startsAfterFeeds hs
    simp only [decide_eq_true_eq]
    omega
  rw [lineOf, ofText, Nat.zero_min]
  dsimp only
  rw [List.countP_cons_of_pos (by simp), hlater]

/-! ## Code up to the end -/

/-- A text without quotes and comments, which does not end with what may begin a comment. -/
def Text.IsCode (text : List Char) : Prop := isBare text = true ∧ text.getLast? ≠ some '/'

theorem Text.IsCode.cons (h : IsCode (c :: a)) : c ≠ '"' ∧ c ≠ '\'' ∧
    (∀ rest, ¬ (c = '/' ∧ ((a ++ rest).head? = some '/' ∨ (a ++ rest).head? = some '*'))) ∧
      IsCode a := by
  obtain ⟨hbare, hlast⟩ := h
  obtain ⟨hquote, hmark, hcomment, hrest⟩ := isBare_cons.mp hbare
  cases a with
  | nil => exact ⟨hquote, hmark, fun _ hc => hlast (congrArg some hc.1), rfl, nofun⟩
  | cons b a =>
    refine ⟨hquote, hmark, fun _ => hcomment, hrest, ?_⟩
    rwa [List.getLast?_cons_cons] at hlast

theorem Text.IsCode.append {b : List Char} (ha : IsCode a) (hb : IsCode b) : IsCode (a ++ b) := by
  induction a with
  | nil => exact hb
  | cons c a ih =>
    obtain ⟨hquote, hmark, hcomment, hcode⟩ := ha.cons
    refine ⟨isBare_cons.mpr ⟨hquote, hmark, hcomment b, (ih hcode).1⟩, ?_⟩
    cases hrest : a ++ b with
    | nil =>
      obtain ⟨rfl, rfl⟩ := List.append_eq_nil_iff.mp hrest
      exact ha.2
    | cons d more =>
      rw [List.cons_append, hrest, List.getLast?_cons_cons, ← hrest]
      exact (ih hcode).2

/-- A text without any of the marks of quotes and comments. -/
theorem Text.isCode_of_forall (h : ∀ c ∈ a, c ≠ '"' ∧ c ≠ '\'' ∧ c ≠ '/') : IsCode a := by
  refine ⟨List.append_nil a ▸ isBare_append_of_forall h rfl, fun hlast => ?_⟩
  exact (h '/' (List.mem_of_getLast? hlast)).2.2 rfl

namespace Mask

/-- Java asks for nothing in front of a character, neither to hide it nor to go on. -/
theorem step_java (mode : Mode) (fresh fresh' : Bool) (previous previous' : Option Char)
    (c : Char) (rest : List Char) :
    (step .java mode fresh previous c rest).1 = (step .java mode fresh' previous' c rest).1 ∧
      (step .java mode fresh previous c rest).2.1 =
        (step .java mode fresh' previous' c rest).2.1 := by
  cases mode <;>
    simp [step, MaskRules.java, apply_ite Prod.fst, apply_ite (fun x : Shade × Mode × Bool => x.2)]

theorem shadesFrom_java (mode : Mode) (fresh fresh' : Bool) (previous previous' : Option Char)
    (text : List Char) :
    shadesFrom .java mode fresh previous text = shadesFrom .java mode fresh' previous' text := by
  induction text generalizing mode fresh fresh' previous previous' with
  | nil => rfl
  | cons c rest ih =>
    obtain ⟨hshade, hmode⟩ := step_java mode fresh fresh' previous previous' c rest
    rw [shadesFrom, shadesFrom]
    dsimp only
    rw [hshade, hmode, ih]

theorem paint_code_append (h : Text.IsCode a) (hidden : Shade → Bool) (hplain : hidden .plain = false)
    (fresh : Bool) (previous : Option Char) :
    paint hidden (shadesFrom .java .code fresh previous (a ++ rest)) (a ++ rest) =
      a ++ paint hidden (shadesFrom .java .code true none rest) rest := by
  induction a generalizing fresh previous with
  | nil =>
    rw [List.nil_append, shadesFrom_java .code fresh true previous none]
    rfl
  | cons c a ih =>
    obtain ⟨hquote, hmark, hcomment, hcode⟩ := h.cons
    rw [List.cons_append, shadesFrom, step_code hquote hmark (hcomment rest)]
    show (if hidden .plain then blank c else [c]) ++ paint hidden _ (a ++ rest) = _
    rw [hplain, ih hcode]
    rfl

/-- What is hidden behind code does not depend on it. -/
theorem views_code_append (h : Text.IsCode a) (rest : List Char) :
    stripped .java (a ++ rest) = a ++ stripped .java rest ∧
      masked .java (a ++ rest) = a ++ masked .java rest :=
  ⟨paint_code_append h _ rfl true none, paint_code_append h _ rfl true none⟩

end Mask

/-! ## Delimiters -/

namespace Delimiter

/-- Code without some delimiters is passed over when these are paired. -/
theorem closeFrom_code_append {opening closing : Char} (h : Text.IsCode a) (ho : opening ∉ a)
    (hc : closing ∉ a) (depth offset : Nat) (rest : List Char) :
    closeFrom opening closing .code depth offset (a ++ rest) =
      closeFrom opening closing .code depth (offset + Text.width a) rest := by
  induction a generalizing offset with
  | nil => rfl
  | cons c a ih =>
    obtain ⟨hquote, hmark, hcomment, hcode⟩ := h.cons
    rw [List.mem_cons, not_or] at ho hc
    rw [List.cons_append, closeFrom, Mode.after_code hquote hmark (hcomment rest),
      if_neg fun h => ho.1 h.2.symm, if_neg fun h => hc.1 h.2.symm, ih hcode ho.2 hc.2,
      Text.width_cons, Nat.add_assoc]

/-- A delimiter with code behind it is paired behind the code. -/
theorem closeOf?_code_append {opening closing : Char} (hpair : closing? opening = some closing)
    (h : Text.IsCode a) (ho : opening ∉ a) (hc : closing ∉ a) (offset : Nat) (rest : List Char) :
    closeOf? offset (opening :: (a ++ rest)) =
      closeFrom opening closing .code 1 (offset + Text.width (opening :: a)) rest := by
  have hmode : Mode.code.after opening (a ++ rest) = .code := by
    rw [closing?.eq_def] at hpair
    split at hpair
    · rfl
    · rfl
    · rfl
    · rfl
    · cases hpair
  rw [closeOf?, hpair, Option.bind_some, closeFrom, if_pos ⟨rfl, rfl⟩, hmode,
    closeFrom_code_append h ho hc, Text.width_cons, Nat.add_assoc]

/-- A stretch of code behind an opening delimiter moves the closing one further on. -/
theorem find_insert {gap note : List Char} {opening closing : Char} (front : List Char)
    (hpair : closing? opening = some closing) (hgap : Text.IsCode gap) (hnote : Text.IsCode note)
    (ho : opening ∉ gap ++ note) (hc : closing ∉ gap ++ note) (rest : List Char) :
    find (front ++ opening :: (gap ++ (note ++ rest))) (Text.width front) =
      (find (front ++ opening :: (gap ++ rest)) (Text.width front)).down (Text.width note) := by
  rw [List.mem_append, not_or] at ho hc
  have hwith := closeOf?_code_append hpair (hgap.append hnote) (by simp [ho]) (by simp [hc])
    (Text.width front) rest
  have hwithout := closeOf?_code_append hpair hgap ho.1 hc.1 (Text.width front) rest
  have hclose : closeOf? (Text.width front) (opening :: (gap ++ (note ++ rest))) =
      (closeOf? (Text.width front) (opening :: (gap ++ rest))).map (· + Text.width note) := by
    rw [← List.append_assoc gap, hwith, hwithout, ← closeFrom_add, ← List.cons_append,
      Text.width_append, Nat.add_assoc]
  have hlast : lastOffset (front ++ opening :: (gap ++ (note ++ rest))) =
      lastOffset (front ++ opening :: (gap ++ rest)) + Text.width note := by
    have hsize := Char.utf8Size_pos opening
    simp only [lastOffset, Text.width_append, Text.width_cons]
    omega
  rw [find, find, Text.dropWidth?_width_append, Text.dropWidth?_width_append]
  dsimp only
  rw [hpair, hclose, hlast]
  simp only [Option.isNone_some, Bool.false_eq_true, if_false]
  cases closeOf? (Text.width front) (opening :: (gap ++ rest)) <;> rfl

/-- Code either has the place where an open delimiter closes, or the delimiter stays open over
it. -/
theorem closeFrom_code_cases {opening closing : Char} (h : Text.IsCode a) (depth offset : Nat) :
    (∃ lead trail, a = lead ++ closing :: trail ∧ ∀ rest,
      closeFrom opening closing .code depth offset (a ++ rest) = some (offset + Text.width lead)) ∨
    ∃ depth', ∀ rest, closeFrom opening closing .code depth offset (a ++ rest) =
      closeFrom opening closing .code depth' (offset + Text.width a) rest := by
  induction a generalizing depth offset with
  | nil => exact .inr ⟨depth, fun _ => rfl⟩
  | cons c a ih =>
    obtain ⟨hquote, hmark, hcomment, hcode⟩ := h.cons
    have hafter : ∀ rest, Mode.code.after c (a ++ rest) = .code := fun rest =>
      Mode.after_code hquote hmark (hcomment rest)
    have hlater : ∀ depth', (∀ rest, closeFrom opening closing .code depth offset (c :: (a ++ rest)) =
        closeFrom opening closing .code depth' (offset + c.utf8Size) (a ++ rest)) →
        (∃ lead trail, c :: a = lead ++ closing :: trail ∧ ∀ rest,
          closeFrom opening closing .code depth offset (c :: a ++ rest) =
            some (offset + Text.width lead)) ∨
        ∃ depth', ∀ rest, closeFrom opening closing .code depth offset (c :: a ++ rest) =
          closeFrom opening closing .code depth' (offset + Text.width (c :: a)) rest := by
      intro depth' hstep
      rcases ih hcode depth' (offset + c.utf8Size) with ⟨lead, trail, rfl, hclose⟩ | ⟨deeper, hopen⟩
      · refine .inl ⟨c :: lead, trail, rfl, fun rest => ?_⟩
        rw [List.cons_append, hstep, hclose, Text.width_cons, Nat.add_assoc]
      · refine .inr ⟨deeper, fun rest => ?_⟩
        rw [List.cons_append, hstep, hopen, Text.width_cons, Nat.add_assoc]
    by_cases hopening : c = opening
    · refine hlater (depth + 1) fun rest => ?_
      rw [closeFrom, hafter, if_pos ⟨rfl, hopening⟩]
    · by_cases hclosing : c = closing
      · by_cases hdepth : depth ≤ 1
        · refine .inl ⟨[], a, by rw [hclosing]; rfl, fun rest => ?_⟩
          rw [List.cons_append, closeFrom, hafter, if_neg fun h => hopening h.2,
            if_pos ⟨rfl, hclosing⟩, if_pos hdepth]
          rfl
        · refine hlater (depth - 1) fun rest => ?_
          rw [closeFrom, hafter, if_neg fun h => hopening h.2, if_pos ⟨rfl, hclosing⟩, if_neg hdepth]
      · refine hlater depth fun rest => ?_
        rw [closeFrom, hafter, if_neg fun h => hopening h.2, if_neg fun h => hclosing h.2]

/-- A delimiter with code behind it is paired at one place of the code, or behind it, whatever
stands there. -/
theorem find_code_cases {opening closing : Char} (hpair : closing? opening = some closing)
    (h : Text.IsCode a) (before : List Char) :
    (∃ lead trail, a = lead ++ closing :: trail ∧ ∀ rest,
      find (before ++ opening :: (a ++ rest)) (Text.width before) =
        ⟨Text.width before + 1 + Text.width lead, true⟩) ∨
    ∀ rest, Text.width (before ++ opening :: a) ≤
      (find (before ++ opening :: (a ++ rest)) (Text.width before)).close + 1 := by
  obtain ⟨hsize, -⟩ := closing?_some hpair
  have hwidth : Text.width (before ++ opening :: a) = Text.width before + 1 + Text.width a := by
    rw [Text.width_append, Text.width_cons, hsize, Nat.add_assoc]
  have hopens : ∀ rest, closeOf? (Text.width before) (opening :: (a ++ rest)) =
      closeFrom opening closing .code 1 (Text.width before + 1) (a ++ rest) := by
    intro rest
    have hclose := closeOf?_code_append hpair (a := []) ⟨rfl, nofun⟩ List.not_mem_nil
      List.not_mem_nil (Text.width before) (a ++ rest)
    rwa [List.nil_append, Text.width_cons, Text.width_nil, hsize] at hclose
  have hfind : ∀ rest, find (before ++ opening :: (a ++ rest)) (Text.width before) =
      ((closeFrom opening closing .code 1 (Text.width before + 1) (a ++ rest)).map (⟨·, true⟩)).getD
        ⟨lastOffset (before ++ opening :: (a ++ rest)), false⟩ := by
    intro rest
    rw [← hopens, find, Text.dropWidth?_width_append]
    dsimp only
    rw [hpair]
    cases closeOf? (Text.width before) (opening :: (a ++ rest)) <;> rfl
  rcases closeFrom_code_cases h 1 (Text.width before + 1) with
    ⟨lead, trail, hsplit, hclose⟩ | ⟨depth, hopen⟩
  · refine .inl ⟨lead, trail, hsplit, fun rest => ?_⟩
    rw [hfind, hclose, Option.map_some, Option.getD_some]
  · refine .inr fun rest => ?_
    rw [hfind, hopen, hwidth]
    cases hclose : closeFrom opening closing .code depth (Text.width before + 1 + Text.width a)
        rest with
    | some close =>
      obtain ⟨_, _, -, rfl⟩ := exists_of_closeFrom hclose
      rw [Option.map_some, Option.getD_some]
      dsimp only
      omega
    | none =>
      rw [Option.map_none, Option.getD_none]
      simp only [lastOffset, Text.width_append, Text.width_cons, hsize]
      omega

end Delimiter

/-! ## Braces -/

namespace BraceIndex

variable {f : Nat → Nat} {n : Nat}

/-- The braces around a place behind a stretch are those that were around it, further on. -/
theorem stackFrom_map {text : List Char} {offset : Nat} (hf : ∀ p, offset ≤ p → f p = p + n) (q : Nat)
    (stack : List Nat) :
    stackFrom (q + n) (stack.map f) (offset + n) text = (stackFrom q stack offset text).map f := by
  induction text generalizing stack offset with
  | nil => rfl
  | cons c text ih =>
    have hlater : ∀ k, ∀ p, offset + k ≤ p → f p = p + n := fun k p hp =>
      hf p (Nat.le_trans (Nat.le_add_right _ _) hp)
    by_cases hopen : c = '\x7b'
    · subst hopen
      have hstack : (offset + n) :: stack.map f = (offset :: stack).map f := by
        rw [List.map_cons, hf offset (Nat.le_refl _)]
      rw [stackFrom_open, stackFrom_open, Nat.add_right_comm offset, hstack, ih (hlater 1)]
      simp only [Nat.add_le_add_iff_right]
      split <;> rfl
    · by_cases hclose : c = '\x7d'
      · subst hclose
        cases stack with
        | nil =>
          rw [List.map_nil, stackFrom_close_nil, stackFrom_close_nil, Nat.add_right_comm offset]
          exact ih (hlater 1) []
        | cons inner stack =>
          rw [List.map_cons, stackFrom_close_cons, stackFrom_close_cons, Nat.add_right_comm offset,
            ih (hlater 1)]
          simp only [Nat.add_le_add_iff_right]
          split <;> rfl
      · rw [stackFrom_other _ _ _ _ hopen hclose, stackFrom_other _ _ _ _ hopen hclose,
          Nat.add_right_comm offset, ih (hlater _)]

/-- Braces further down are around places further down. -/
theorem enclosingChain_lower (feeds : Nat) (text : List Char) (offset : Nat) :
    (ofText (Text.lower feeds text)).enclosingChain (offset + feeds) =
      ((ofText text).enclosingChain offset).map (· + feeds) := by
  have hfeeds : Delimiter.balanced '\x7b' '\x7d' (List.replicate feeds '\n') = true :=
    Delimiter.balanced_of_not_mem (by simp) (by simp)
  have hwidth : 0 + Text.width (List.replicate feeds '\n') = 0 + feeds := by rw [Text.width_feeds]
  rw [enclosingChain_eq, enclosingChain_eq, Text.lower, stackFrom_append_of_balanced hfeeds
    (by rw [hwidth]; omega), hwidth]
  exact stackFrom_map (fun _ _ => rfl) offset []

end BraceIndex
end Outline
