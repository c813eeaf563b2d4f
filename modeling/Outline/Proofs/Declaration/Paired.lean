import Outline.Proofs.Declaration.LineCheck
import Outline.Proofs.Text.Line
import Outline.Proofs.Text.Word

/-!
# Texts whose parentheses raise no error

A text is read line by line, and what is open behind a line is carried over to the next.  An
error takes away what it is about, so the depth that is carried is the number of parentheses
that the text leaves open only as long as there was no error.  Up to the first one it is,
and a text without errors is told by its parentheses alone.
-/

namespace Outline

/-! ## Lines and what stands in front of them -/

namespace Text

/-- A line of a text, without its line feed, and all that stands in front of it. -/
def LineAfter (text front line : List Char) : Prop :=
  ∃ rear, text = front ++ (line ++ rear) ∧ startsLine front = true ∧ '\n' ∉ line ∧
    rear.head?.all (· == '\n') = true

/-- What holds of a text without line feeds, and of a text with one more line in front, holds of
every text. -/
theorem induction_lines {motive : List Char → Prop}
    (last : ∀ line, '\n' ∉ line → motive line)
    (feed : ∀ line rest, '\n' ∉ line → motive rest → motive (line ++ '\n' :: rest))
    (text : List Char) : motive text := by
  induction hn : text.length using Nat.strongRecOn generalizing text with
  | ind n ih =>
    by_cases hfeed : '\n' ∈ text
    · obtain ⟨line, rest, rfl, hline⟩ := List.eq_append_cons_of_mem hfeed
      have hlength : rest.length < n := by
        rw [← hn, List.length_append, List.length_cons]
        omega
      exact feed line rest hline (ih rest.length hlength rest rfl)
    · exact last text hfeed

theorem lines_append_feed {line : List Char} (h : '\n' ∉ line) (rest : List Char) :
    lines (line ++ '\n' :: rest) = chopReturn line :: lines rest :=
  linesFrom_append_feed h [] rest

theorem linesFrom_of_not_mem {text : List Char} (h : '\n' ∉ text) (line : List Char) :
    linesFrom line text =
      if (line.reverse ++ text).isEmpty then [] else [line.reverse ++ text] := by
  induction text generalizing line with
  | nil => simp [linesFrom]
  | cons c text ih =>
    rw [List.mem_cons, not_or] at h
    rw [linesFrom, if_neg (Ne.symm h.1), ih h.2, List.reverse_cons, List.append_assoc]
    rfl

/-- A text without line feeds is one line, or none when it is empty. -/
theorem lines_of_not_mem {text : List Char} (h : '\n' ∉ text) :
    lines text = if text.isEmpty then [] else [text] :=
  linesFrom_of_not_mem h []

/-- A carriage return at the end of a line is a blank. -/
theorem chopReturn_cases (line : List Char) :
    chopReturn line = line ∨ line = chopReturn line ++ ['\r'] := by
  rw [chopReturn]
  cases hdrop : dropTrail? ['\r'] line with
  | none => exact .inl rfl
  | some rest => exact .inr (eq_append_of_dropTrail? hdrop)

theorem count_chopReturn {c : Char} (hc : c ≠ '\r') (line : List Char) :
    (chopReturn line).count c = line.count c := by
  rcases chopReturn_cases line with h | h
  · rw [h]
  · generalize chopReturn line = shown at h
    simp [h, Ne.symm hc]

theorem startsLine_append_feed (a b : List Char) :
    startsLine (a ++ '\n' :: b) = startsLine b := by
  rcases List.eq_nil_or_concat b with rfl | ⟨init, last, rfl⟩
  · simp [startsLine]
  · rw [startsLine, startsLine, List.concat_eq_append, ← List.cons_append, ← List.append_assoc,
      List.getLast?_concat, List.getLast?_concat]

theorem mem_of_startsLine {front : List Char} (h : startsLine front = true) (hne : front ≠ []) :
    '\n' ∈ front := by
  rcases List.eq_nil_or_concat front with rfl | ⟨init, last, rfl⟩
  · exact absurd rfl hne
  · obtain rfl : last = '\n' := by simpa [startsLine] using h
    simp

/-- The only line of a text without line feeds. -/
theorem lineAfter_iff_of_not_mem {text front line : List Char} (h : '\n' ∉ text) :
    LineAfter text front line ↔ front = [] ∧ line = text := by
  constructor
  · rintro ⟨rear, rfl, hstart, hline, hrear⟩
    simp only [List.mem_append, not_or] at h
    obtain ⟨hfront, -, hfeed⟩ := h
    have hfront : front = [] :=
      Decidable.byContradiction fun hne => hfront (mem_of_startsLine hstart hne)
    have hrear : rear = [] := by
      cases rear with
      | nil => rfl
      | cons c rear =>
        obtain rfl : c = '\n' := by simpa using hrear
        exact absurd List.mem_cons_self hfeed
    exact ⟨hfront, by rw [hfront, hrear]; simp⟩
  · rintro ⟨rfl, rfl⟩
    exact ⟨[], by simp, rfl, h, rfl⟩

theorem eq_of_append_feed {a b c d : List Char} (ha : '\n' ∉ a) (hc : '\n' ∉ c)
    (h : a ++ '\n' :: b = c ++ '\n' :: d) : a = c ∧ b = d := by
  have htake : ∀ {word : List Char} (rest : List Char), '\n' ∉ word →
      (word ++ '\n' :: rest).takeWhile (· != '\n') = word := by
    intro word rest hword
    rw [List.takeWhile_append_of_pos fun x hx => ?_]
    · simp
    · simpa using ne_of_mem_of_not_mem hx hword
  have hac : a = c := by rw [← htake b ha, h, htake d hc]
  subst hac
  exact ⟨rfl, (List.cons.inj (List.append_cancel_left h)).2⟩

/-- The lines of a text are its first one and those of what comes behind it. -/
theorem lineAfter_append_feed {first rest front line : List Char} (h : '\n' ∉ first) :
    LineAfter (first ++ '\n' :: rest) front line ↔
      front = [] ∧ line = first ∨
        ∃ more, front = first ++ '\n' :: more ∧ LineAfter rest more line := by
  constructor
  · rintro ⟨rear, heq, hstart, hline, hrear⟩
    by_cases hfront : front = []
    · subst hfront
      cases rear with
      | nil =>
        have hmem : '\n' ∈ line := by
          rw [List.nil_append, List.append_nil] at heq
          exact heq ▸ List.mem_append_right _ List.mem_cons_self
        exact absurd hmem hline
      | cons c rear =>
        obtain rfl : c = '\n' := by simpa using hrear
        exact .inl ⟨rfl, (eq_of_append_feed h hline heq).1.symm⟩
    · obtain ⟨lead, more, rfl, hlead⟩ :=
        List.eq_append_cons_of_mem (mem_of_startsLine hstart hfront)
      rw [List.append_assoc, List.cons_append] at heq
      obtain ⟨rfl, rfl⟩ := eq_of_append_feed h hlead heq
      rw [startsLine_append_feed] at hstart
      exact .inr ⟨more, rfl, rear, rfl, hstart, hline, hrear⟩
  · rintro (⟨rfl, rfl⟩ | ⟨more, rfl, rear, rfl, hstart, hline, hrear⟩)
    · exact ⟨'\n' :: rest, rfl, rfl, h, rfl⟩
    · exact ⟨rear, by simp, (startsLine_append_feed first more).trans hstart, hline, hrear⟩

end Text

/-! ## What covers the parentheses of a text -/

namespace LineCheck

/-- The parentheses that are open in front of a text cover all that it closes. -/
def Covered (depth : Nat) (text : List Char) : Prop :=
  ∀ front, front <+: text → front.count ')' ≤ depth + front.count '('

/-- How many parentheses are open behind a character. -/
def depthAfter (depth : Nat) (c : Char) : Nat :=
  if c = '(' then depth + 1 else if c = ')' then depth - 1 else depth

theorem covered_nil (depth : Nat) : Covered depth [] := fun front hfront => by
  rw [List.prefix_nil.mp hfront]
  exact Nat.zero_le _

/-- One character less: what it closes has been open. -/
theorem covered_cons {depth : Nat} {c : Char} {text : List Char} :
    Covered depth (c :: text) ↔ (c = ')' → 0 < depth) ∧ Covered (depthAfter depth c) text := by
  have hstep : ∀ front : List Char, (c = ')' → 0 < depth) →
      (front.count ')' ≤ depthAfter depth c + front.count '(' ↔
        (c :: front).count ')' ≤ depth + (c :: front).count '(') := by
    intro front hc
    rw [List.count_cons, List.count_cons, depthAfter]
    by_cases ho : c = '('
    · subst ho
      simp
      omega
    · by_cases hclose : c = ')'
      · have hpos : 0 < depth := hc hclose
        subst hclose
        simp
        omega
      · simp [ho, hclose]
  constructor
  · intro h
    have hpos : c = ')' → 0 < depth := by
      rintro rfl
      exact h [')'] (by simp)
    exact ⟨hpos, fun front hfront =>
      (hstep front hpos).mpr (h (c :: front) (by simpa using hfront))⟩
  · rintro ⟨hpos, h⟩ front hfront
    rcases List.prefix_cons_iff.mp hfront with rfl | ⟨more, rfl, hmore⟩
    · exact Nat.zero_le _
    · exact (hstep more hpos).mp (h more hmore)

/-- What is covered in a text of two parts. -/
theorem covered_append {depth : Nat} {a b : List Char} :
    Covered depth (a ++ b) ↔
      Covered depth a ∧ ∀ after, after + a.count ')' = depth + a.count '(' → Covered after b := by
  constructor
  · intro h
    refine ⟨fun front hfront => h front (hfront.trans (List.prefix_append a b)), ?_⟩
    intro after hafter front hfront
    have hwhole := h (a ++ front) ((List.prefix_append_right_inj a).mpr hfront)
    rw [List.count_append, List.count_append] at hwhole
    omega
  · rintro ⟨ha, hb⟩ front hfront
    rcases List.prefix_or_prefix_of_prefix hfront (List.prefix_append a b) with h | ⟨more, rfl⟩
    · exact ha front h
    · have hmore := ha a List.prefix_rfl
      have hrest := hb (depth + a.count '(' - a.count ')') (by omega) more
        ((List.prefix_append_right_inj a).mp hfront)
      rw [List.count_append, List.count_append]
      omega

namespace Parens

/-- What is kept behind one more character of a line. -/
def next (parens : Parens) (column : Nat) (c : Char) : Parens where
  depth := depthAfter parens.depth c
  opened :=
    if c = '(' then column :: parens.opened else if c = ')' then parens.opened.tail
    else parens.opened
  unexpected := parens.unexpected ++ if c = ')' ∧ parens.depth = 0 then [column] else []

theorem read_cons (parens : Parens) (column : Nat) (c : Char) (rest : List Char) :
    parens.read column (c :: rest) = (parens.next column c).read (column + 1) rest := by
  rw [read, next]
  congr 1
  by_cases ho : c = '('
  · subst ho
    simp [depthAfter]
  · by_cases hc : c = ')'
    · subst hc
      obtain ⟨depth, opened, unexpected⟩ := parens
      cases depth <;> simp [depthAfter]
    · simp [depthAfter, ho, hc]

theorem unexpected_isPrefix_next (parens : Parens) (column : Nat) (c : Char) :
    parens.unexpected <+: (parens.next column c).unexpected :=
  List.prefix_append _ _

theorem unexpected_isPrefix_read (parens : Parens) (column : Nat) (rest : List Char) :
    parens.unexpected <+: (parens.read column rest).unexpected := by
  induction rest generalizing parens column with
  | nil => exact List.prefix_rfl
  | cons c rest ih =>
    rw [read_cons]
    exact (parens.unexpected_isPrefix_next column c).trans (ih _ _)

/-- Nothing is reported of a line as long as what it closes is covered. -/
theorem unexpected_read_eq_iff (parens : Parens) (column : Nat) (rest : List Char) :
    (parens.read column rest).unexpected = parens.unexpected ↔ Covered parens.depth rest := by
  induction rest generalizing parens column with
  | nil => exact iff_of_true rfl (covered_nil _)
  | cons c rest ih =>
    rw [read_cons, covered_cons, show depthAfter parens.depth c = (parens.next column c).depth from
      rfl, ← ih _ (column + 1)]
    have hnext : (parens.next column c).unexpected = parens.unexpected ↔
        (c = ')' → 0 < parens.depth) := by
      simp [next, Nat.pos_iff_ne_zero]
    rw [← hnext]
    constructor
    · intro h
      have hsame : (parens.next column c).unexpected = parens.unexpected := by
        refine ((parens.unexpected_isPrefix_next column c).eq_of_length_le ?_).symm
        rw [← h]
        exact (unexpected_isPrefix_read _ _ _).length_le
      exact ⟨hsame, h.trans hsame.symm⟩
    · rintro ⟨hsame, h⟩
      exact h.trans hsame

/-- As long as what a line closes is covered, the depth is what is open and not closed. -/
theorem depth_read {parens : Parens} {rest : List Char} (h : Covered parens.depth rest)
    (column : Nat) :
    (parens.read column rest).depth + rest.count ')' = parens.depth + rest.count '(' := by
  induction rest generalizing parens column with
  | nil => rfl
  | cons c rest ih =>
    obtain ⟨hpos, hrest⟩ := covered_cons.mp h
    have hdepth := @ih (parens.next column c) hrest (column + 1)
    rw [read_cons, List.count_cons, List.count_cons]
    have hc : (parens.next column c).depth + (if c = ')' then 1 else 0) =
        parens.depth + if c = '(' then 1 else 0 := by
      show depthAfter parens.depth c + _ = _
      rw [depthAfter]
      by_cases ho : c = '('
      · subst ho
        simp
      · by_cases hclose : c = ')'
        · have := hpos hclose
          simp [hclose]
          omega
        · simp [ho, hclose]
    simp only [beq_iff_eq]
    omega

end Parens

/-! ## The errors of a text -/

/-- Whether a line with so many parentheses open in front of it raises no error: it covers what
it closes, and as a statement with none open in front of it, it leaves none open. -/
def Clean (depth : Nat) (line : List Char) : Prop :=
  Covered depth line ∧
    (depth = 0 → Text.endsWith (Text.trim line) [';'] = true → line.count ')' = line.count '(')

/-- What the parentheses of a text, in front of which some are open, are like when none of them
is an error. -/
structure Sound (depth : Nat) (text : List Char) : Prop where
  covered : Covered depth text
  closed : ∀ front line, Text.LineAfter text front line →
    depth + front.count '(' = front.count ')' →
      Text.endsWith (Text.trim line) [';'] = true → line.count ')' = line.count '('

theorem errors_checkFrom_cons (rules : LineRules) (number depth : Nat) (line : List Char)
    (rest : List (List Char)) :
    (checkFrom rules number depth (line :: rest)).errors = [] ↔
      Clean depth line ∧ ∀ after, after + line.count ')' = depth + line.count '(' →
        (checkFrom rules (number + 1) after rest).errors = [] := by
  have hcovered : (Parens.read ⟨depth, [], []⟩ 0 line).unexpected = [] ↔ Covered depth line :=
    Parens.unexpected_read_eq_iff ⟨depth, [], []⟩ 0 line
  rw [checkFrom]
  simp only [List.append_eq_nil_iff, List.map_eq_nil_iff, hcovered, ite_eq_right_iff,
    List.cons_ne_nil, imp_false, Clean, and_assoc]
  refine and_congr_right fun hline => ?_
  have hdepth : (Parens.read ⟨depth, [], []⟩ 0 line).depth + line.count ')' =
      depth + line.count '(' := @Parens.depth_read ⟨depth, [], []⟩ line hline 0
  generalize Parens.read ⟨depth, [], []⟩ 0 line = parens at hdepth ⊢
  have hclosed : ¬ (Text.endsWith (Text.trim line) [';'] && depth == 0 &&
      decide (0 < parens.depth)) = true ↔
      (depth = 0 → Text.endsWith (Text.trim line) [';'] = true →
        line.count ')' = line.count '(') := by
    have hzero : depth = 0 → (¬ 0 < parens.depth ↔ line.count ')' = line.count '(') := by
      intro h
      omega
    simp only [Bool.and_eq_true, beq_iff_eq, decide_eq_true_eq]
    exact ⟨fun h hd he => (hzero hd).mp fun hp => h ⟨⟨he, hd⟩, hp⟩,
      fun h hall => (hzero hall.1.2).mpr (h hall.1.2 hall.1.1) hall.2⟩
  rw [← hclosed]
  refine and_congr_right fun hopen => ?_
  rw [if_neg hopen]
  refine ⟨fun h after hafter => ?_, fun h => h parens.depth hdepth⟩
  obtain rfl : after = parens.depth := by omega
  exact h

/-- A carriage return in front of the line feed makes no difference to a line. -/
theorem clean_chopReturn {depth : Nat} {line : List Char} :
    Clean depth (Text.chopReturn line) ↔ Clean depth line := by
  rcases Text.chopReturn_cases line with h | h
  · rw [h]
  · generalize Text.chopReturn line = shown at h
    subst h
    have hcovered : Covered depth (shown ++ ['\r']) ↔ Covered depth shown := by
      rw [covered_append]
      exact and_iff_left fun after _ => covered_cons.mpr ⟨nofun, covered_nil after⟩
    rw [Clean, Clean, hcovered, Text.trim_append_blank (by decide)]
    simp

theorem sound_of_not_mem {depth : Nat} {text : List Char} (h : '\n' ∉ text) :
    Sound depth text ↔ Clean depth text := by
  constructor
  · intro hsound
    exact ⟨hsound.covered, fun hdepth => hsound.closed [] text
      ((Text.lineAfter_iff_of_not_mem h).mpr ⟨rfl, rfl⟩) (by simpa using hdepth)⟩
  · rintro ⟨hcovered, hclosed⟩
    refine ⟨hcovered, fun front line hline hdepth => ?_⟩
    obtain ⟨rfl, rfl⟩ := (Text.lineAfter_iff_of_not_mem h).mp hline
    exact hclosed hdepth

theorem sound_append_feed {depth : Nat} {line rest : List Char} (h : '\n' ∉ line) :
    Sound depth (line ++ '\n' :: rest) ↔
      Clean depth line ∧ ∀ after, after + line.count ')' = depth + line.count '(' →
        Sound after rest := by
  have hcovered : Covered depth (line ++ '\n' :: rest) ↔ Covered depth line ∧
      ∀ after, after + line.count ')' = depth + line.count '(' → Covered after rest := by
    rw [covered_append]
    simp [covered_cons, depthAfter]
  constructor
  · rintro ⟨hall, hclosed⟩
    obtain ⟨hline, hrest⟩ := hcovered.mp hall
    refine ⟨⟨hline, fun hdepth => hclosed [] line
      ((Text.lineAfter_append_feed h).mpr (.inl ⟨rfl, rfl⟩)) (by simpa using hdepth)⟩, ?_⟩
    refine fun after hafter => ⟨hrest after hafter, fun front other hother hdepth => ?_⟩
    refine hclosed (line ++ '\n' :: front) other
      ((Text.lineAfter_append_feed h).mpr (.inr ⟨front, rfl, hother⟩)) ?_
    simp only [List.count_append, List.count_cons_of_ne (show '\n' ≠ '(' by decide),
      List.count_cons_of_ne (show '\n' ≠ ')' by decide)]
    omega
  · rintro ⟨⟨hline, hclosed⟩, hrest⟩
    refine ⟨hcovered.mpr ⟨hline, fun after hafter => (hrest after hafter).covered⟩, ?_⟩
    intro front other hother hdepth
    rcases (Text.lineAfter_append_feed h).mp hother with ⟨rfl, rfl⟩ | ⟨more, rfl, hmore⟩
    · exact hclosed (by simpa using hdepth)
    · have hcount := hline line List.prefix_rfl
      refine (hrest (depth + line.count '(' - line.count ')') (by omega)).closed more other hmore ?_
      simp only [List.count_append, List.count_cons_of_ne (show '\n' ≠ '(' by decide),
        List.count_cons_of_ne (show '\n' ≠ ')' by decide)] at hdepth
      omega

theorem errors_checkFrom_eq_nil_iff (rules : LineRules) (number depth : Nat) (text : List Char) :
    (checkFrom rules number depth (Text.lines text)).errors = [] ↔ Sound depth text := by
  induction text using Text.induction_lines generalizing number depth with
  | last line hline =>
    rw [Text.lines_of_not_mem hline, sound_of_not_mem hline]
    cases line with
    | nil => exact iff_of_true rfl ⟨covered_nil depth, fun _ _ => rfl⟩
    | cons c line =>
      rw [if_neg (by simp), errors_checkFrom_cons]
      exact and_iff_left fun _ _ => rfl
  | feed line rest hline ih =>
    rw [Text.lines_append_feed hline, errors_checkFrom_cons, clean_chopReturn,
      sound_append_feed hline, Text.count_chopReturn (by decide), Text.count_chopReturn (by decide)]
    simp only [ih]

/-- When a text raises no error of parentheses: no part of it from its start on closes more than
it opens, and each line that starts with as many parentheses closed as opened in front of it and
ends a statement closes as many as it opens. -/
theorem errors_check_eq_nil_iff (rules : LineRules) (text : List Char) :
    (check rules text).errors = [] ↔
      (∀ front, front <+: text → front.count ')' ≤ front.count '(') ∧
        ∀ front line, Text.LineAfter text front line → front.count '(' = front.count ')' →
          Text.endsWith (Text.trim line) [';'] = true → line.count ')' = line.count '(' := by
  rw [check, errors_checkFrom_eq_nil_iff]
  constructor
  · rintro ⟨hcovered, hclosed⟩
    simp only [Covered, Nat.zero_add] at hcovered hclosed
    exact ⟨hcovered, hclosed⟩
  · rintro ⟨hcovered, hclosed⟩
    refine ⟨?_, ?_⟩
    · simpa only [Covered, Nat.zero_add] using hcovered
    · simpa only [Nat.zero_add] using hclosed

end LineCheck
end Outline
