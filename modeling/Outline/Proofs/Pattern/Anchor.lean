import Mathlib.Data.List.Forall2
import Outline.Proofs.Pattern.First
import Outline.Proofs.Text.Lower

/-!
# Where a pattern is anchored

What a pattern asks about the place where its match starts, besides the text after it, and about
what comes behind the text.
-/

namespace Outline
namespace Pattern

/-! ## Starts of lines -/

/-- Whether every match of the pattern starts at the start of a line. -/
def startsLines : Pattern → Bool
  | .lineStart => true
  | .seq p _ => p.startsLines
  | .alt p q => p.startsLines && q.startsLines
  | .part _ p => p.startsLines
  | _ => false

theorem Matches.previous_of_startsLines {p : Pattern} {c d : Cursor} {ms : List Mark}
    (h : Matches p c d ms) (hp : p.startsLines = true) : c.previous.all (· == '\n') = true := by
  induction h with
  | seq _ _ ihp _ => exact ihp hp
  | altLeft _ _ ih => exact ih (Bool.and_eq_true_iff.mp hp).1
  | altRight _ _ ih => exact ih (Bool.and_eq_true_iff.mp hp).2
  | part _ _ ih => exact ih hp
  | lineStart h => exact h
  | _ => simp [startsLines] at hp

/-- A match of such a pattern stands at the start of a line. -/
theorem FoundIn.startsLine {p : Pattern} {text : List Char} {found : Match}
    (h : p.FoundIn text found) (hp : p.startsLines = true) :
    ∃ before rest, text = before ++ rest ∧ found.start = Text.width before ∧
      before.getLast?.all (· == '\n') = true := by
  obtain ⟨before, rest, d, ms, rfl, hm, rfl⟩ := h
  exact ⟨before, rest, rfl, rfl, hm.previous_of_startsLines hp⟩

end Pattern

/-! ## The place itself

What a match reads and marks does not depend on where its text stands, nor on the character in
front of it, unless the pattern asks for that character.  It does not depend on a tail behind the
text either, when the pattern cannot go on with the first character there. -/

/-- The character in front of a place, as far as two places have to have it alike. -/
abbrev InFront := Option Char → Option Char → Prop

section

variable {front : InFront} {n : Nat} {tail : List Char}

/-- Two places with the same text after them, but for a tail at the second one, which is so many
bytes further on. -/
structure Cursor.Shifted (front : InFront) (n : Nat) (tail : List Char) (c d : Cursor) : Prop where
  previous : front c.previous d.previous
  offset : d.offset = c.offset + n
  rest : d.rest = c.rest ++ tail

structure Mark.Shifted (front : InFront) (n : Nat) (tail : List Char) (m m' : Mark) : Prop where
  label : m'.label = m.label
  start : m.start.Shifted front n tail m'.start
  stop : m'.stop = m.stop + n

structure Reach.Shifted (front : InFront) (n : Nat) (tail : List Char) (r s : Reach) : Prop where
  cursor : r.cursor.Shifted front n tail s.cursor
  entered : List.Forall₂ (fun a b : Part × Cursor => b.1 = a.1 ∧ a.2.Shifted front n tail b.2) r.entered
    s.entered
  marks : List.Forall₂ (Mark.Shifted front n tail) r.marks s.marks

/-- What is read between two places is the same text. -/
theorem Mark.Shifted.capture_eq {m m' : Mark} (h : m.Shifted front n tail m') {read : List Char}
    {stop : Cursor} (hread : m.start.Reads read stop) (hstop : stop.offset = m.stop) (base : Nat) :
    m'.start.capture base m'.stop = m.start.capture (base + n) m.stop := by
  have hread' : m'.start.Reads read ⟨none, stop.offset + n, stop.rest ++ tail⟩ := by
    refine ⟨by rw [h.start.rest, hread.1, List.append_assoc], ?_⟩
    rw [h.start.offset, hread.2, Nat.add_right_comm]
  have hcapture := hread'.capture_eq base
  rw [h.start.offset] at hcapture
  rw [h.stop, ← hstop, hread.capture_eq, hcapture, Nat.add_comm m.start.offset, Nat.add_assoc]

/-- The parts that are marked are the same stretches. -/
theorem Match.ofMarks_shifted {marks marks' : List Mark}
    (h : List.Forall₂ (Mark.Shifted front n tail) marks marks') (base : Nat) {c d : Cursor}
    (hw : ∀ m ∈ marks, m.Within c d) (c' d' : Cursor) :
    (Match.ofMarks base c' d' marks').parts = (Match.ofMarks (base + n) c d marks).parts := by
  show marks'.map _ = marks.map _
  induction h with
  | nil => rfl
  | cons hm _ ih =>
    obtain ⟨⟨_, _, _, _, -, hread, hstop, -⟩, hw⟩ := List.forall_mem_cons.mp hw
    rw [List.map_cons, List.map_cons, ih hw, hm.label, hm.capture_eq hread hstop]

namespace Reach

variable {r s : Reach}

theorem Shifted.offset (h : r.Shifted front n tail s) : s.offset = r.offset + n := h.cursor.offset

theorem Shifted.enter (h : r.Shifted front n tail s) (label : Part) :
    (r.enter label).Shifted front n tail (s.enter label) :=
  ⟨h.cursor, .cons ⟨rfl, h.cursor⟩ h.entered, h.marks⟩

theorem Shifted.leave (h : r.Shifted front n tail s) : r.leave.Shifted front n tail s.leave := by
  obtain ⟨c, entered, ms⟩ := r
  obtain ⟨c', entered', ms'⟩ := s
  obtain ⟨hcursor, hentered, hmarks⟩ := h
  cases hentered with
  | nil => exact ⟨hcursor, .nil, hmarks⟩
  | cons hpart hentered =>
    exact ⟨hcursor, hentered, .cons ⟨hpart.1, hpart.2, hcursor.offset⟩ hmarks⟩

theorem Shifted.afterChar? (hfront : ∀ c, front (some c) (some c)) (h : r.Shifted front n tail s)
    {test : Char → Bool} (htail : ∀ c, tail.head? = some c → test c = false) :
    Option.Rel (Reach.Shifted front n tail) (r.afterChar? test) (s.afterChar? test) := by
  rw [Reach.afterChar?, Reach.afterChar?, h.cursor.rest]
  cases r.cursor.rest with
  | nil =>
    cases tail with
    | nil => exact .none
    | cons c tail =>
      have hc : test c = false := htail c rfl
      simp only [List.nil_append, hc]
      exact .none
  | cons c rest =>
    dsimp only [List.cons_append]
    split
    · refine .some ⟨⟨hfront c, ?_, rfl⟩, h.entered, h.marks⟩
      show s.offset + c.utf8Size = r.offset + c.utf8Size + n
      rw [h.offset, Nat.add_right_comm]
    · exact .none

theorem Shifted.afterWord? (hfront : ∀ c, front (some c) (some c)) (h : r.Shifted front n tail s)
    {text : List Char} (htail : ∀ c, tail.head? = some c → c ∉ text) :
    Option.Rel (Reach.Shifted front n tail) (r.afterWord? text) (s.afterWord? text) := by
  rw [Reach.afterWord?, Reach.afterWord?, h.cursor.rest, Text.dropLead?_append htail]
  cases Text.dropLead? text r.cursor.rest with
  | none => exact .none
  | some rest =>
    refine .some ⟨⟨?_, ?_, rfl⟩, h.entered, h.marks⟩
    · show front (text.getLast?.or r.cursor.previous) (text.getLast?.or s.cursor.previous)
      cases text.getLast? with
      | none => exact h.cursor.previous
      | some c => exact hfront c
    · show s.offset + Text.width text = r.offset + Text.width text + n
      rw [h.offset, Nat.add_right_comm]

end Reach

namespace Pattern

/-- What a pattern asks for in front of a place is alike at two places, and with the tail behind
one of them it can do nothing.  Repetitions are looked at only without a tail. -/
def Overlooks (front : InFront) (tail : List Char) : Pattern → Prop
  | .char test | .run _ test => ∀ c, tail.head? = some c → test c = false
  | .word text => ∀ c, tail.head? = some c → c ∉ text
  | .seq p q | .alt p q => p.Overlooks front tail ∧ q.Overlooks front tail
  | .star _ p => tail = [] ∧ p.Overlooks front tail
  | .part _ p => p.Overlooks front tail
  | .boundary => (∀ x y, front x y → y.any Text.isWordChar = x.any Text.isWordChar) ∧
      ∀ c, tail.head? = some c → Text.isWordChar c = false
  | .lineStart => ∀ x y, front x y → y.all (· == '\n') = x.all (· == '\n')
  | .textStart => ∀ x y, front x y → y.isNone = x.isNone
  | .textEnd => tail = []
  | .empty => True

/-- What a repetition has found at two places. -/
structure Found.Shifted (front : InFront) (n : Nat) (tail : List Char) (f g : Found) : Prop where
  reaches : List.Forall₂ (Reach.Shifted front n tail) f.reaches g.reaches
  has : ∀ offset, g.offsets.has (offset + n) = f.offsets.has offset

theorem has_add_shifted {set set' : OffsetSet}
    (h : ∀ offset, set'.has (offset + n) = set.has offset) (a b : Nat) :
    (set'.add (a + n)).has (b + n) = (set.add a).has b := by
  rw [Bool.eq_iff_iff, OffsetSet.has_add, OffsetSet.has_add, h, Nat.add_right_cancel_iff]

variable {f g : Found} {r s : Reach}

theorem Found.Shifted.none : Found.none.Shifted front n tail .none :=
  ⟨.nil, fun offset => (OffsetSet.has_empty _).trans (OffsetSet.has_empty offset).symm⟩

theorem Found.Shifted.has_eq (h : f.Shifted front n tail g) (hr : r.Shifted front n tail s) :
    g.has s = f.has r := by
  rw [Found.has, Found.has, hr.offset, h.has]

theorem Found.Shifted.add (h : f.Shifted front n tail g) (hr : r.Shifted front n tail s) :
    (f.add r).Shifted front n tail (g.add s) := by
  refine ⟨.cons hr h.reaches, fun offset => ?_⟩
  show (g.offsets.add s.offset).has (offset + n) = (f.offsets.add r.offset).has offset
  rw [hr.offset]
  exact has_add_shifted h.has _ _

theorem Found.Shifted.toList (h : f.Shifted front n tail g) :
    List.Forall₂ (Reach.Shifted front n tail) f.toList g.toList :=
  List.rel_reverse h.reaches

theorem shifted_filter {test test' : Reach → Bool}
    (ht : ∀ {r s : Reach}, r.Shifted front n tail s → test' s = test r) {reaches reaches' : List Reach}
    (h : List.Forall₂ (Reach.Shifted front n tail) reaches reaches') :
    List.Forall₂ (Reach.Shifted front n tail) (reaches.filter test) (reaches'.filter test') := by
  refine List.rel_filter (fun r s hr => ?_) h
  exact ⟨(ht hr).trans, (ht hr).symm.trans⟩

/-- Steps that are alike, one after the other. -/
theorem shifted_foldl {step step' : Found → Reach → Found}
    (hstep : ∀ {f g : Found} {r s : Reach}, f.Shifted front n tail g → r.Shifted front n tail s →
      (step f r).Shifted front n tail (step' g s))
    (h : f.Shifted front n tail g) {reaches reaches' : List Reach}
    (hr : List.Forall₂ (Reach.Shifted front n tail) reaches reaches') :
    (reaches.foldl step f).Shifted front n tail (reaches'.foldl step' g) := by
  induction hr generalizing f g with
  | nil => exact h
  | cons hr _ ih => exact ih (hstep h hr)

theorem shifted_distinctFrom {seen seen' : OffsetSet} {reaches reaches' : List Reach}
    (hseen : ∀ offset, seen'.has (offset + n) = seen.has offset)
    (h : List.Forall₂ (Reach.Shifted front n tail) reaches reaches') :
    List.Forall₂ (Reach.Shifted front n tail) (distinctFrom seen reaches)
      (distinctFrom seen' reaches') := by
  induction h generalizing seen seen' with
  | nil => exact .nil
  | cons hr _ ih =>
    rw [distinctFrom, distinctFrom, hr.offset, hseen]
    split
    · exact ih hseen
    · exact .cons hr (ih fun offset => has_add_shifted hseen _ offset)

theorem shifted_rounds {greedy : Bool} {step step' : Reach → List Reach}
    (hstep : ∀ {r s : Reach}, r.Shifted front n tail s →
      List.Forall₂ (Reach.Shifted front n tail) (step r) (step' s))
    (unread : List Char) (h : f.Shifted front n tail g) (hr : r.Shifted front n tail s) :
    (rounds greedy step unread f r).Shifted front n tail (rounds greedy step' unread g s) := by
  induction unread generalizing f g r s with
  | nil =>
    rw [rounds, rounds, h.has_eq hr]
    split
    · exact h
    · exact h.add hr
  | cons c unread ih =>
    have hfurther : List.Forall₂ (Reach.Shifted front n tail)
        ((step r).filter (r.offset < ·.offset)) ((step' s).filter (s.offset < ·.offset)) := by
      refine shifted_filter (fun hx => ?_) (hstep hr)
      rw [hx.offset, hr.offset, decide_eq_decide, Nat.add_lt_add_iff_right]
    have hfold : ∀ {f g : Found}, f.Shifted front n tail g →
        (((step r).filter (r.offset < ·.offset)).foldl (rounds greedy step unread) f).Shifted front n tail
          (((step' s).filter (s.offset < ·.offset)).foldl (rounds greedy step' unread) g) :=
      fun h => shifted_foldl ih h hfurther
    rw [rounds, rounds, h.has_eq hr]
    split
    · exact h
    · dsimp only
      split
      · exact (hfold h).add hr
      · exact hfold (h.add hr)

theorem shifted_alongRun (hfront : ∀ c, front (some c) (some c)) {test : Char → Bool}
    (htail : ∀ c, tail.head? = some c → test c = false) (h : f.Shifted front n tail g)
    (hr : r.Shifted front n tail s) {previous previous' : Option Char}
    (hp : front previous previous') (offset : Nat) (rest : List Char) :
    List.Forall₂ (Reach.Shifted front n tail) (alongRun test f r previous offset rest)
      (alongRun test g s previous' (offset + n) (rest ++ tail)) := by
  induction rest generalizing previous previous' offset with
  | nil =>
    have hhere : Reach.Shifted front n tail { r with cursor := ⟨previous, offset, []⟩ }
        { s with cursor := ⟨previous', offset + n, tail⟩ } :=
      ⟨⟨hp, rfl, rfl⟩, hr.entered, hr.marks⟩
    cases tail with
    | nil =>
      rw [List.nil_append, alongRun, alongRun, h.has]
      split
      · exact .nil
      · exact .cons hhere .nil
    | cons c tail =>
      rw [List.nil_append, alongRun, alongRun, h.has]
      split
      · exact .nil
      · rw [htail c rfl]
        exact .cons hhere .nil
  | cons c rest ih =>
    rw [List.cons_append, alongRun, alongRun, h.has]
    split
    · exact .nil
    · refine .cons ⟨⟨hp, rfl, rfl⟩, hr.entered, hr.marks⟩ ?_
      split
      · rw [Nat.add_right_comm]
        exact ih (hfront c) _
      · exact .nil

theorem shifted_addRun (hfront : ∀ c, front (some c) (some c)) (greedy : Bool)
    {test : Char → Bool} (htail : ∀ c, tail.head? = some c → test c = false)
    (h : f.Shifted front n tail g) (hr : r.Shifted front n tail s) :
    (addRun greedy test f r).Shifted front n tail (addRun greedy test g s) := by
  have halong := shifted_alongRun hfront htail h hr hr.cursor.previous r.offset r.cursor.rest
  have hhere : alongRun test g s s.cursor.previous s.offset s.cursor.rest =
      alongRun test g s s.cursor.previous (r.offset + n) (r.cursor.rest ++ tail) := by
    rw [hr.offset, hr.cursor.rest]
  rw [← hhere] at halong
  have hadd : ∀ {along along' : List Reach}, List.Forall₂ (Reach.Shifted front n tail) along along' →
      (along.foldl Found.add f).Shifted front n tail (along'.foldl Found.add g) :=
    fun halong => shifted_foldl Found.Shifted.add h halong
  rw [addRun, addRun]
  split
  · exact hadd (List.rel_reverse halong)
  · exact hadd halong

theorem atBoundary_shifted {c d : Cursor} (h : c.Shifted front n tail d)
    (hp : Pattern.boundary.Overlooks front tail) : atBoundary d = atBoundary c := by
  have hnext : d.rest.head?.any Text.isWordChar = c.rest.head?.any Text.isWordChar := by
    rw [h.rest]
    cases c.rest with
    | cons a rest => rfl
    | nil =>
      rw [List.nil_append]
      cases htail : tail.head? with
      | none => rfl
      | some a => exact hp.2 a htail
  rw [atBoundary, atBoundary, hnext, hp.1 _ _ h.previous]

/-- From places that are alike a pattern leads to places that are alike. -/
theorem shifted_ends (hfront : ∀ c, front (some c) (some c)) {p : Pattern}
    (hp : p.Overlooks front tail) {reaches reaches' : List Reach}
    (h : List.Forall₂ (Reach.Shifted front n tail) reaches reaches') :
    List.Forall₂ (Reach.Shifted front n tail) (p.ends reaches) (p.ends reaches') := by
  induction p generalizing reaches reaches' with
  | empty => exact h
  | char test => exact List.rel_filterMap (fun _ _ hr => hr.afterChar? hfront hp) h
  | word text => exact List.rel_filterMap (fun _ _ hr => hr.afterWord? hfront hp) h
  | seq p q ihp ihq => exact ihq hp.2 (ihp hp.1 h)
  | alt p q ihp ihq =>
    have hnone : Found.none.Shifted front n tail .none := .none
    refine shifted_distinctFrom hnone.has (List.rel_flatMap h fun r s hr => ?_)
    exact List.rel_append (ihp hp.1 (.cons hr .nil)) (ihq hp.2 (.cons hr .nil))
  | star greedy p ih =>
    refine (shifted_foldl (fun hfound hr => ?_) .none h).toList
    have hrest := hr.cursor.rest
    rw [hp.1, List.append_nil] at hrest
    rw [hrest]
    exact shifted_rounds (fun hr => ih hp.2 (.cons hr .nil)) _ hfound hr
  | run greedy test => exact (shifted_foldl (shifted_addRun hfront greedy hp) .none h).toList
  | part label p ih =>
    exact List.rel_map (fun _ _ hr => hr.leave)
      (ih hp (List.rel_map (fun _ _ hr => hr.enter label) h))
  | boundary => exact shifted_filter (fun hr => atBoundary_shifted hr.cursor hp) h
  | lineStart => exact shifted_filter (fun hr => hp _ _ hr.cursor.previous) h
  | textStart => exact shifted_filter (fun hr => hp _ _ hr.cursor.previous) h
  | textEnd =>
    refine shifted_filter (fun hr => congrArg List.isEmpty ?_) h
    rw [hr.cursor.rest, hp, List.append_nil]

/-- The match at a place depends on the character in front of it and on what comes behind the text
only as far as it is asked for. -/
theorem matchAt_of_overlooks (hfront : ∀ c, front (some c) (some c)) {p : Pattern}
    (hp : p.Overlooks front tail) {previous previous' : Option Char} (h : front previous previous')
    (offset : Nat) (rest : List Char) :
    p.matchAt ⟨previous', offset, rest ++ tail⟩ = p.matchAt ⟨previous, offset, rest⟩ := by
  let start : Reach := .start ⟨previous, 0, rest⟩
  let start' : Reach := .start ⟨previous', 0, rest ++ tail⟩
  have hstart : start.Shifted front 0 tail start' := ⟨⟨h, rfl, rfl⟩, .nil, .nil⟩
  have hends := shifted_ends hfront hp (.cons hstart .nil)
  show ((p.ends [start']).head?.map fun stop =>
      Match.ofMarks offset start'.cursor stop.cursor stop.marks) =
    (p.ends [start]).head?.map fun stop =>
      Match.ofMarks offset start.cursor stop.cursor stop.marks
  cases hreaches : p.ends [start] with
  | nil =>
    rw [hreaches] at hends
    rw [List.forall₂_nil_left_iff.mp hends]
    rfl
  | cons r reaches =>
    rw [hreaches] at hends
    obtain ⟨s, reaches', hr, -, hs⟩ := List.forall₂_cons_left_iff.mp hends
    obtain ⟨_, horigin, ms, hm, -, hmarks⟩ :=
      extends_of_mem_ends (p := p) (hreaches ▸ List.mem_cons_self (a := r))
    obtain rfl := List.mem_singleton.mp horigin
    obtain ⟨read, hread⟩ := hm.reads
    have hread' : start'.cursor.Reads read s.cursor := by
      refine ⟨?_, hr.cursor.offset.trans hread.2⟩
      show rest ++ tail = read ++ s.cursor.rest
      rw [hr.cursor.rest, ← List.append_assoc]
      exact congrArg (· ++ tail) hread.1
    have hwithin : ∀ m ∈ r.marks, m.Within start.cursor r.cursor := by
      rw [hmarks, show start.marks = [] from rfl, List.append_nil]
      exact hm.within
    rw [hs]
    refine congrArg some (congrArg₂ Match.mk ?_
      (Match.ofMarks_shifted hr.marks offset hwithin start'.cursor s.cursor))
    exact (hread'.capture_eq offset).trans (hread.capture_eq offset).symm

end Pattern

end

namespace Pattern

/-- Whether the pattern asks nowhere for the start of the text. -/
def ignoresStart : Pattern → Bool
  | .textStart => false
  | .seq p q | .alt p q => p.ignoresStart && q.ignoresStart
  | .star _ p | .part _ p => p.ignoresStart
  | _ => true

/-- Whatever stands in front. -/
def anything : InFront := fun _ _ => True

/-- A pattern that never looks back asks for nothing in front of a place. -/
theorem overlooks_anything {p : Pattern} (hp : p.simple = true) : p.Overlooks anything [] := by
  induction p with
  | seq p q ihp ihq | alt p q ihp ihq =>
    obtain ⟨hp, hq⟩ := Bool.and_eq_true_iff.mp hp
    exact ⟨ihp hp, ihq hq⟩
  | star _ p ih => exact ⟨rfl, ih hp⟩
  | part _ p ih => exact ih hp
  | boundary | lineStart | textStart => exact absurd hp Bool.false_ne_true
  | char | word | run => exact nofun
  | textEnd => rfl
  | empty => trivial

/-- Where nothing stood in front a given character stands. -/
def behind (wall : Char) : InFront := fun x y => y = x.or (some wall)

theorem overlooks_behind_feed {p : Pattern} (hp : p.ignoresStart = true) :
    p.Overlooks (behind '\n') [] := by
  induction p with
  | seq p q ihp ihq | alt p q ihp ihq =>
    obtain ⟨hp, hq⟩ := Bool.and_eq_true_iff.mp hp
    exact ⟨ihp hp, ihq hq⟩
  | star _ p ih => exact ⟨rfl, ih hp⟩
  | part _ p ih => exact ih hp
  | boundary => exact ⟨by rintro (_ | c) _ rfl <;> rfl, nofun⟩
  | lineStart => rintro (_ | c) _ rfl <;> rfl
  | textStart => exact absurd hp Bool.false_ne_true
  | char | word | run => exact nofun
  | textEnd => rfl
  | empty => trivial

/-- A pattern that overlooks a character in front of a place is matched there as it is without
it. -/
theorem matchAt_behind {p : Pattern} {wall : Char} (hp : p.Overlooks (behind wall) [])
    (offset : Nat) (rest : List Char) :
    p.matchAt ⟨some wall, offset, rest⟩ = p.matchAt ⟨none, offset, rest⟩ := by
  have hself : ∀ c, behind wall (some c) (some c) := fun _ => rfl
  have hwall : behind wall none (some wall) := rfl
  have hmatch := matchAt_of_overlooks hself hp hwall offset rest
  rwa [List.append_nil] at hmatch

theorem matchAt_afterFeed {p : Pattern} (hp : p.ignoresStart = true) (offset : Nat)
    (rest : List Char) :
    p.matchAt ⟨some '\n', offset, rest⟩ = p.matchAt ⟨none, offset, rest⟩ :=
  matchAt_behind (overlooks_behind_feed hp) offset rest

end Pattern

/-! ## Further down -/

/-- A stretch that starts so many bytes further down. -/
def Capture.down (n : Nat) (capture : Capture) : Capture :=
  { capture with start := capture.start + n }

/-- A match so many bytes further down. -/
def Match.down (n : Nat) (found : Match) : Match :=
  ⟨found.whole.down n, found.parts.map fun (label, capture) => (label, capture.down n)⟩

section

variable (n : Nat) (capture : Capture) (found : Match) (label : Part)

@[simp] theorem Capture.start_down : (capture.down n).start = capture.start + n := rfl

@[simp] theorem Capture.text_down : (capture.down n).text = capture.text := rfl

@[simp] theorem Capture.stop_down : (capture.down n).stop = capture.stop + n :=
  Nat.add_right_comm _ _ _

@[simp] theorem Match.start_down : (found.down n).start = found.start + n := rfl

@[simp] theorem Match.stop_down : (found.down n).stop = found.stop + n :=
  Capture.stop_down _ _

variable {found} in
/-- The last byte of a match that takes up some. -/
theorem Match.stop_down_pred (h : 0 < found.stop) :
    (found.down n).stop - 1 = found.stop - 1 + n := by
  rw [Match.stop_down]
  omega

@[simp] theorem Match.part?_down :
    (found.down n).part? label = (found.part? label).map (Capture.down n) := by
  obtain ⟨whole, parts⟩ := found
  rw [Match.part?, Match.part?, Match.down]
  induction parts with
  | nil => rfl
  | cons part parts ih =>
    rw [List.map_cons, List.lookup_cons, List.lookup_cons, ih]
    split <;> rfl

theorem Match.down_zero : found.down 0 = found :=
  congrArg (Match.mk found.whole) (List.map_id _)

@[simp] theorem Match.text_down : (found.down n).text label = found.text label := by
  rw [Match.text, Match.text, Match.part?_down, Option.map_map]
  rfl

end

namespace Pattern

theorem matchAt_add (p : Pattern) (previous : Option Char) (offset n : Nat) (rest : List Char) :
    p.matchAt ⟨previous, offset + n, rest⟩ =
      (p.matchAt ⟨previous, offset, rest⟩).map (Match.down n) := by
  have hcapture : ∀ (cursor : Cursor) (stop : Nat),
      cursor.capture (offset + n) stop = (cursor.capture offset stop).down n := by
    intro cursor stop
    rw [Cursor.capture, Cursor.capture, Capture.down, Nat.add_right_comm]
  rw [matchAt, matchAt, Option.map_map]
  refine congrArg (Option.map · _) (funext fun stop => ?_)
  simp only [Function.comp_apply, Match.down, List.map_map, hcapture]
  rfl

/-- Searching further down finds the same matches further down, if the search resumes at the
same place. -/
theorem findAllFrom_add (p : Pattern) (n : Nat) (rest : List Char) {resume resume' offset : Nat}
    (previous : Option Char) (h : ∀ x, offset ≤ x → (resume' ≤ x + n ↔ resume ≤ x)) :
    p.findAllFrom resume' previous (offset + n) rest =
      (p.findAllFrom resume previous offset rest).map (Match.down n) := by
  induction rest generalizing resume resume' offset previous with
  | nil =>
    rw [findAllFrom, findAllFrom, matchAt_add]
    simp only [h offset (Nat.le_refl _)]
    split
    · cases p.matchAt ⟨previous, offset, []⟩ <;> rfl
    · rfl
  | cons c rest ih =>
    have hle : offset ≤ offset + c.utf8Size := Nat.le_add_right _ _
    rw [findAllFrom, findAllFrom, matchAt_add]
    simp only [h offset (Nat.le_refl _), Nat.add_right_comm offset n c.utf8Size]
    by_cases hresume : resume ≤ offset
    · rw [if_pos hresume, if_pos hresume, List.map_append]
      cases p.matchAt ⟨previous, offset, c :: rest⟩ with
      | none => exact congrArg _ (ih (some c) fun x hx => h x (Nat.le_trans hle hx))
      | some found =>
        refine congrArg _ (ih (some c) fun x hx => ?_)
        simp
    · rw [if_neg hresume, if_neg hresume]
      exact congrArg _ (ih (some c) fun x hx => h x (Nat.le_trans hle hx))

/-- A search that may look for a match at once looks for all of them. -/
theorem findAllFrom_of_le {p : Pattern} {resume offset : Nat} (hle : resume ≤ offset)
    (previous : Option Char) (rest : List Char) :
    p.findAllFrom resume previous offset rest = p.findAllFrom 0 previous offset rest := by
  have hadd := p.findAllFrom_add 0 rest previous fun x (hx : offset ≤ x) =>
    iff_of_true (Nat.le_trans hle hx) (Nat.zero_le x)
  rw [Nat.add_zero] at hadd
  rw [hadd, show Match.down 0 = id from funext Match.down_zero, List.map_id]

/-- Where no match starts, the search goes on behind the first character. -/
theorem findAllFrom_of_none {p : Pattern} {c : Char} {rest : List Char} {previous : Option Char}
    {resume n : Nat} (h : p.matchAt ⟨previous, n, c :: rest⟩ = none) (hle : resume ≤ n) :
    p.findAllFrom resume previous n (c :: rest) =
      (p.findAllFrom 0 (some c) c.utf8Size rest).map (Match.down n) := by
  have hresume : ∀ x, c.utf8Size ≤ x → (resume ≤ x + n ↔ 0 ≤ x) := fun x _ =>
    iff_of_true (Nat.le_trans hle (Nat.le_add_left n x)) (Nat.zero_le x)
  rw [findAllFrom, h, ite_self, Nat.add_comm n, ← findAllFrom_add p n rest (some c) hresume]
  rfl

/-- Whether a search for the pattern passes over line feeds in front of a text: no match begins
with one, and none asks for the start of the text. -/
def skipsFeeds (p : Pattern) : Bool := p.consumes && p.avoids '\n' && p.ignoresStart

theorem matchAt_feed {p : Pattern} (hp : p.skipsFeeds = true) (previous : Option Char)
    (offset : Nat) (rest : List Char) : p.matchAt ⟨previous, offset, '\n' :: rest⟩ = none := by
  simp only [skipsFeeds, Bool.and_eq_true] at hp
  obtain ⟨⟨hconsumes, havoids⟩, -⟩ := hp
  cases hmatch : p.matchAt ⟨previous, offset, '\n' :: rest⟩ with
  | none => rfl
  | some found =>
    obtain ⟨d, ms, hm, -⟩ := exists_of_matchAt hmatch
    obtain ⟨read, hread, hne⟩ := hm.head?_ne havoids
    cases read with
    | nil => exact absurd rfl (hm.ne_nil hconsumes hread)
    | cons c read =>
      obtain ⟨rfl, -⟩ := List.cons.inj hread.1
      exact absurd rfl hne

/-- The matches in a text that starts further down. -/
theorem findAll_lower {p : Pattern} (hp : p.skipsFeeds = true) (feeds : Nat) (text : List Char) :
    p.findAll (Text.lower feeds text) = (p.findAll text).map (Match.down feeds) := by
  have hstart : p.ignoresStart = true := (Bool.and_eq_true_iff.mp hp).2
  -- Past the feeds the search is at the text itself, but with a feed in front of it.
  have hskip : ∀ (feeds offset : Nat),
      p.findAllFrom 0 (some '\n') offset (Text.lower feeds text) =
        p.findAllFrom 0 (some '\n') (offset + feeds) text := by
    intro feeds
    induction feeds with
    | zero => exact fun _ => rfl
    | succ feeds ih =>
      intro offset
      rw [Text.lower_succ, findAllFrom, matchAt_feed hp]
      show [] ++ p.findAllFrom 0 (some '\n') (offset + 1) _ = _
      rw [List.nil_append, ih, Nat.add_assoc, Nat.add_comm 1 feeds]
  have hfront : p.findAllFrom 0 (some '\n') feeds text = p.findAllFrom 0 none feeds text := by
    cases text with
    | nil => rw [findAllFrom, findAllFrom, matchAt_afterFeed hstart]
    | cons c text => rw [findAllFrom, findAllFrom, matchAt_afterFeed hstart]
  have hdown : p.findAllFrom 0 none (0 + feeds) text =
      (p.findAllFrom 0 none 0 text).map (Match.down feeds) :=
    findAllFrom_add p feeds text none fun x _ => by simp
  rw [Nat.zero_add] at hdown
  rw [findAll, findAll, ← hdown]
  cases feeds with
  | zero => rfl
  | succ feeds =>
    rw [Text.lower_succ, findAllFrom, matchAt_feed hp]
    show [] ++ p.findAllFrom 0 (some '\n') (0 + 1) _ = _
    rw [List.nil_append, hskip, ← hfront, Nat.zero_add, Nat.add_comm 1 feeds]

end Pattern
end Outline
