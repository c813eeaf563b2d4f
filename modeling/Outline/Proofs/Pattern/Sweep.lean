import Outline.Proofs.Pattern.First
import Outline.Proofs.Pattern.Found

/-!
# Sweeping over a text

The matches in a text are told stretch by stretch: a stretch in which no match starts is passed
over, and where a match starts the search goes on behind it.  A match that never reads some
character stays in front of the next one of its kind, which is how most stretches are passed.
-/

namespace Outline
namespace Pattern

variable {p : Pattern} {passed rest : List Char} {resume offset : Nat} {previous : Option Char}

/-! ## Stretches -/

/-- No match starts in the first of two texts. -/
def Misses (p : Pattern) (passed rest : List Char) : Prop :=
  ∀ a b, passed = a ++ b → b ≠ [] → ∀ previous offset,
    p.matchAt ⟨previous, offset, b ++ rest⟩ = none

theorem misses_nil (p : Pattern) (rest : List Char) : p.Misses [] rest := by
  intro a b h hne
  exact absurd (List.append_eq_nil_iff.mp h.symm).2 hne

theorem Misses.append {a b : List Char} (ha : p.Misses a (b ++ rest)) (hb : p.Misses b rest) :
    p.Misses (a ++ b) rest := by
  intro x y h hne previous offset
  rcases List.append_eq_append_iff.mp h with ⟨d, rfl, rfl⟩ | ⟨d, rfl, rfl⟩
  · exact hb d y rfl hne previous offset
  · by_cases hd : d = []
    · subst hd
      exact hb [] b rfl hne previous offset
    · rw [List.append_assoc]
      exact ha x d rfl hd previous offset

theorem misses_of_not_matches (h : ∀ a b, passed = a ++ b → b ≠ [] → ∀ previous d ms,
    ¬ Matches p ⟨previous, 0, b ++ rest⟩ d ms) : p.Misses passed rest := by
  intro a b hab hne previous offset
  cases hm : p.matchAt ⟨previous, offset, b ++ rest⟩ with
  | none => rfl
  | some found =>
    obtain ⟨d, ms, hmatch, -⟩ := exists_of_matchAt hm
    exact absurd hmatch (h a b hab hne previous d ms)

theorem last_cons (c : Char) (passed : List Char) (previous : Option Char) :
    (c :: passed).getLast?.or previous = passed.getLast?.or (some c) := by
  cases passed <;> simp [List.getLast?_cons]

theorem Misses.findAllFrom (h : p.Misses passed rest) :
    p.findAllFrom resume previous offset (passed ++ rest) =
      p.findAllFrom resume (passed.getLast?.or previous) (offset + Text.width passed) rest := by
  induction passed generalizing previous offset with
  | nil => rfl
  | cons c passed ih =>
    have hhere : p.matchAt ⟨previous, offset, c :: (passed ++ rest)⟩ = none :=
      h [] (c :: passed) rfl (List.cons_ne_nil c passed) previous offset
    have hlater : p.Misses passed rest := fun a b hab =>
      h (c :: a) b (by rw [hab, List.cons_append])
    rw [List.cons_append, Pattern.findAllFrom, hhere, ite_self, last_cons, Text.width_cons,
      ← Nat.add_assoc]
    exact ih hlater

/-- In front of the place to go on from no match is looked for. -/
theorem findAllFrom_before (hle : offset + Text.width passed ≤ resume) :
    p.findAllFrom resume previous offset (passed ++ rest) =
      p.findAllFrom resume (passed.getLast?.or previous) (offset + Text.width passed) rest := by
  induction passed generalizing previous offset with
  | nil => rfl
  | cons c passed ih =>
    have hpos := Char.utf8Size_pos c
    rw [Text.width_cons] at hle
    rw [List.cons_append, Pattern.findAllFrom, if_neg (by omega), last_cons, Text.width_cons,
      ← Nat.add_assoc]
    exact ih (by omega)

/-- Where a match starts the search goes on behind it. -/
theorem findAllFrom_of_matchAt {found : Match} (hle : resume ≤ offset) (hne : passed ≠ [])
    (hm : p.matchAt ⟨previous, offset, passed ++ rest⟩ = some found)
    (hstop : found.stop = offset + Text.width passed) :
    p.findAllFrom resume previous offset (passed ++ rest) =
      found :: p.findAllFrom found.stop (passed.getLast?.or previous)
        (offset + Text.width passed) rest := by
  cases passed with
  | nil => exact absurd rfl hne
  | cons c passed =>
    rw [List.cons_append] at hm
    rw [List.cons_append, Pattern.findAllFrom, if_pos hle, hm, last_cons, Text.width_cons,
      ← Nat.add_assoc]
    rw [Text.width_cons, ← Nat.add_assoc] at hstop
    exact congrArg (found :: ·) (findAllFrom_before (Nat.le_of_eq hstop.symm))

theorem matchAt_nil (hp : p.consumes = true) (previous : Option Char) (offset : Nat) :
    p.matchAt ⟨previous, offset, []⟩ = none := by
  cases hm : p.matchAt ⟨previous, offset, []⟩ with
  | none => rfl
  | some found =>
    obtain ⟨d, ms, hmatch, -⟩ := exists_of_matchAt hm
    obtain ⟨a, ha, -⟩ := hmatch.exists_head hp
    cases ha

theorem findAllFrom_nil (hp : p.consumes = true) : p.findAllFrom resume previous offset [] = [] := by
  rw [Pattern.findAllFrom, matchAt_nil hp, ite_self]
  rfl

/-- What is missed up to the end of a text is not found any more. -/
theorem Misses.findAllFrom_eq_nil (h : p.Misses passed []) (hp : p.consumes = true) :
    p.findAllFrom resume previous offset passed = [] := by
  rw [← List.append_nil passed, h.findAllFrom, findAllFrom_nil hp]

theorem Misses.findAll (h : p.Misses passed []) (hp : p.consumes = true) : p.findAll passed = [] :=
  h.findAllFrom_eq_nil hp

/-- The match behind a stretch in which none starts is the first of all. -/
theorem Misses.exists_findAll {found : Match} (h : p.Misses passed rest)
    (hm : p.matchAt ⟨passed.getLast?, Text.width passed, rest⟩ = some found) :
    ∃ others, p.findAll (passed ++ rest) = found :: others ∧
      ∀ other ∈ others, found.start < other.start := by
  have hpair := p.pairwise_findAll (passed ++ rest)
  rw [Pattern.findAll, h.findAllFrom, Option.or_none, Nat.zero_add] at hpair ⊢
  cases rest with
  | nil =>
    refine ⟨[], ?_, nofun⟩
    rw [Pattern.findAllFrom, if_pos (Nat.zero_le _), hm]
    rfl
  | cons c rest =>
    rw [Pattern.findAllFrom, if_pos (Nat.zero_le _), hm] at hpair ⊢
    exact ⟨_, rfl, (List.pairwise_cons.mp hpair).1⟩

/-- A match at the start of a text is the first of all. -/
theorem exists_findAll_of_matchAt {text : List Char} {found : Match}
    (h : p.matchAt ⟨none, 0, text⟩ = some found) :
    ∃ others, p.findAll text = found :: others ∧ ∀ other ∈ others, found.start < other.start :=
  (misses_nil p text).exists_findAll h

/-- A stretch that no match leaves: those that start in it are found there, and the search goes
on behind it. -/
theorem exists_findAllFrom_within (hle : resume ≤ offset + Text.width passed)
    (h : ∀ a b, passed = a ++ b → b ≠ [] → ∀ previous offset found,
      p.matchAt ⟨previous, offset, b ++ rest⟩ = some found → found.stop ≤ offset + Text.width b) :
    ∃ founds resume', resume' ≤ offset + Text.width passed ∧
      p.findAllFrom resume previous offset (passed ++ rest) =
        founds ++ p.findAllFrom resume' (passed.getLast?.or previous) (offset + Text.width passed)
          rest ∧
      ∀ found ∈ founds, offset ≤ found.start ∧ found.start < offset + Text.width passed := by
  induction passed generalizing resume previous offset with
  | nil => exact ⟨[], resume, hle, rfl, nofun⟩
  | cons c passed ih =>
    have hpos := Char.utf8Size_pos c
    generalize hhere : (if resume ≤ offset then
      p.matchAt ⟨previous, offset, c :: (passed ++ rest)⟩ else none) = here
    have hbounds : ∀ found ∈ here.toList,
        found.start = offset ∧ found.stop ≤ offset + Text.width (c :: passed) := by
      intro found hf
      have hsome := Option.mem_def.mp (Option.mem_toList.mp hf)
      refine ⟨start_of_mem_here (hhere ▸ hf), ?_⟩
      rw [hsome] at hhere
      split at hhere
      · exact h [] (c :: passed) rfl (List.cons_ne_nil c passed) previous offset found hhere
      · cases hhere
    have hresume : (here.map Match.stop).getD resume ≤ offset + c.utf8Size + Text.width passed := by
      rw [Text.width_cons, ← Nat.add_assoc] at hle hbounds
      cases here with
      | none => exact hle
      | some found => exact (hbounds found (by simp)).2
    obtain ⟨founds, resume', hle', hfounds, hall⟩ := @ih _ _ (some c) hresume fun a b hab =>
      h (c :: a) b (by rw [hab, List.cons_append])
    refine ⟨here.toList ++ founds, resume', ?_, ?_, fun found hf => ?_⟩
    · rw [Text.width_cons, ← Nat.add_assoc]
      exact hle'
    · rw [List.cons_append, Pattern.findAllFrom, hhere, last_cons, Text.width_cons, ← Nat.add_assoc,
        List.append_assoc]
      exact congrArg _ hfounds
    · rw [Text.width_cons, ← Nat.add_assoc]
      rcases List.mem_append.mp hf with hf | hf
      · obtain ⟨hstart, -⟩ := hbounds found hf
        omega
      · obtain ⟨hstart, hstop⟩ := hall found hf
        omega

/-! ## Matches inside of others -/

/-- Where a match starts, it is found, unless the search goes on behind the place or another
match is found that holds it. -/
theorem found_or_covered (resume : Nat) {found : Match}
    (hm : p.matchAt ⟨passed.getLast?.or previous, offset + Text.width passed, rest⟩ = some found) :
    found.start < resume ∨ found ∈ p.findAllFrom resume previous offset (passed ++ rest) ∨
      ∃ other ∈ p.findAllFrom resume previous offset (passed ++ rest),
        other.start < found.start ∧ found.start < other.stop := by
  have hstart : found.start = offset + Text.width passed := start_of_matchAt hm
  induction passed generalizing previous offset resume with
  | nil =>
    by_cases hle : resume ≤ offset
    · refine .inr (.inl ?_)
      have hhere : p.matchAt ⟨previous, offset, rest⟩ = some found := hm
      rw [List.nil_append]
      cases rest with
      | nil => simp [Pattern.findAllFrom, hle, hhere]
      | cons c rest => simp [Pattern.findAllFrom, hle, hhere]
    · rw [Text.width_nil] at hstart
      exact .inl (by omega)
  | cons c passed ih =>
    have hpos := Char.utf8Size_pos c
    rw [last_cons, Text.width_cons, ← Nat.add_assoc] at hm
    rw [Text.width_cons, ← Nat.add_assoc] at hstart
    rw [List.cons_append, Pattern.findAllFrom]
    generalize hhere : (if resume ≤ offset then
      p.matchAt ⟨previous, offset, c :: (passed ++ rest)⟩ else none) = here
    rcases ih ((here.map Match.stop).getD resume) hm hstart with hlt | hmem | hcovered
    · cases here with
      | none => exact .inl hlt
      | some other =>
        have hother : other.start = offset :=
          start_of_mem_here (Option.mem_toList.mpr (Option.mem_def.mpr hhere))
        exact .inr (.inr ⟨other, by simp, by omega, hlt⟩)
    · exact .inr (.inl (List.mem_append_right _ hmem))
    · obtain ⟨other, hmem, hcovers⟩ := hcovered
      exact .inr (.inr ⟨other, List.mem_append_right _ hmem, hcovers⟩)

/-- A match at a place of a text is found, unless one is found that holds the place. -/
theorem mem_findAll_or_covered {before : List Char} {found : Match}
    (hm : p.matchAt ⟨before.getLast?, Text.width before, rest⟩ = some found) :
    found ∈ p.findAll (before ++ rest) ∨ ∃ other ∈ p.findAll (before ++ rest),
      other.start < found.start ∧ found.start < other.stop := by
  rw [← Option.or_none (o := before.getLast?), ← Nat.zero_add (Text.width before)] at hm
  exact (found_or_covered 0 hm).resolve_left (Nat.not_lt_zero _)

/-! ## Characters that are not read -/

/-- Whether no match of the pattern reads a character. -/
def spares (bad : Char) : Pattern → Bool
  | .char test | .run _ test => !test bad
  | .word text => !text.contains bad
  | .seq p q | .alt p q => p.spares bad && q.spares bad
  | .star _ p | .part _ p => p.spares bad
  | _ => true

variable {c d : Cursor} {ms : List Mark} {bad : Char}

theorem Matches.not_mem (h : Matches p c d ms) (hp : p.spares bad = true) :
    ∃ read, c.Reads read d ∧ bad ∉ read := by
  induction h with
  | @char test _ _ a _ ht =>
    refine ⟨[a], ⟨rfl, by simp⟩, fun hmem => ?_⟩
    obtain rfl := List.mem_singleton.mp hmem
    simp [spares, ht] at hp
  | word text => exact ⟨text, ⟨rfl, rfl⟩, by simpa [spares] using hp⟩
  | seq _ _ ihp ihq =>
    rw [spares, Bool.and_eq_true] at hp
    obtain ⟨s, hs, hbs⟩ := ihp hp.1
    obtain ⟨t, ht, hbt⟩ := ihq hp.2
    exact ⟨s ++ t, hs.trans ht, by simp [hbs, hbt]⟩
  | altLeft _ _ ih => exact ih (Bool.and_eq_true_iff.mp hp).1
  | altRight _ _ ih => exact ih (Bool.and_eq_true_iff.mp hp).2
  | starCons _ _ ihp ihq | runCons _ _ ihp ihq =>
    obtain ⟨s, hs, hbs⟩ := ihp hp
    obtain ⟨t, ht, hbt⟩ := ihq hp
    exact ⟨s ++ t, hs.trans ht, by simp [hbs, hbt]⟩
  | part _ _ ih => exact ih hp
  | _ => exact ⟨[], .refl _, by simp⟩

/-- Whether no part with a label has a character. -/
def partSpares (p : Pattern) (label : Part) (bad : Char) : Bool :=
  (p.bodies label).all (·.spares bad)

theorem FoundIn.not_mem_of_partSpares {text : List Char} {found : Match} {label : Part}
    {capture : Capture} (h : p.FoundIn text found) (hp : p.partSpares label bad = true)
    (hc : found.part? label = some capture) : bad ∉ capture.text := by
  obtain ⟨q, hq, c, d, ns, hm, hr⟩ := h.exists_body hc
  obtain ⟨read, hread, hnot⟩ := hm.not_mem (List.all_eq_true.mp hp q hq)
  have hsame : capture.text = read := List.append_cancel_right (hr.1.symm.trans hread.1)
  rwa [hsame]

/-- Of a text with a character in it, what does not have the character can only be read in
front of it. -/
theorem append_of_append_cons {read after u : List Char} (hbad : bad ∉ read)
    (h : read ++ after = u ++ bad :: rest) : ∃ v, u = read ++ v ∧ after = v ++ bad :: rest := by
  rcases List.append_eq_append_iff.mp h with ⟨v, hu, hafter⟩ | ⟨v, hread, hrest⟩
  · exact ⟨v, hu, hafter⟩
  · cases v with
    | nil => exact ⟨[], by rw [hread, List.append_nil, List.append_nil], hrest.symm⟩
    | cons x v =>
      obtain ⟨rfl, -⟩ := List.cons.inj hrest
      exact absurd (hread ▸ List.mem_append_right u List.mem_cons_self) hbad

/-- A match that does not read a character stays in front of it. -/
theorem Matches.in_front (h : Matches p c d ms) (hp : p.spares bad = true) {u : List Char}
    (hc : c.rest = u ++ bad :: rest) :
    ∃ read v, c.Reads read d ∧ u = read ++ v ∧ d.rest = v ++ bad :: rest := by
  obtain ⟨read, hread, hnot⟩ := h.not_mem hp
  obtain ⟨v, hu, hd⟩ := append_of_append_cons hnot (hread.1.symm.trans hc)
  exact ⟨read, v, hread, hu, hd⟩

/-- Whether every match of the pattern reads a character in one of its words. -/
def needs (wanted : Char) : Pattern → Bool
  | .word text => text.contains wanted
  | .seq p q => p.needs wanted || q.needs wanted
  | .alt p q => p.needs wanted && q.needs wanted
  | .part _ p => p.needs wanted
  | _ => false

theorem Matches.mem_of_needs {wanted : Char} (h : Matches p c d ms) (hp : p.needs wanted = true) :
    ∃ read, c.Reads read d ∧ wanted ∈ read := by
  induction h with
  | word text => exact ⟨text, ⟨rfl, rfl⟩, by simpa [needs] using hp⟩
  | seq hm hn ihp ihq =>
    rcases Bool.or_eq_true_iff.mp hp with hp | hq
    · obtain ⟨s, hs, hmem⟩ := ihp hp
      obtain ⟨t, ht⟩ := hn.reads
      exact ⟨s ++ t, hs.trans ht, List.mem_append_left t hmem⟩
    · obtain ⟨s, hs⟩ := hm.reads
      obtain ⟨t, ht, hmem⟩ := ihq hq
      exact ⟨s ++ t, hs.trans ht, List.mem_append_right s hmem⟩
  | altLeft _ _ ih => exact ih (Bool.and_eq_true_iff.mp hp).1
  | altRight _ _ ih => exact ih (Bool.and_eq_true_iff.mp hp).2
  | part _ _ ih => exact ih hp
  | _ => simp [needs] at hp

/-- Nothing is found in a text that lacks a character that every match reads. -/
theorem findAll_of_needs {wanted : Char} (hp : p.needs wanted = true) {text : List Char}
    (h : wanted ∉ text) : p.findAll text = [] := by
  refine List.eq_nil_iff_forall_not_mem.mpr fun found hf => ?_
  obtain ⟨before, rest, d, ms, rfl, hm, -⟩ := foundIn_of_mem_findAll hf
  obtain ⟨read, hread, hmem⟩ := hm.mem_of_needs hp
  have hrest : rest = read ++ d.rest := hread.1
  exact h (List.mem_append_right _ (hrest ▸ List.mem_append_left _ hmem))

/-- No match starts in a text that lacks a character that every match reads, up to its end. -/
theorem misses_of_needs {wanted : Char} (hp : p.needs wanted = true) (h : wanted ∉ passed) :
    p.Misses passed [] := by
  refine misses_of_not_matches fun a b hab _ previous d ms hm => ?_
  obtain ⟨read, hread, hmem⟩ := hm.mem_of_needs hp
  have hb : b = read ++ d.rest := (List.append_nil b).symm.trans hread.1
  exact h (by simp [hab, hb, hmem])

/-- What a match must read stands in front of a character that it does not read. -/
theorem Matches.mem_in_front {wanted : Char} (h : Matches p c d ms) (hp : p.spares bad = true)
    (hn : p.needs wanted = true) {u : List Char} (hc : c.rest = u ++ bad :: rest) :
    wanted ∈ u := by
  obtain ⟨read, v, hread, rfl, -⟩ := h.in_front hp hc
  obtain ⟨read', hread', hmem⟩ := h.mem_of_needs hn
  have hsame : read' = read := List.append_cancel_right (hread'.1.symm.trans hread.1)
  exact List.mem_append_left v (hsame ▸ hmem)

/-- The next character that is read stands in front of one that was not read, or is that one. -/
theorem mem_of_reads_cons {a : Char} {more v : List Char} (hd : c.rest = v ++ bad :: rest)
    (hread : c.Reads (a :: more) d) : a ∈ v ++ [bad] := by
  have heq : a :: (more ++ d.rest) = v ++ bad :: rest := hread.1.symm.trans hd
  cases v with
  | nil => exact List.mem_singleton.mpr (List.cons.inj heq).1
  | cons b v => exact (List.cons.inj heq).1 ▸ List.mem_cons_self

/-- In front of a character no match starts that would have to read it. -/
theorem misses_in_front {u : List Char} (h : ∀ a v, u = a ++ v → ∀ previous d ms,
    ¬ Matches p ⟨previous, 0, v ++ bad :: rest⟩ d ms) : p.Misses (u ++ [bad]) rest := by
  refine misses_of_not_matches fun a b hab hne previous d ms hm => ?_
  rcases List.eq_nil_or_concat b with rfl | ⟨v, last, rfl⟩
  · exact hne rfl
  · rw [List.concat_eq_append] at hab hm
    rw [← List.append_assoc] at hab
    obtain ⟨hu, hlast⟩ := List.append_inj' hab rfl
    obtain rfl : bad = last := List.cons.inj hlast |>.1
    rw [List.append_assoc] at hm
    exact h a v hu previous d ms hm

/-- A match does not start with a character that its pattern avoids. -/
theorem misses_of_avoids (hp : p.consumes = true) (h : ∀ a ∈ passed, p.avoids a = true) :
    p.Misses passed rest := by
  refine misses_of_not_matches fun a b hab hne previous d ms hm => ?_
  obtain ⟨x, more, rfl⟩ := List.exists_cons_of_ne_nil hne
  obtain ⟨y, hy, havoid⟩ := hm.exists_head hp
  obtain rfl : x = y := Option.some.inj hy
  exact havoid x (h x (hab ▸ List.mem_append_right a List.mem_cons_self)) rfl

/-- Texts that each end with a character, one after the other. -/
def walled (pieces : List (List Char × Char)) : List Char :=
  pieces.flatMap fun piece => piece.1 ++ [piece.2]

/-- What stands behind a character that ends a piece and is in none is the rest of the pieces. -/
theorem exists_of_walled {pieces : List (List Char × Char)} {mark : Char}
    (hp : ∀ piece ∈ pieces, mark ∉ piece.1) {a b : List Char} (h : walled pieces = a ++ mark :: b) :
    ∃ earlier piece later, pieces = earlier ++ piece :: later ∧ b = walled later := by
  induction pieces generalizing a with
  | nil => exact absurd h.symm (by simp [walled])
  | cons piece pieces ih =>
    obtain ⟨hpiece, hpieces⟩ := List.forall_mem_cons.mp hp
    rw [walled, List.flatMap_cons, ← walled, List.append_assoc, List.singleton_append] at h
    obtain ⟨v, -, hv⟩ := append_of_append_cons hpiece h
    cases v with
    | nil => exact ⟨[], piece, pieces, rfl, (List.cons.inj hv).2.symm⟩
    | cons c v =>
      obtain ⟨earlier, other, later, rfl, hb⟩ := ih hpieces (List.cons.inj hv).2
      exact ⟨piece :: earlier, other, later, rfl, hb⟩

theorem misses_walled {pieces : List (List Char × Char)}
    (h : ∀ piece ∈ pieces, ∀ rest, p.Misses (piece.1 ++ [piece.2]) rest) (rest : List Char) :
    p.Misses (walled pieces) rest := by
  induction pieces with
  | nil => exact misses_nil p rest
  | cons piece pieces ih =>
    rw [walled, List.flatMap_cons]
    exact (h piece List.mem_cons_self _).append (ih fun q hq => h q (List.mem_cons_of_mem _ hq))

end Pattern
end Outline
