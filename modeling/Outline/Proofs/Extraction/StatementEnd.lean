import Outline.Proofs.Extraction.Statement
import Outline.Proofs.Source.Group

/-!
# The end of a statement

The reader steps over a group as a whole, and the matcher that it asks for the end of the
group counts delimiters of one kind alone.  Where groups do not cross, what it steps over
holds every group that opens there, so the first semicolon or closing brace that it comes to
is the first one outside of all groups.
-/

namespace Outline

open Utf8 (units)

namespace Statement

open Delimiter (IsGroup WellNested)

/-- The delimiters of the groups that a statement may hold. -/
def groupPairs : List (Char × Char) := [('(', ')'), ('\x7b', '\x7d'), ('[', ']')]

/-- Whether a character ends a statement. -/
def IsEnd (c : Char) : Prop := c = ';' ∨ c = '\x7d'

instance : DecidablePred IsEnd := fun c => inferInstanceAs (Decidable (c = ';' ∨ c = '\x7d'))

/-- A statement ends at a place: a semicolon or closing brace stands there, outside of every
group that opens from the start of the statement on. -/
structure EndsAt (bytes : List Char) (start e : Nat) : Prop where
  start_le : start ≤ e
  mark : ∃ c, bytes[e]? = some c ∧ IsEnd c
  outside : ∀ i j, start ≤ i → IsGroup groupPairs bytes i j → ¬ (i ≤ e ∧ e ≤ j)

/-! ## Places and groups in front of the reader -/

/-- In front of a place there is no end of the statement, and no group reaches up to it. -/
structure Settled (bytes : List Char) (start place : Nat) : Prop where
  start_le : start ≤ place
  ends : ∀ e, EndsAt bytes start e → place ≤ e
  groups : ∀ i j, start ≤ i → IsGroup groupPairs bytes i j → i < place → j < place

section

variable {bytes : List Char} {start place j : Nat}

theorem opening_of_mem_groupPairs {pair : Char × Char} (h : pair ∈ groupPairs) :
    Delimiter.closing? pair.1 = some pair.2 ∧ ¬ IsEnd pair.1 := by
  have hall : ∀ pair ∈ groupPairs,
      Delimiter.closing? pair.1 = some pair.2 ∧ ¬ IsEnd pair.1 := by decide
  exact hall pair h

theorem settled_start (bytes : List Char) (start : Nat) : Settled bytes start start :=
  ⟨Nat.le_refl _, fun _ h => h.start_le, fun _ _ hi _ hlt => absurd hlt (Nat.not_lt_of_le hi)⟩

/-- Behind what is settled the first mark ends the statement. -/
theorem Settled.endsAt (h : Settled bytes start place) {c : Char} (hc : bytes[place]? = some c)
    (hend : IsEnd c) : EndsAt bytes start place := by
  refine ⟨h.start_le, ⟨c, hc, hend⟩, fun i j hi hgroup hin => ?_⟩
  rcases Nat.lt_or_eq_of_le hin.1 with hlt | rfl
  · exact absurd (h.groups i j hi hgroup hlt) (Nat.not_lt_of_le hin.2)
  · obtain ⟨pair, hpair, hgroup⟩ := hgroup
    rw [hgroup.opens] at hc
    exact (opening_of_mem_groupPairs hpair).2 (Option.some.inj hc ▸ hend)

/-- Places without marks are settled. -/
theorem Settled.over (h : Settled bytes start place) {place' : Nat} (hle : place ≤ place')
    (hnone : ∀ b u, place ≤ b → b < place' → bytes[b]? = some u →
      ¬ IsEnd u ∧ ∀ pair ∈ groupPairs, u ≠ pair.1) : Settled bytes start place' := by
  refine ⟨Nat.le_trans h.start_le hle, fun e he => ?_, fun i j hi hgroup hlt => ?_⟩
  · by_contra hlt
    obtain ⟨u, hu, hend⟩ := he.mark
    exact (hnone e u (h.ends e he) (Nat.lt_of_not_le hlt) hu).1 hend
  · rcases Nat.lt_or_ge i place with hi' | hi'
    · exact Nat.lt_of_lt_of_le (h.groups i j hi hgroup hi') hle
    · obtain ⟨pair, hpair, hgroup⟩ := hgroup
      exact absurd rfl ((hnone i pair.1 hi' hlt hgroup.opens).2 pair hpair)

/-- A group that opens behind what is settled is settled with all that it holds. -/
theorem Settled.group (h : Settled bytes start place) (hnested : WellNested groupPairs bytes start)
    (hgroup : IsGroup groupPairs bytes place j) : Settled bytes start (j + 1) := by
  have hd : ∀ pair ∈ groupPairs, Delimiter.closing? pair.1 = some pair.2 :=
    fun _ hpair => (opening_of_mem_groupPairs hpair).1
  refine ⟨Nat.le_trans h.start_le (Nat.le_succ_of_le (Nat.le_of_lt hgroup.lt)), fun e he => ?_,
    fun i j' hi hgroup' hlt => ?_⟩
  · by_contra hle
    exact he.outside place j h.start_le hgroup ⟨h.ends e he, by omega⟩
  · rcases Nat.lt_or_ge i place with hlt' | hge
    · exact Nat.lt_trans (h.groups i j' hi hgroup' hlt') (Nat.lt_succ_of_lt hgroup.lt)
    · exact Nat.lt_succ_of_le ((hnested.nested place j h.start_le hgroup).close_le hd hgroup hge
        (Nat.le_of_lt_succ hlt) hgroup')

end

/-! ## The reader -/

section

variable {text : List Char} {start : Nat}

/-- What the reader answers: the first end of the statement, or the end of the text where there
is none. -/
def Answers (text : List Char) (start e : Nat) : Prop :=
  IsLeast {e | EndsAt (units text) start e} e ∨
    (¬ ∃ e, EndsAt (units text) start e) ∧ e = Text.width text

section

variable {before rest : List Char} {c : Char} {resume : Nat}

/-- Places up to the end of a character are settled, from one within it on or from its own on,
when it is no mark. -/
theorem Settled.over_char {place : Nat} (h : Settled (units (before ++ c :: rest)) start place)
    (hle : Text.width before ≤ place) (hlt : place ≤ Text.width before + c.utf8Size)
    (hc : place = Text.width before → ¬ IsEnd c ∧ ∀ pair ∈ groupPairs, c ≠ pair.1) :
    Settled (units (before ++ c :: rest)) start (Text.width before + c.utf8Size) := by
  refine h.over hlt fun b u hb hb' hu => ?_
  rcases Utf8.getElem?_units_append (Nat.le_trans hle hb) hb' hu with ⟨rfl, rfl⟩ | hwide
  · exact hc (Nat.le_antisymm hb hle)
  · refine ⟨fun hend => ?_, fun pair hpair => Delimiter.ne_of_wide hwide
      (Delimiter.closing?_ascii (opening_of_mem_groupPairs hpair).1)⟩
    rcases hend with rfl | rfl
    · exact absurd hwide (by decide)
    · exact absurd hwide (by decide)

/-- A character that is left alone. -/
theorem Settled.skip (h : Settled (units (before ++ c :: rest)) start resume)
    (hskip : Text.width before < resume) :
    Settled (units (before ++ c :: rest)) start (max resume (Text.width before + c.utf8Size)) := by
  rcases Nat.le_total (Text.width before + c.utf8Size) resume with hle | hle
  · rwa [Nat.max_eq_left hle]
  · rw [Nat.max_eq_right hle]
    exact h.over_char (Nat.le_of_lt hskip) hle fun heq => absurd hskip (by omega)

/-- A delimiter that opens a group is matched where the group ends, and what is settled goes on
behind the group. -/
theorem Settled.exists_close (h : Settled (units (before ++ c :: rest)) start (Text.width before))
    (hbare : Text.isBare (before ++ c :: rest) = true)
    (hnested : WellNested groupPairs (units (before ++ c :: rest)) start)
    (hc : c = '(' ∨ c = '\x7b' ∨ c = '[') :
    ∃ close, Delimiter.closeOf? (Text.width before) (c :: rest) = some close ∧
      Settled (units (before ++ c :: rest)) start
        (max (close + 1) (Text.width before + c.utf8Size)) := by
  have hpair : ∃ pair ∈ groupPairs, pair.1 = c := by
    rcases hc with rfl | rfl | rfl
    · exact ⟨('(', ')'), by decide, rfl⟩
    · exact ⟨('\x7b', '\x7d'), by decide, rfl⟩
    · exact ⟨('[', ']'), by decide, rfl⟩
  obtain ⟨pair, hpair, rfl⟩ := hpair
  obtain ⟨hclosing, -⟩ := opening_of_mem_groupPairs hpair
  obtain ⟨close, hgroup, hclose⟩ := hnested.exists_close hbare h.start_le hpair hclosing
  have hsize := (Delimiter.closing?_some hclosing).1
  have hlt := hgroup.lt
  refine ⟨close, hclose, ?_⟩
  rw [Nat.max_eq_left (by omega)]
  exact h.group hnested ⟨pair, hpair, hgroup⟩

end

/-- From a place in front of which all is settled the reader answers as it should.  The reader
stands at the character behind `before`, or leaves alone what lies before `resume`. -/
theorem answers_endFrom {before rest : List Char} {resume : Nat} (htext : text = before ++ rest)
    (hbare : Text.isBare text = true) (hnested : WellNested groupPairs (units text) start)
    (h : Settled (units text) start (max resume (Text.width before))) :
    Answers text start (endFrom (Text.width text) resume (Text.width before) rest) := by
  induction rest generalizing before resume with
  | nil =>
    refine .inr ⟨?_, rfl⟩
    rintro ⟨e, he⟩
    obtain ⟨c, hc, -⟩ := he.mark
    have hlt := Delimiter.lt_length_of_getElem? hc
    have hle := h.ends e he
    rw [Utf8.length_units, htext, List.append_nil] at hlt
    omega
  | cons c rest ih =>
    have hgo : ∀ resume',
        Settled (units text) start (max resume' (Text.width before + c.utf8Size)) →
        Answers text start
          (endFrom (Text.width text) resume' (Text.width before + c.utf8Size) rest) := by
      intro resume' h'
      have hwidth : Text.width (before ++ [c]) = Text.width before + c.utf8Size := by
        rw [Text.width_append, Text.width_cons, Text.width_nil, Nat.add_zero]
      rw [← hwidth] at h' ⊢
      exact ih (by rw [htext, List.append_cons]) h'
    rw [endFrom]
    split
    · next hskip =>
      refine hgo resume ?_
      rw [Nat.max_eq_left (Nat.le_of_lt hskip)] at h
      rw [htext] at h ⊢
      exact h.skip hskip
    next hskip =>
    rw [Nat.max_eq_right (Nat.le_of_not_lt hskip)] at h
    split
    · next hend =>
      have hmark : (units text)[Text.width before]? = some c := by
        rw [htext]
        exact Utf8.getElem?_units_width (by rcases hend with rfl | rfl <;> decide)
      exact .inl ⟨h.endsAt hmark hend, fun e he => h.ends e he⟩
    next hend =>
    split
    · next hopen =>
      rw [htext] at h hbare hnested
      obtain ⟨close, hclose, hsettled⟩ := h.exists_close hbare hnested hopen
      rw [hclose]
      exact hgo (close + 1) (by rwa [htext])
    · next hopen =>
      refine hgo resume ?_
      have hpos := Char.utf8Size_pos c
      rw [Nat.max_eq_right (by omega)]
      rw [htext] at h ⊢
      refine h.over_char (Nat.le_refl _) (Nat.le_add_right _ _) fun _ => ⟨hend, ?_⟩
      rintro pair hpair rfl
      simp only [groupPairs, List.mem_cons, List.not_mem_nil, or_false] at hpair
      rcases hpair with rfl | rfl | rfl <;> simp at hopen

/-- The reader never answers with a place that it was to leave alone. -/
theorem le_endFrom (stop resume offset : Nat) (rest : List Char) :
    endFrom stop resume offset rest = stop ∨ resume ≤ endFrom stop resume offset rest := by
  induction rest generalizing resume offset with
  | nil => exact .inl rfl
  | cons c rest ih =>
    rw [endFrom]
    split
    · exact ih _ _
    · next hskip =>
      split
      · exact .inr (Nat.le_of_not_lt hskip)
      · split
        · split
          · next close hclose =>
            obtain ⟨d, inner, after, -, -, rfl⟩ := Delimiter.exists_of_closeOf? hclose
            exact (ih _ _).imp_right (Nat.le_trans (by omega))
          · exact .inl rfl
        · exact ih _ _

/-- The end of a statement lies between its start and the end of the text. -/
theorem endAt_bounds (h : start ≤ Text.width text) :
    start ≤ endAt text start ∧ endAt text start ≤ Text.width text := by
  rw [endAt]
  refine ⟨?_, ?_⟩
  · rcases le_endFrom (Text.width text) start 0 text with heq | hle
    · rwa [heq]
    · exact hle
  · rcases endFrom_eq (Text.width text) start 0 text with heq | ⟨before, c, after, htext, -, heq⟩
    · exact Nat.le_of_eq heq
    · rw [heq, Nat.zero_add, htext, Text.width_append]
      exact Nat.le_add_right _ _

end

/-- In a text without quotes and comments whose groups close and do not cross from the start on, a
statement ends at the first semicolon or closing brace outside of all groups that open from the
start on, and with the text where there is none.  In every text it ends between its start and the
end of the text. -/
theorem endAt_isLeast :
    (∀ text start, Text.isBare text = true → WellNested groupPairs (units text) start →
      ((∃ e, EndsAt (units text) start e) →
        IsLeast {e | EndsAt (units text) start e} (endAt text start)) ∧
      ((¬ ∃ e, EndsAt (units text) start e) → endAt text start = Text.width text)) ∧
    ∀ text start, start ≤ Text.width text →
      start ≤ endAt text start ∧ endAt text start ≤ Text.width text := by
  refine ⟨fun text start hbare hnested => ?_, fun text start h => endAt_bounds h⟩
  have hanswer : Answers text start (endAt text start) := by
    have hsettled : Settled (units text) start (max start (Text.width [])) := by
      rw [Text.width_nil, Nat.max_eq_left (Nat.zero_le start)]
      exact settled_start _ start
    exact answers_endFrom (List.nil_append text).symm hbare hnested hsettled
  rcases hanswer with hleast | ⟨hnone, hwidth⟩
  · exact ⟨fun _ => hleast, fun hnone => absurd ⟨_, hleast.1⟩ hnone⟩
  · exact ⟨fun hsome => absurd hsome hnone, fun _ => hwidth⟩

/-- Semicolons and braces in mixed groups, an offset inside of a character, and a statement that
only the brace around it ends. -/
theorem endAt_isLeast_groups :
    IsLeast {e | EndsAt (units "é(;[\x7b\x7d;])=\x7b;\x7d;".toList) 1 e} 14 ∧
    (5 ≤ endAt "f(a;b\x7d".toList 5 ∧ endAt "f(a;b\x7d".toList 5 ≤ 6) := by
  have h := endAt_isLeast.1 "é(;[\x7b\x7d;])=\x7b;\x7d;".toList 1 (by decide) (by decide)
  have hend : endAt "é(;[\x7b\x7d;])=\x7b;\x7d;".toList 1 = 14 := by decide
  rw [hend] at h
  refine ⟨?_, endAt_isLeast.2 _ 5 (by decide)⟩
  by_cases hsome : ∃ e, EndsAt (units "é(;[\x7b\x7d;])=\x7b;\x7d;".toList) 1 e
  · exact h.1 hsome
  · exact absurd (h.2 hsome) (by decide)

end Statement
end Outline
