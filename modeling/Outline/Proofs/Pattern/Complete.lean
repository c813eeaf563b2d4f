import Mathlib.Logic.Relation
import Outline.Proofs.Pattern.Found

/-!
# What a search cannot miss

For a pattern that never looks back, what a match leaves over depends on the text
in front of it alone.  Every such way to match is among the ends that a search
finds: a place that is left out was found before, and so was all that can be
reached from it.
-/

namespace Outline

namespace OffsetSet

theorem has_empty (offset : Nat) : empty.has offset = false := Nat.zero_testBit offset

theorem has_add (set : OffsetSet) (a b : Nat) :
    (set.add a).has b = true ↔ a = b ∨ set.has b = true := by
  rw [add, has, Nat.testBit_or, Bool.or_eq_true, Nat.one_shiftLeft, Nat.testBit_two_pow,
    decide_eq_true_eq, or_comm]
  rfl

end OffsetSet

/-- What follows a place is told by its offset. -/
theorem Cursor.Reads.rest_eq {origin c d : Cursor} {a b : List Char} (h : origin.Reads a c)
    (k : origin.Reads b d) (ho : c.offset = d.offset) : c.rest = d.rest := by
  have hw : Text.width a = Text.width b := by
    have hc := h.2
    have hd := k.2
    omega
  have hab : a ++ c.rest = b ++ d.rest := h.1.symm.trans k.1
  have htake := congrArg (Text.takeWidth? (Text.width a)) hab
  rw [Text.takeWidth?_width_append, hw, Text.takeWidth?_width_append, Option.some.injEq] at htake
  rw [htake] at hab
  exact List.append_cancel_left hab

theorem Cursor.Reads.next {origin c : Cursor} {w : List Char} {d : Char} {rest : List Char}
    (h : origin.Reads w c) (hrest : c.rest = d :: rest) :
    origin.Reads (w ++ [d]) ⟨some d, c.offset + d.utf8Size, rest⟩ := by
  refine ⟨by simpa [hrest] using h.1, ?_⟩
  rw [Text.width_append, Text.width_cons, Text.width_nil, h.2]
  dsimp only
  omega

namespace Pattern

/-- Whether a match may read the front of the first text and leave the second. -/
def Leaves : Pattern → List Char → List Char → Prop
  | .empty, s, t => s = t
  | .char test, s, t => ∃ c, test c = true ∧ s = c :: t
  | .word w, s, t => s = w ++ t
  | .seq p q, s, t => ∃ u, p.Leaves s u ∧ q.Leaves u t
  | .alt p q, s, t => p.Leaves s t ∨ q.Leaves s t
  | .run _ test, s, t => ∃ w, s = w ++ t ∧ ∀ c ∈ w, test c = true
  | .part _ p, s, t => p.Leaves s t
  | .star _ p, s, t => Relation.ReflTransGen p.Leaves s t
  | .textEnd, s, t => s = [] ∧ t = []
  | .boundary, _, _ | .lineStart, _, _ | .textStart, _, _ => False

/-- All the places are reached by reading from one. -/
def Along (origin : Cursor) (reaches : List Reach) : Prop :=
  ∀ r ∈ reaches, ∃ w, origin.Reads w r.cursor

section

variable {origin : Cursor} {reaches : List Reach}

theorem Along.rest_eq (h : Along origin reaches) {r s : Reach} (hr : r ∈ reaches) (hs : s ∈ reaches)
    (ho : r.offset = s.offset) : r.cursor.rest = s.cursor.rest := by
  obtain ⟨a, ha⟩ := h r hr
  obtain ⟨b, hb⟩ := h s hs
  exact ha.rest_eq hb ho

theorem Along.ends (h : Along origin reaches) (p : Pattern) : Along origin (p.ends reaches) := by
  intro x hx
  obtain ⟨r, hr, ms, hm, -⟩ := extends_of_mem_ends hx
  obtain ⟨a, ha⟩ := h r hr
  obtain ⟨b, hb⟩ := hm.reads
  exact ⟨a ++ b, ha.trans hb⟩

theorem Along.mono {part : List Reach} (h : Along origin reaches) (hs : ∀ r ∈ part, r ∈ reaches) :
    Along origin part :=
  fun r hr => h r (hs r hr)

theorem Along.single (h : Along origin reaches) {r : Reach} (hr : r ∈ reaches) :
    Along origin [r] :=
  h.mono (by simpa using hr)

theorem Along.enter (h : Along origin reaches) (label : Part) :
    Along origin (reaches.map (Reach.enter label)) := by
  intro x hx
  obtain ⟨r, hr, rfl⟩ := List.mem_map.mp hx
  exact h r hr

theorem Along.alternatives (h : Along origin reaches) (p q : Pattern) :
    Along origin (reaches.flatMap fun reach => p.ends [reach] ++ q.ends [reach]) := by
  intro x hx
  obtain ⟨r, hr, hx⟩ := List.mem_flatMap.mp hx
  rcases List.mem_append.mp hx with hx | hx
  · exact (h.single hr).ends p x hx
  · exact (h.single hr).ends q x hx

end

/-! ## Ends of one offset -/

theorem exists_mem_distinctFrom {seen : OffsetSet} {reaches : List Reach} {r : Reach}
    (hr : r ∈ reaches) (hseen : seen.has r.offset = false) :
    ∃ x ∈ distinctFrom seen reaches, x.offset = r.offset := by
  induction reaches generalizing seen with
  | nil => exact absurd hr List.not_mem_nil
  | cons s reaches ih =>
    rw [distinctFrom]
    by_cases hs : s.offset = r.offset
    · rw [hs, if_neg (by simp [hseen])]
      exact ⟨s, List.mem_cons_self, hs⟩
    · have hmem : r ∈ reaches := (List.mem_cons.mp hr).resolve_left fun h => hs (h ▸ rfl)
      split
      · exact ih hmem hseen
      · have hnot : (seen.add s.offset).has r.offset = false := by
          refine Bool.eq_false_iff.mpr fun h => ?_
          rcases (OffsetSet.has_add _ _ _).mp h with h | h
          · exact hs h
          · rw [hseen] at h
            exact Bool.false_ne_true h
        obtain ⟨x, hx, ho⟩ := ih hmem hnot
        exact ⟨x, List.mem_cons_of_mem s hx, ho⟩

theorem exists_mem_distinct {origin : Cursor} {reaches : List Reach} (h : Along origin reaches)
    {r : Reach} (hr : r ∈ reaches) : ∃ x ∈ distinct reaches, x.cursor.rest = r.cursor.rest := by
  obtain ⟨x, hx, ho⟩ := exists_mem_distinctFrom hr (OffsetSet.has_empty _)
  exact ⟨x, hx, h.rest_eq (mem_of_mem_distinctFrom hx) hr ho⟩

/-! ## Runs -/

/-- What has been found of a run: its offsets are those of its places, and with a
place all that the run goes on to is found. -/
structure Found.Full (origin : Cursor) (test : Char → Bool) (found : Found) : Prop where
  along : Along origin found.reaches
  has : ∀ offset, found.offsets.has offset = true → ∃ r ∈ found.reaches, r.offset = offset
  next : ∀ r ∈ found.reaches, ∀ c rest, r.cursor.rest = c :: rest → test c = true →
    ∃ s ∈ found.reaches, s.cursor.rest = rest

theorem mem_foldl_add {along : List Reach} {found : Found} {x : Reach} :
    x ∈ (along.foldl Found.add found).reaches ↔ x ∈ along ∨ x ∈ found.reaches := by
  induction along generalizing found with
  | nil => simp
  | cons r along ih =>
    rw [List.foldl_cons, ih]
    simp only [Found.add, List.mem_cons]
    constructor
    · rintro (h | h | h)
      · exact .inl (.inr h)
      · exact .inl (.inl h)
      · exact .inr h
    · rintro ((h | h) | h)
      · exact .inr (.inl h)
      · exact .inl h
      · exact .inr (.inr h)

theorem exists_of_has_foldl_add {along : List Reach} {found : Found} {offset : Nat}
    (h : (along.foldl Found.add found).offsets.has offset = true) :
    (∃ r ∈ along, r.offset = offset) ∨ found.offsets.has offset = true := by
  induction along generalizing found with
  | nil => exact .inr h
  | cons r along ih =>
    rcases ih h with ⟨s, hs, ho⟩ | h
    · exact .inl ⟨s, List.mem_cons_of_mem r hs, ho⟩
    · rcases (OffsetSet.has_add _ _ _).mp h with ho | h
      · exact .inl ⟨r, List.mem_cons_self, ho⟩
      · exact .inr h

section

variable {test : Char → Bool} {found : Found} {reach : Reach} {previous : Option Char}
  {offset : Nat} {rest : List Char}

theorem along_alongRun {origin : Cursor} {w : List Char}
    (h : origin.Reads w ⟨previous, offset, rest⟩) :
    Along origin (alongRun test found reach previous offset rest) := by
  intro x hx
  obtain ⟨ms, hm, -⟩ : Extends (.run true test) _ x := extends_of_mem_alongRun hx
  obtain ⟨v, hv⟩ := hm.reads
  exact ⟨w ++ v, h.trans hv⟩

theorem mem_alongRun_self (h : found.offsets.has offset = false) :
    { reach with cursor := ⟨previous, offset, rest⟩ } ∈
      alongRun test found reach previous offset rest := by
  unfold alongRun
  rw [if_neg (by simp [h])]
  exact List.mem_cons_self

/-- A run goes on until a place that was found before. -/
theorem next_alongRun {x : Reach} (hx : x ∈ alongRun test found reach previous offset rest)
    {c : Char} {rest' : List Char} (hrest : x.cursor.rest = c :: rest') (ht : test c = true) :
    (∃ y ∈ alongRun test found reach previous offset rest, y.cursor.rest = rest') ∨
      found.offsets.has (x.offset + c.utf8Size) = true := by
  induction rest generalizing previous offset with
  | nil =>
    rw [alongRun] at hx
    split at hx
    · exact absurd hx List.not_mem_nil
    · rw [List.mem_singleton] at hx
      rw [hx] at hrest
      exact absurd hrest.symm (List.cons_ne_nil c rest')
  | cons a rest ih =>
    rw [alongRun] at hx ⊢
    split at hx
    · exact absurd hx List.not_mem_nil
    · next hnot =>
      rw [if_neg hnot]
      rcases List.mem_cons.mp hx with rfl | hx
      · obtain ⟨rfl, rfl⟩ := List.cons.inj hrest
        rw [if_pos ht]
        cases hhas : found.offsets.has (offset + a.utf8Size) with
        | true => exact .inr hhas
        | false => exact .inl ⟨_, List.mem_cons_of_mem _ (mem_alongRun_self hhas), rfl⟩
      · split at hx
        · next ha =>
          rw [if_pos ha]
          rcases ih hx with ⟨y, hy, hyrest⟩ | hhas
          · exact .inl ⟨y, List.mem_cons_of_mem _ hy, hyrest⟩
          · exact .inr hhas
        · exact absurd hx List.not_mem_nil

theorem mem_addRun {greedy : Bool} {x : Reach} :
    x ∈ (addRun greedy test found reach).reaches ↔
      x ∈ alongRun test found reach reach.cursor.previous reach.offset reach.cursor.rest ∨
        x ∈ found.reaches := by
  rw [addRun, mem_foldl_add]
  cases greedy <;> simp

theorem exists_of_has_addRun {greedy : Bool}
    (h : (addRun greedy test found reach).offsets.has offset = true) :
    (∃ r ∈ alongRun test found reach reach.cursor.previous reach.offset reach.cursor.rest,
      r.offset = offset) ∨ found.offsets.has offset = true := by
  rw [addRun] at h
  refine (exists_of_has_foldl_add h).imp_left ?_
  rintro ⟨r, hr, ho⟩
  refine ⟨r, ?_, ho⟩
  cases greedy
  · exact hr
  · exact List.mem_reverse.mp hr

/-- A place that was found before leaves what stands there now. -/
theorem Found.Full.exists_of_has {origin c : Cursor} {w : List Char} (h : found.Full origin test)
    (hc : origin.Reads w c) (hhas : found.offsets.has c.offset = true) :
    ∃ x ∈ found.reaches, x.cursor.rest = c.rest := by
  obtain ⟨x, hx, ho⟩ := h.has c.offset hhas
  obtain ⟨a, ha⟩ := h.along x hx
  exact ⟨x, hx, ha.rest_eq hc ho⟩

theorem Found.Full.after_addRun {origin : Cursor} {w : List Char} (h : found.Full origin test)
    (greedy : Bool) (hr : origin.Reads w reach.cursor) :
    (addRun greedy test found reach).Full origin test where
  along x hx := by
    rcases mem_addRun.mp hx with hx | hx
    · exact along_alongRun hr x hx
    · exact h.along x hx
  has offset ho := by
    rcases exists_of_has_addRun ho with ⟨r, hr, ho⟩ | ho
    · exact ⟨r, mem_addRun.mpr (.inl hr), ho⟩
    · obtain ⟨r, hr, ho⟩ := h.has offset ho
      exact ⟨r, mem_addRun.mpr (.inr hr), ho⟩
  next r hmem c rest hrest ht := by
    rcases mem_addRun.mp hmem with hmem | hmem
    · rcases next_alongRun hmem hrest ht with ⟨y, hy, hyrest⟩ | hhas
      · exact ⟨y, mem_addRun.mpr (.inl hy), hyrest⟩
      · -- The run stops here because an earlier one came past, and that one is full.
        obtain ⟨a, ha⟩ := along_alongRun hr r hmem
        obtain ⟨y, hy, hyrest⟩ := h.exists_of_has (ha.next hrest) hhas
        exact ⟨y, mem_addRun.mpr (.inr hy), hyrest⟩
    · obtain ⟨y, hy, hyrest⟩ := h.next r hmem c rest hrest ht
      exact ⟨y, mem_addRun.mpr (.inr hy), hyrest⟩

theorem Found.Full.exists_mem_addRun {origin : Cursor} {w : List Char}
    (h : found.Full origin test) (greedy : Bool) (hr : origin.Reads w reach.cursor) :
    ∃ x ∈ (addRun greedy test found reach).reaches,
      x.cursor.rest = reach.cursor.rest := by
  cases hhas : found.offsets.has reach.offset with
  | true =>
    obtain ⟨x, hx, hrest⟩ := h.exists_of_has hr hhas
    exact ⟨x, mem_addRun.mpr (.inr hx), hrest⟩
  | false => exact ⟨reach, mem_addRun.mpr (.inl (mem_alongRun_self hhas)), rfl⟩

theorem Found.full_none (origin : Cursor) (test : Char → Bool) : Found.none.Full origin test where
  along _ h := nomatch h
  has offset h := absurd h (by simp [Found.none, OffsetSet.has_empty])
  next _ h := nomatch h

theorem Found.Full.foldl {origin : Cursor} {reaches : List Reach} (h : found.Full origin test)
    (greedy : Bool) (ha : Along origin reaches) :
    (reaches.foldl (addRun greedy test) found).Full origin test ∧
      (∀ r ∈ reaches, ∃ x ∈ (reaches.foldl (addRun greedy test) found).reaches,
        x.cursor.rest = r.cursor.rest) ∧
      ∀ x ∈ found.reaches, x ∈ (reaches.foldl (addRun greedy test) found).reaches := by
  induction reaches generalizing found with
  | nil => exact ⟨h, nofun, fun _ hx => hx⟩
  | cons r reaches ih =>
    obtain ⟨w, hr⟩ := ha r List.mem_cons_self
    obtain ⟨hfull, hall, hkeep⟩ :=
      ih (h.after_addRun greedy hr) (ha.mono fun s hs => List.mem_cons_of_mem r hs)
    refine ⟨hfull, fun s hs => ?_, fun y hy => hkeep y (mem_addRun.mpr (.inr hy))⟩
    rcases List.mem_cons.mp hs with rfl | hs
    · obtain ⟨x, hx, hrest⟩ := h.exists_mem_addRun greedy hr
      exact ⟨x, hkeep x hx, hrest⟩
    · exact hall s hs

end

/-- With a place all that a run leads to from there is found. -/
theorem Found.Full.exists_rest {origin : Cursor} {test : Char → Bool} {found : Found}
    (h : found.Full origin test) {w t : List Char} (hw : ∀ c ∈ w, test c = true) {r : Reach}
    (hr : r ∈ found.reaches) (hrest : r.cursor.rest = w ++ t) :
    ∃ x ∈ found.reaches, x.cursor.rest = t := by
  induction w generalizing r with
  | nil => exact ⟨r, hr, hrest⟩
  | cons c w ih =>
    obtain ⟨s, hs, hsrest⟩ := h.next r hr c (w ++ t) hrest (hw c List.mem_cons_self)
    exact ih (fun d hd => hw d (List.mem_cons_of_mem c hd)) hs hsrest

/-! ## Repetitions -/

/-- What has been found of a repetition: its offsets are those of its places, and with a place
all that a round leads on to is found, unless the rounds from there are still to come. -/
structure Found.Closed (origin : Cursor) (step : Reach → List Reach) (pending : Reach → Prop)
    (found : Found) : Prop where
  along : Along origin found.reaches
  has : ∀ offset, found.offsets.has offset = true → ∃ r ∈ found.reaches, r.offset = offset
  next : ∀ r ∈ found.reaches, pending r ∨
    ∀ s ∈ step r, r.offset < s.offset → found.offsets.has s.offset = true

section

variable {origin : Cursor} {step : Reach → List Reach} {pending : Reach → Prop} {found : Found}
  {reach : Reach} {greedy : Bool}

theorem Found.closed_none (origin : Cursor) (step : Reach → List Reach) (pending : Reach → Prop) :
    Found.none.Closed origin step pending where
  along _ h := nomatch h
  has offset h := absurd h (by simp [Found.none, OffsetSet.has_empty])
  next _ h := nomatch h

/-- A place is added whose rounds are still to come, or lead to what was found. -/
theorem Found.Closed.add (h : found.Closed origin step pending) {w : List Char}
    (hr : origin.Reads w reach.cursor)
    (hnext : pending reach ∨
      ∀ s ∈ step reach, reach.offset < s.offset → found.offsets.has s.offset = true) :
    (found.add reach).Closed origin step pending where
  along x hx := by
    rcases List.mem_cons.mp hx with rfl | hx
    · exact ⟨w, hr⟩
    · exact h.along x hx
  has offset ho := by
    rcases (OffsetSet.has_add _ _ _).mp ho with rfl | ho
    · exact ⟨reach, List.mem_cons_self, rfl⟩
    · obtain ⟨r, hr, ho⟩ := h.has offset ho
      exact ⟨r, List.mem_cons_of_mem reach hr, ho⟩
  next r hmem := by
    have hkeep : (∀ s ∈ step r, r.offset < s.offset → found.offsets.has s.offset = true) →
        ∀ s ∈ step r, r.offset < s.offset → (found.add reach).offsets.has s.offset = true :=
      fun hall s hs hlt => (OffsetSet.has_add _ _ _).mpr (.inr (hall s hs hlt))
    rcases List.mem_cons.mp hmem with rfl | hmem
    · exact hnext.imp_right hkeep
    · exact (h.next r hmem).imp_right hkeep

/-- What the rounds from a place keep of what was found before them, and what they add. -/
def Explores (origin : Cursor) (step : Reach → List Reach) (f : Found → Reach → Found)
    (reach : Reach) : Prop :=
  ∀ (pending : Reach → Prop) (found : Found), found.Closed origin step pending →
    (f found reach).Closed origin step pending ∧ (f found reach).has reach = true ∧
      ∀ offset, found.offsets.has offset = true → (f found reach).offsets.has offset = true

theorem Explores.foldl {f : Found → Reach → Found} {reaches : List Reach}
    (hf : ∀ r ∈ reaches, Explores origin step f r) (h : found.Closed origin step pending) :
    (reaches.foldl f found).Closed origin step pending ∧
      (∀ r ∈ reaches, (reaches.foldl f found).has r = true) ∧
        ∀ offset, found.offsets.has offset = true →
          (reaches.foldl f found).offsets.has offset = true := by
  induction reaches generalizing found with
  | nil => exact ⟨h, nofun, fun _ ho => ho⟩
  | cons r reaches ih =>
    obtain ⟨hclosed, hhas, hkeep⟩ := hf r List.mem_cons_self pending found h
    obtain ⟨hall, hadds, hkeeps⟩ := ih (fun s hs => hf s (List.mem_cons_of_mem r hs)) hclosed
    refine ⟨hall, fun s hs => ?_, fun offset ho => hkeeps offset (hkeep offset ho)⟩
    rcases List.mem_cons.mp hs with rfl | hs
    · exact hkeeps _ hhas
    · exact hadds s hs

/-- The rounds from a place find all there is, as long as every round reads on and there are as
many rounds as characters to read. -/
theorem explores_rounds (hstep : ∀ r, ∀ s ∈ step r, ∃ w, r.cursor.Reads w s.cursor)
    (unread : List Char) {w : List Char} (hr : origin.Reads w reach.cursor)
    (hlen : reach.cursor.rest.length ≤ unread.length) :
    Explores origin step (rounds greedy step unread) reach := by
  induction unread generalizing reach w with
  | nil =>
    intro pending found h
    have hend : ∀ s ∈ step reach, ¬ reach.offset < s.offset := by
      intro s hs
      obtain ⟨v, hv⟩ := hstep reach s hs
      have hnil : v = [] := by
        have hrest := hv.1
        rw [List.length_eq_zero_iff.mp (Nat.le_zero.mp hlen)] at hrest
        exact (List.append_eq_nil_iff.mp hrest.symm).1
      have hoffset : s.offset = reach.offset + Text.width v := hv.2
      rw [hoffset, hnil]
      exact Nat.lt_irrefl _
    rw [rounds]
    split
    · next hhas => exact ⟨h, hhas, fun _ ho => ho⟩
    · exact ⟨h.add hr (.inr fun s hs hlt => absurd hlt (hend s hs)),
        (OffsetSet.has_add _ _ _).mpr (.inl rfl),
        fun _ ho => (OffsetSet.has_add _ _ _).mpr (.inr ho)⟩
  | cons c unread ih =>
    intro pending found h
    have hfurther : ∀ s ∈ (step reach).filter (reach.offset < ·.offset),
        Explores origin step (rounds greedy step unread) s := by
      intro s hs
      rw [List.mem_filter, decide_eq_true_eq] at hs
      obtain ⟨v, hv⟩ := hstep reach s hs.1
      refine ih (hr.trans hv) ?_
      -- A round that goes on has read something.
      have hne : v ≠ [] := by
        rintro rfl
        have hoffset : s.offset = reach.offset + 0 := hv.2
        omega
      have hlength := congrArg List.length hv.1
      rw [List.length_append] at hlength
      have hpos := List.length_pos_iff.mpr hne
      rw [List.length_cons] at hlen
      omega
    have hmem : ∀ s ∈ step reach, reach.offset < s.offset →
        s ∈ (step reach).filter (reach.offset < ·.offset) := fun s hs hlt =>
      List.mem_filter.mpr ⟨hs, decide_eq_true hlt⟩
    rw [rounds]
    split
    · next hhas => exact ⟨h, hhas, fun _ ho => ho⟩
    · dsimp only
      split
      · obtain ⟨hclosed, hadds, hkeeps⟩ := Explores.foldl hfurther h
        exact ⟨hclosed.add hr (.inr fun s hs hlt => hadds s (hmem s hs hlt)),
          (OffsetSet.has_add _ _ _).mpr (.inl rfl),
          fun offset ho => (OffsetSet.has_add _ _ _).mpr (.inr (hkeeps offset ho))⟩
      · -- The place comes before what its rounds lead to, so it is pending among those.
        have hpending : found.Closed origin step fun r => pending r ∨ r = reach :=
          ⟨h.along, h.has, fun r hmem => (h.next r hmem).imp_left .inl⟩
        obtain ⟨hclosed, hadds, hkeeps⟩ :=
          Explores.foldl hfurther (hpending.add hr (.inl (.inr rfl)))
        refine ⟨⟨hclosed.along, hclosed.has, fun r hmem' => ?_⟩,
          hkeeps _ ((OffsetSet.has_add _ _ _).mpr (.inl rfl)),
          fun offset ho => hkeeps offset ((OffsetSet.has_add _ _ _).mpr (.inr ho))⟩
        rcases hclosed.next r hmem' with (hr' | rfl) | hall
        · exact .inl hr'
        · exact .inr fun s hs hlt => hadds s (hmem s hs hlt)
        · exact .inr hall

/-- From a place that is found all rounds lead to places that are found. -/
theorem Found.Closed.exists_rest {p : Pattern}
    (h : found.Closed origin (fun reach => p.ends [reach]) fun _ => False)
    (hp : ∀ {r : Reach} {t : List Char}, (∃ w, origin.Reads w r.cursor) → p.Leaves r.cursor.rest t →
      ∃ x ∈ p.ends [r], x.cursor.rest = t) {s t : List Char}
    (hst : Relation.ReflTransGen p.Leaves s t) {r : Reach} (hr : r ∈ found.reaches)
    (hrest : r.cursor.rest = s) : ∃ x ∈ found.reaches, x.cursor.rest = t := by
  induction hst with
  | refl => exact ⟨r, hr, hrest⟩
  | tail _ hround ih =>
    obtain ⟨x, hx, rfl⟩ := ih
    obtain ⟨y, hy, rfl⟩ := hp (h.along x hx) hround
    obtain ⟨a, ha⟩ := h.along x hx
    obtain ⟨_, hr', ms, hm, -⟩ := extends_of_mem_ends hy
    obtain ⟨b, hb⟩ := (List.mem_singleton.mp hr' ▸ hm : Matches p x.cursor y.cursor ms).reads
    have hoffset : y.offset = x.offset + Text.width b := hb.2
    by_cases hlt : x.offset < y.offset
    · obtain ⟨z, hz, hzo⟩ := h.has _ (((h.next x hx).resolve_left id) y hy hlt)
      obtain ⟨d, hd⟩ := h.along z hz
      exact ⟨z, hz, hd.rest_eq (ha.trans hb) hzo⟩
    · exact ⟨x, hx, ha.rest_eq (ha.trans hb) (by show x.offset = y.offset; omega)⟩

end

/-- Every way to match from one of some places is found. -/
theorem exists_mem_ends {p : Pattern} {origin : Cursor} {reaches : List Reach}
    (ha : Along origin reaches) {r : Reach} (hr : r ∈ reaches) {t : List Char}
    (h : p.Leaves r.cursor.rest t) : ∃ x ∈ p.ends reaches, x.cursor.rest = t := by
  induction p generalizing reaches r t with
  | empty => exact ⟨r, hr, h⟩
  | char test =>
    obtain ⟨c, hc, hrest⟩ := h
    refine ⟨{ r with cursor := ⟨some c, r.offset + c.utf8Size, t⟩ },
      List.mem_filterMap.mpr ⟨r, hr, ?_⟩, rfl⟩
    rw [Reach.afterChar?, hrest]
    simp [hc]
  | word w =>
    refine ⟨{ r with cursor :=
        ⟨w.getLast?.or r.cursor.previous, r.offset + Text.width w, t⟩ },
      List.mem_filterMap.mpr ⟨r, hr, ?_⟩, rfl⟩
    rw [Reach.afterWord?, Text.dropLead?_eq_some_iff.mpr h]
    rfl
  | seq p q ihp ihq =>
    obtain ⟨u, hp, hq⟩ := h
    obtain ⟨x, hx, rfl⟩ := ihp ha hr hp
    exact ihq (ha.ends p) hx hq
  | alt p q ihp ihq =>
    have hfound : ∃ x ∈ reaches.flatMap fun reach => p.ends [reach] ++ q.ends [reach],
        x.cursor.rest = t := by
      rcases h with h | h
      · obtain ⟨x, hx, hxt⟩ := ihp (ha.single hr) List.mem_cons_self h
        exact ⟨x, List.mem_flatMap.mpr ⟨r, hr, List.mem_append_left _ hx⟩, hxt⟩
      · obtain ⟨x, hx, hxt⟩ := ihq (ha.single hr) List.mem_cons_self h
        exact ⟨x, List.mem_flatMap.mpr ⟨r, hr, List.mem_append_right _ hx⟩, hxt⟩
    -- Of the ends at one offset only the first is kept, and all of them leave the same text.
    obtain ⟨x, hx, hxt⟩ := hfound
    obtain ⟨y, hy, hyx⟩ := exists_mem_distinct (ha.alternatives p q) hx
    exact ⟨y, hy, hyx.trans hxt⟩
  | boundary | lineStart | textStart => exact h.elim
  | star greedy p ih =>
    have hstep : ∀ r, ∀ s ∈ p.ends [r], ∃ w, r.cursor.Reads w s.cursor := by
      intro r s hs
      obtain ⟨_, hr, ms, hm, -⟩ := extends_of_mem_ends hs
      exact (List.mem_singleton.mp hr ▸ hm : Matches p r.cursor s.cursor ms).reads
    have hall : ∀ r ∈ reaches, Explores origin (fun reach => p.ends [reach])
        (fun found reach => rounds greedy (fun reach => p.ends [reach]) reach.cursor.rest found reach)
        r := by
      intro r hr
      obtain ⟨w, hw⟩ := ha r hr
      exact fun pending found hfound =>
        explores_rounds hstep r.cursor.rest hw (Nat.le_refl _) pending found hfound
    obtain ⟨hclosed, hadds, -⟩ := Explores.foldl hall (Found.closed_none origin _ fun _ => False)
    obtain ⟨x, hx, hxo⟩ := hclosed.has _ (hadds r hr)
    obtain ⟨a, ha'⟩ := ha r hr
    obtain ⟨b, hb⟩ := hclosed.along x hx
    have hp : ∀ {r : Reach} {t : List Char}, (∃ w, origin.Reads w r.cursor) →
        p.Leaves r.cursor.rest t → ∃ x ∈ p.ends [r], x.cursor.rest = t := by
      rintro r t ⟨w, hw⟩ hleaves
      exact ih (fun s hs => ⟨w, List.mem_singleton.mp hs ▸ hw⟩) List.mem_cons_self hleaves
    obtain ⟨y, hy, hyt⟩ := hclosed.exists_rest hp h hx (hb.rest_eq ha' hxo)
    exact ⟨y, List.mem_reverse.mpr hy, hyt⟩
  | run greedy test =>
    obtain ⟨w, hrest, hw⟩ := h
    obtain ⟨hfull, hall, -⟩ := (Found.full_none origin test).foldl greedy ha
    obtain ⟨x, hx, hxrest⟩ := hall r hr
    obtain ⟨y, hy, hyt⟩ := hfull.exists_rest hw hx (hxrest.trans hrest)
    exact ⟨y, List.mem_reverse.mpr hy, hyt⟩
  | part label p ih =>
    obtain ⟨x, hx, hxt⟩ := ih (ha.enter label) (List.mem_map_of_mem hr) h
    refine ⟨x.leave, List.mem_map_of_mem hx, ?_⟩
    rw [Reach.leave]
    split <;> exact hxt
  | textEnd =>
    obtain ⟨hs, rfl⟩ := h
    exact ⟨r, List.mem_filter.mpr ⟨hr, by simp [hs]⟩, hs⟩

/-- Whether there is a way to match from the front of a text. -/
def Starts (p : Pattern) (s : List Char) : Prop := ∃ t, p.Leaves s t

theorem isSome_matchAt {p : Pattern} (cursor : Cursor) (h : p.Starts cursor.rest) :
    (p.matchAt cursor).isSome = true := by
  obtain ⟨t, h⟩ := h
  have ha : Along cursor.asOrigin [.start cursor.asOrigin] := by
    intro r hr
    obtain rfl := List.mem_singleton.mp hr
    exact ⟨[], .refl _⟩
  obtain ⟨x, hx, -⟩ := exists_mem_ends ha List.mem_cons_self h
  rw [matchAt, Option.isSome_map, List.isSome_head?]
  simpa using List.ne_nil_of_mem hx

end Pattern
end Outline
