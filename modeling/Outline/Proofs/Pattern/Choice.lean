import Outline.Proofs.Pattern.First

/-!
# The best end of a pattern

Where a text is known as far as a pattern reads it, the ends of the pattern can be told one
part after the other: a repetition that cannot begin leaves the places as they are, and a
greedy run goes to the end of the characters that it may read.
-/

namespace Outline

/-- The place after a text that is read from another place on. -/
def Reach.after (reach : Reach) (text rest : List Char) : Reach :=
  { reach with cursor :=
      ⟨text.getLast?.or reach.cursor.previous, reach.offset + Text.width text, rest⟩ }

namespace Pattern

variable {p q : Pattern} {test : Char → Bool} {text rest : List Char}

theorem ends_char (reach : Reach) {c : Char} (hr : reach.cursor.rest = c :: rest)
    (hc : test c = true) : (Pattern.char test).ends [reach] = [Reach.after reach [c] rest] := by
  simp [ends, Reach.afterChar?, hr, hc, Reach.after, Reach.offset]

theorem ends_char_of_not {reaches : List Reach}
    (h : ∀ r ∈ reaches, ∀ c, r.cursor.rest.head? = some c → test c = false) :
    (Pattern.char test).ends reaches = [] := by
  rw [ends]
  refine List.filterMap_eq_nil_iff.mpr fun r hr => ?_
  rw [Reach.afterChar?]
  cases hrest : r.cursor.rest with
  | nil => rfl
  | cons c rest =>
    have hc : test c = false := h r hr c (by rw [hrest]; rfl)
    simp [hc]

/-- Places where a character cannot be read do not count. -/
theorem ends_char_cons (reach : Reach) {others : List Reach}
    (h : ∀ r ∈ others, ∀ c, r.cursor.rest.head? = some c → test c = false) :
    (Pattern.char test).ends (reach :: others) = (Pattern.char test).ends [reach] := by
  have hothers := ends_char_of_not h
  rw [ends] at hothers
  rw [ends, ends, List.filterMap_cons, List.filterMap_cons, hothers, List.filterMap_nil]

theorem ends_seq_of_nil {reaches : List Reach} (h : p.ends reaches = []) :
    (p ++ q).ends reaches = [] := by
  show q.ends (p.ends reaches) = []
  rw [h, ends_nil]

/-! ## Runs -/

theorem alongRun_cons (reach : Reach) (previous : Option Char) (offset : Nat) {c : Char}
    (hc : test c = true) : alongRun test .none reach previous offset (c :: rest) =
      { reach with cursor := ⟨previous, offset, c :: rest⟩ } ::
        alongRun test .none reach (some c) (offset + c.utf8Size) rest := by
  rw [alongRun, if_neg (by simp [Found.none, OffsetSet.has_empty]), if_pos hc]

theorem alongRun_of_not (reach : Reach) (previous : Option Char) (offset : Nat)
    (h : ∀ c, rest.head? = some c → test c = false) :
    alongRun test .none reach previous offset rest =
      [{ reach with cursor := ⟨previous, offset, rest⟩ }] := by
  cases rest with
  | nil => rw [alongRun, if_neg (by simp [Found.none, OffsetSet.has_empty])]
  | cons c rest =>
    have hc : test c = false := h c rfl
    rw [alongRun, if_neg (by simp [Found.none, OffsetSet.has_empty]), if_neg (by simp [hc])]

theorem getLast?_alongRun (reach : Reach) (previous : Option Char) (offset : Nat)
    (h : ∀ c ∈ text, test c = true) (hstop : ∀ c, rest.head? = some c → test c = false) :
    (alongRun test .none reach previous offset (text ++ rest)).getLast? =
      some { reach with cursor :=
        ⟨text.getLast?.or previous, offset + Text.width text, rest⟩ } := by
  induction text generalizing previous offset with
  | nil =>
    rw [List.nil_append, alongRun_of_not reach previous offset hstop]
    rfl
  | cons c text ih =>
    rw [List.cons_append, alongRun_cons reach _ _ (h c List.mem_cons_self), List.getLast?_cons,
      ih (some c) (offset + c.utf8Size) fun d hd => h d (List.mem_cons_of_mem c hd)]
    simp only [Option.getD_some, Option.some.injEq, Reach.mk.injEq, Cursor.mk.injEq, and_true,
      Text.width_cons, Nat.add_assoc]
    cases text <;> simp [List.getLast?_cons]

theorem ends_run (test : Char → Bool) (reach : Reach) : (Pattern.run true test).ends [reach] =
    (alongRun test .none reach reach.cursor.previous reach.offset reach.cursor.rest).reverse := by
  rw [ends, List.foldl_cons, List.foldl_nil, addRun, if_pos rfl, Found.toList, reaches_foldl_add,
    Found.none, List.append_nil, List.reverse_reverse]

/-- A greedy run goes on as long as it may. -/
theorem head?_ends_run (reach : Reach) (hr : reach.cursor.rest = text ++ rest)
    (h : ∀ c ∈ text, test c = true) (hstop : ∀ c, rest.head? = some c → test c = false) :
    ((Pattern.run true test).ends [reach]).head? = some (Reach.after reach text rest) := by
  rw [ends_run, List.head?_reverse, hr]
  exact getLast?_alongRun reach _ _ h hstop

/-- A run that may not begin leaves the place as it is. -/
theorem ends_run_of_not (greedy : Bool) (reach : Reach)
    (h : ∀ c, reach.cursor.rest.head? = some c → test c = false) :
    (Pattern.run greedy test).ends [reach] = [reach] := by
  rw [ends, List.foldl_cons, List.foldl_nil, addRun, alongRun_of_not reach _ _ h]
  cases greedy <;> rfl

/-! ## Repetitions -/

theorem reaches_foldl_rounds {greedy : Bool} {step : Reach → List Reach} {reaches : List Reach}
    (h : ∀ reach ∈ reaches, step reach = [])
    (hd : reaches.Pairwise fun a b => a.offset ≠ b.offset) {found : Found}
    (hf : ∀ reach ∈ reaches, found.has reach = false) :
    (reaches.foldl (fun found reach => rounds greedy step reach.cursor.rest found reach)
      found).reaches = reaches.reverse ++ found.reaches := by
  induction reaches generalizing found with
  | nil => rfl
  | cons reach reaches ih =>
    obtain ⟨hne, hd⟩ := List.pairwise_cons.mp hd
    have hround : rounds greedy step reach.cursor.rest found reach = found.add reach := by
      have hnot : found.has reach = false := hf reach List.mem_cons_self
      cases reach.cursor.rest with
      | nil => rw [rounds, hnot]; rfl
      | cons c rest =>
        rw [rounds, hnot, h reach List.mem_cons_self]
        cases greedy <;> rfl
    rw [List.foldl_cons, hround, ih (fun r hr => h r (List.mem_cons_of_mem _ hr)) hd ?_,
      List.reverse_cons, List.append_assoc]
    · rfl
    · intro r hr
      refine Bool.eq_false_iff.mpr fun hhas => ?_
      rcases (OffsetSet.has_add _ _ _).mp hhas with heq | hold
      · exact hne r hr heq
      · exact Bool.false_ne_true ((hf r (List.mem_cons_of_mem _ hr)).symm.trans hold)

/-- A repetition that can begin at none of some places leaves them as they are. -/
theorem ends_star_of_nil {greedy : Bool} {reaches : List Reach}
    (h : ∀ reach ∈ reaches, p.ends [reach] = [])
    (hd : reaches.Pairwise fun a b => a.offset ≠ b.offset) :
    (Pattern.star greedy p).ends reaches = reaches := by
  have hnone : ∀ reach ∈ reaches, Found.none.has reach = false :=
    fun reach _ => OffsetSet.has_empty reach.offset
  rw [ends, Found.toList, reaches_foldl_rounds h hd hnone]
  simp [Found.none]

/-! ## Words -/

theorem distinct_toList (reach : Option Reach) : distinct reach.toList = reach.toList := by
  cases reach with
  | none => rfl
  | some reach =>
    show distinctFrom .empty [reach] = [reach]
    rw [distinctFrom, if_neg (by simp [OffsetSet.has_empty])]
    rfl

theorem ends_lit (word : String) (reach : Reach) :
    (lit word).ends [reach] = (Reach.afterWord? word.toList reach).toList := by
  rw [lit, ends, List.filterMap_cons, List.filterMap_nil]
  cases Reach.afterWord? word.toList reach <;> rfl

theorem ends_alt (reach : Reach) :
    (Pattern.alt p q).ends [reach] = distinct (p.ends [reach] ++ q.ends [reach]) := by
  rw [ends, List.flatMap_singleton]

theorem ends_oneOf_of_nil {words : List String} {reach : Reach}
    (h : ∀ word ∈ words, (lit word).ends [reach] = []) : (oneOf words).ends [reach] = [] := by
  induction words with
  | nil => exact ends_char_of_not fun _ _ _ _ => rfl
  | cons word words ih =>
    have hrest := ih fun w hw => h w (List.mem_cons_of_mem word hw)
    cases words with
    | nil => exact h word List.mem_cons_self
    | cons next words =>
      show (Pattern.alt (lit word) (oneOf (next :: words))).ends [reach] = []
      rw [ends_alt, h word List.mem_cons_self, hrest]
      rfl

/-- Where a single one of some words can be read, it is. -/
theorem ends_oneOf {before after : List String} {word : String} {reach : Reach}
    (hb : ∀ other ∈ before, (lit other).ends [reach] = [])
    (ha : ∀ other ∈ after, (lit other).ends [reach] = []) :
    (oneOf (before ++ word :: after)).ends [reach] = (lit word).ends [reach] := by
  induction before with
  | nil =>
    cases after with
    | nil => rfl
    | cons next after =>
      show (Pattern.alt (lit word) (oneOf (next :: after))).ends [reach] = _
      rw [ends_alt, ends_oneOf_of_nil ha, List.append_nil, ends_lit, distinct_toList]
  | cons other before ih =>
    have hrest := ih fun w hw => hb w (List.mem_cons_of_mem other hw)
    obtain ⟨next, more, hcons⟩ : ∃ next more, before ++ word :: after = next :: more := by
      cases before <;> exact ⟨_, _, rfl⟩
    rw [List.cons_append, hcons]
    rw [hcons] at hrest
    show (Pattern.alt (lit other) (oneOf (next :: more))).ends [reach] = _
    rw [ends_alt, hb other List.mem_cons_self, hrest, List.nil_append, ends_lit, distinct_toList]

/-! ## The match -/

theorem matchAt_of_head? {cursor : Cursor} {stop : Reach}
    (h : (p.ends [.start cursor.asOrigin]).head? = some stop) :
    p.matchAt cursor = some (.ofMarks cursor.offset cursor.asOrigin stop.cursor stop.marks) := by
  rw [matchAt, h]
  rfl

theorem find?_of_matchAt {found : Match} (h : p.matchAt ⟨none, 0, text⟩ = some found) :
    p.find? text = some found := by
  cases text with
  | nil => exact h
  | cons c text => rw [find?, findFrom, h]

end Pattern
end Outline

/-!
## First choices

The ends from several places start with the ends from the first of them.  So where every part
of a pattern goes on from the best end of the part before, the best end of the whole is told
part by part, and no other way to match has to be looked at.
-/

namespace Outline

theorem Reach.after_after (reach : Reach) (a b mid rest : List Char) :
    (reach.after a mid).after b rest = reach.after (a ++ b) rest := by
  simp only [Reach.after, Reach.offset, List.getLast?_append, Option.or_assoc, Text.width_append,
    Nat.add_assoc]

/-- The place behind a part that starts at another place. -/
def Reach.passing (reach : Reach) (label : Part) (text rest : List Char) : Reach :=
  { reach.after text rest with
    marks := ⟨label, reach.cursor, reach.offset + Text.width text⟩ :: reach.marks }

/-- What stands in a part that is passed. -/
theorem Reach.capture_passing (reach : Reach) (text rest : List Char)
    (hr : reach.cursor.rest = text ++ rest) (base : Nat) :
    reach.cursor.capture base (reach.offset + Text.width text) = ⟨base + reach.offset, text⟩ := by
  have hread : reach.cursor.Reads text (reach.after text rest).cursor := ⟨hr, rfl⟩
  exact hread.capture_eq base

namespace Pattern

/-! ### The ends from the first of several places -/

/-- A search that only adds to what was found before. -/
def Adds (f : Found → Reach → Found) : Prop :=
  ∀ found reach, ∃ more, (f found reach).reaches = more ++ found.reaches

theorem Adds.foldl {f : Found → Reach → Found} (h : Adds f) (reaches : List Reach)
    (found : Found) : ∃ more, (reaches.foldl f found).reaches = more ++ found.reaches := by
  induction reaches generalizing found with
  | nil => exact ⟨[], rfl⟩
  | cons reach reaches ih =>
    obtain ⟨new, hnew⟩ := h found reach
    obtain ⟨more, hmore⟩ := ih (f found reach)
    exact ⟨more ++ new, by rw [List.foldl_cons, hmore, hnew, List.append_assoc]⟩

/-- What a fold of searches finds from the first places stays in front. -/
theorem Adds.toList_foldl_append {f : Found → Reach → Found} (h : Adds f)
    (first others : List Reach) : ∃ more, ((first ++ others).foldl f .none).toList =
      (first.foldl f .none).toList ++ more := by
  obtain ⟨new, hnew⟩ := h.foldl others (first.foldl f .none)
  exact ⟨new.reverse, by rw [List.foldl_append, Found.toList, hnew, List.reverse_append,
    Found.toList]⟩

theorem adds_addRun (greedy : Bool) (test : Char → Bool) : Adds (addRun greedy test) := by
  intro found reach
  rw [addRun, reaches_foldl_add]
  exact ⟨_, rfl⟩

theorem adds_rounds (greedy : Bool) (step : Reach → List Reach) (unread : List Char) :
    Adds (rounds greedy step unread) := by
  induction unread with
  | nil =>
    intro found reach
    rw [rounds]
    split
    · exact ⟨[], rfl⟩
    · exact ⟨[reach], rfl⟩
  | cons c unread ih =>
    intro found reach
    rw [rounds]
    split
    · exact ⟨[], rfl⟩
    · dsimp only
      split
      · obtain ⟨more, hmore⟩ := ih.foldl ((step reach).filter (reach.offset < ·.offset)) found
        exact ⟨reach :: more, congrArg (reach :: ·) hmore⟩
      · obtain ⟨more, hmore⟩ :=
          ih.foldl ((step reach).filter (reach.offset < ·.offset)) (found.add reach)
        exact ⟨more ++ [reach], by rw [hmore, Found.add, List.append_assoc]; rfl⟩

theorem distinctFrom_append (seen : OffsetSet) (first others : List Reach) : ∃ more,
    distinctFrom seen (first ++ others) = distinctFrom seen first ++ more := by
  induction first generalizing seen with
  | nil => exact ⟨_, rfl⟩
  | cons reach first ih =>
    rw [List.cons_append, distinctFrom, distinctFrom]
    split
    · exact ih seen
    · obtain ⟨more, hmore⟩ := ih (seen.add reach.offset)
      exact ⟨more, by rw [hmore, List.cons_append]⟩

theorem ends_append (p : Pattern) (first others : List Reach) :
    ∃ more, p.ends (first ++ others) = p.ends first ++ more := by
  induction p generalizing first others with
  | empty => exact ⟨others, rfl⟩
  | char | word => exact ⟨_, List.filterMap_append⟩
  | boundary | lineStart | textStart | textEnd => exact ⟨_, List.filter_append _ _⟩
  | seq p q ihp ihq =>
    obtain ⟨more, hmore⟩ := ihp first others
    obtain ⟨more', hmore'⟩ := ihq (p.ends first) more
    exact ⟨more', by rw [ends, hmore, hmore', ends]⟩
  | alt p q _ _ =>
    obtain ⟨more, hmore⟩ := distinctFrom_append .empty
      (first.flatMap fun reach => p.ends [reach] ++ q.ends [reach])
      (others.flatMap fun reach => p.ends [reach] ++ q.ends [reach])
    exact ⟨more, by rw [ends, List.flatMap_append, distinct, hmore, ends, distinct]⟩
  | star greedy p _ =>
    have hadds : Adds fun found reach =>
        rounds greedy (fun reach => p.ends [reach]) reach.cursor.rest found reach :=
      fun found reach => adds_rounds _ _ _ found reach
    exact hadds.toList_foldl_append first others
  | run greedy test => exact (adds_addRun greedy test).toList_foldl_append first others
  | part label p ih =>
    obtain ⟨more, hmore⟩ := ih (first.map (Reach.enter label)) (others.map (Reach.enter label))
    exact ⟨more.map Reach.leave, by rw [ends, List.map_append, hmore, List.map_append, ends]⟩

/-! ### The best end, part by part -/

/-- The best end from a place. -/
def Prefers (p : Pattern) (reach stop : Reach) : Prop := (p.ends [reach]).head? = some stop

variable {p q : Pattern} {r s t : Reach}

theorem Prefers.seq (h : p.Prefers r s) (k : q.Prefers s t) : (p ++ q).Prefers r t := by
  obtain ⟨others, hp⟩ := List.head?_eq_some_iff.mp h
  obtain ⟨more, hq⟩ := q.ends_append [s] others
  show (q.ends (p.ends [r])).head? = some t
  rw [hp, show s :: others = [s] ++ others from rfl, hq, List.head?_append, k, Option.some_or]

theorem Prefers.part {label : Part} (h : p.Prefers (r.enter label) s) :
    (Pattern.part label p).Prefers r s.leave := by
  show ((p.ends [r.enter label]).map Reach.leave).head? = some s.leave
  rw [List.head?_map, h, Option.map_some]

theorem Prefers.passing {reach : Reach} {label : Part} {text rest : List Char}
    (h : p.Prefers (reach.enter label) ((reach.enter label).after text rest)) :
    (Pattern.part label p).Prefers reach (reach.passing label text rest) := h.part

theorem Prefers.altLeft (h : p.Prefers r s) : (Pattern.alt p q).Prefers r s := by
  rw [Prefers, ends_alt, head?_distinct, List.head?_append, h, Option.some_or]

theorem Prefers.altRight (hp : p.ends [r] = []) (h : q.Prefers r s) :
    (Pattern.alt p q).Prefers r s := by
  rw [Prefers, ends_alt, head?_distinct, hp, List.nil_append]
  exact h

theorem prefers_optional_of_nil (h : p.ends [r] = []) : (optional p).Prefers r r :=
  Prefers.altRight h rfl

theorem Prefers.optional (h : p.Prefers r s) : (optional p).Prefers r s := h.altLeft

/-- Rounds of a repetition, each the best one, up to where no other begins. -/
inductive Rounds (p : Pattern) : Reach → Reach → Prop
  | stop {r : Reach} (h : p.ends [r] = []) : Rounds p r r
  | round {r s t : Reach} (h : p.Prefers r s) (hlt : r.offset < s.offset) (hmore : Rounds p s t) :
      Rounds p r t

/-- A greedy repetition finds the end of the best rounds first, if it may go round often enough. -/
theorem Rounds.head?_rounds (h : Rounds p r t) {unread : List Char}
    (hle : r.cursor.rest.length ≤ unread.length) :
    (rounds true (fun reach => p.ends [reach]) unread .none r).toList.head? = some t := by
  induction h generalizing unread with
  | @stop r h =>
    have hfresh : Found.none.has r = false := OffsetSet.has_empty r.offset
    cases unread with
    | nil =>
      rw [rounds, hfresh]
      rfl
    | cons c unread =>
      rw [rounds, hfresh, h]
      rfl
  | @round r s t h hlt _ ih =>
    obtain ⟨others, hp⟩ := List.head?_eq_some_iff.mp h
    -- The round that leads on reads something, so there is a round to go.
    obtain ⟨c, unread, rfl, hshort⟩ : ∃ c more, unread = c :: more ∧
        s.cursor.rest.length ≤ more.length := by
      obtain ⟨r', hr', ms, hm, -⟩ := extends_of_mem_ends (List.mem_of_head? h)
      rw [List.mem_singleton.mp hr'] at hm
      obtain ⟨text, hrest, hoffset⟩ := hm.reads
      cases text with
      | nil =>
        rw [Text.width_nil, Nat.add_zero] at hoffset
        exact absurd hoffset (Nat.ne_of_gt hlt)
      | cons c text =>
        rw [hrest, List.length_append, List.length_cons] at hle
        cases unread with
        | nil => exact absurd hle (by simp)
        | cons d unread =>
          rw [List.length_cons] at hle
          exact ⟨d, unread, rfl, by omega⟩
    have hfilter : (p.ends [r]).filter (r.offset < ·.offset) =
        s :: others.filter (r.offset < ·.offset) := by
      rw [hp, List.filter_cons_of_pos (by simpa using hlt)]
    obtain ⟨more, hmore⟩ := (adds_rounds true (fun reach => p.ends [reach]) unread).foldl
      (others.filter (r.offset < ·.offset)) (rounds true (fun reach => p.ends [reach]) unread .none s)
    have hfresh : Found.none.has r = false := OffsetSet.has_empty r.offset
    have hfirst := ih hshort
    rw [Found.toList, List.head?_reverse] at hfirst
    rw [rounds, hfresh]
    dsimp only
    rw [hfilter, List.foldl_cons, Found.toList, List.head?_reverse]
    show (_ :: Found.reaches _).getLast? = some t
    rw [hmore, ← List.cons_append, List.getLast?_append, hfirst, Option.some_or]

/-- A repetition goes round as long as it can. -/
theorem Rounds.prefers (h : Rounds p r t) : (many p).Prefers r t :=
  h.head?_rounds (Nat.le_refl _)

theorem prefers_many_of_nil (h : p.ends [r] = []) : (many p).Prefers r r := (Rounds.stop h).prefers

/-- A repetition goes round once where it can begin once. -/
theorem Prefers.many_once (h : p.Prefers r s) (hlt : r.offset < s.offset)
    (hs : p.ends [s] = []) : (many p).Prefers r s := (Rounds.round h hlt (.stop hs)).prefers

/-! #### What reads characters -/

theorem prefers_boundary {reach : Reach} (h : atBoundary reach.cursor = true) :
    Pattern.boundary.Prefers reach reach := by
  have hends : Pattern.boundary.ends [reach] = [reach] := by simp [ends, h]
  rw [Prefers, hends]
  rfl

theorem prefers_char {test : Char → Bool} (reach : Reach) {c : Char} {rest : List Char}
    (hr : reach.cursor.rest = c :: rest) (hc : test c = true) :
    (Pattern.char test).Prefers reach (reach.after [c] rest) := by
  rw [Prefers, ends_char reach hr hc]
  rfl

theorem prefers_run (reach : Reach) {test : Char → Bool} {text rest : List Char}
    (hr : reach.cursor.rest = text ++ rest) (h : ∀ c ∈ text, test c = true)
    (hstop : ∀ c, rest.head? = some c → test c = false) :
    (Pattern.run true test).Prefers reach (reach.after text rest) :=
  head?_ends_run reach hr h hstop

theorem prefers_run1 (reach : Reach) {test : Char → Bool} {text rest : List Char}
    (hne : text ≠ []) (hr : reach.cursor.rest = text ++ rest) (h : ∀ c ∈ text, test c = true)
    (hstop : ∀ c, rest.head? = some c → test c = false) :
    (run1 test).Prefers reach (reach.after text rest) := by
  cases text with
  | nil => exact absurd rfl hne
  | cons c text =>
    have hmore := prefers_run (reach.after [c] (text ++ rest)) rfl
      (fun d hd => h d (List.mem_cons_of_mem c hd)) hstop
    rw [Reach.after_after] at hmore
    exact (prefers_char reach hr (h c List.mem_cons_self)).seq hmore

theorem prefers_lit (reach : Reach) {word : String} {rest : List Char}
    (hr : reach.cursor.rest = word.toList ++ rest) :
    (lit word).Prefers reach (reach.after word.toList rest) := by
  rw [Prefers, ends_lit, Reach.afterWord?, Text.dropLead?_eq_some_iff.mpr hr]
  rfl

theorem ends_lit_eq_nil {word : String} {reach : Reach}
    (h : Text.dropLead? word.toList reach.cursor.rest = none) : (lit word).ends [reach] = [] := by
  rw [ends_lit, Reach.afterWord?, h]
  rfl

/-- The first of some words that can be read is. -/
theorem prefers_oneOf (before : List String) {after : List String} {word : String} (reach : Reach)
    {rest : List Char} (hb : ∀ other ∈ before, (lit other).ends [reach] = [])
    (hr : reach.cursor.rest = word.toList ++ rest) :
    (oneOf (before ++ word :: after)).Prefers reach (reach.after word.toList rest) := by
  induction before with
  | nil =>
    cases after with
    | nil => exact prefers_lit reach hr
    | cons next after => exact (prefers_lit reach hr).altLeft
  | cons other before ih =>
    have hmore := ih fun w hw => hb w (List.mem_cons_of_mem other hw)
    obtain ⟨next, more, hcons⟩ : ∃ next more, before ++ word :: after = next :: more := by
      cases before <;> exact ⟨_, _, rfl⟩
    rw [List.cons_append, hcons]
    rw [hcons] at hmore
    exact Prefers.altRight (hb other List.mem_cons_self) hmore

/-- The match that the best end from a place makes. -/
theorem Prefers.exists_match {previous : Option Char} {text read : List Char} {stop : Reach}
    (h : p.Prefers (.start ⟨previous, 0, text⟩) stop)
    (hread : (⟨previous, 0, text⟩ : Cursor).Reads read stop.cursor) (offset : Nat) :
    ∃ found, p.matchAt ⟨previous, offset, text⟩ = some found ∧ found.start = offset ∧
      found.stop = offset + Text.width read ∧
      ∀ label, found.part? label =
        (latest label stop.marks).map fun mark => mark.start.capture offset mark.stop := by
  refine ⟨_, matchAt_of_head? h, rfl, ?_, Match.part?_ofMarks _ _ _ _⟩
  show (Match.ofMarks offset ⟨previous, 0, text⟩ stop.cursor stop.marks).stop = _
  rw [Match.stop, Match.ofMarks, hread.capture_eq]
  rfl

end Pattern
end Outline
