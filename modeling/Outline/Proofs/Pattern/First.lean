import Outline.Proofs.Pattern.Complete

/-!
# Where a pattern starts

A search for a simple pattern finds the first place of a text from which on there
is a way to match, and the match that it finds can be read apart.
-/

namespace Outline
namespace Pattern

/-- Whether a pattern never looks back. -/
def simple : Pattern → Bool
  | .seq p q | .alt p q => p.simple && q.simple
  | .star _ p | .part _ p => p.simple
  | .boundary | .lineStart | .textStart => false
  | _ => true

theorem Matches.leaves {p : Pattern} {c d : Cursor} {ms : List Mark} (h : Matches p c d ms)
    (hp : p.simple = true) : p.Leaves c.rest d.rest := by
  induction h with
  | empty => rfl
  | char h => exact ⟨_, h, rfl⟩
  | word => rfl
  | seq _ _ ihp ihq =>
    obtain ⟨hp, hq⟩ := Bool.and_eq_true_iff.mp hp
    exact ⟨_, ihp hp, ihq hq⟩
  | altLeft _ _ ih => exact .inl (ih (Bool.and_eq_true_iff.mp hp).1)
  | altRight _ _ ih => exact .inr (ih (Bool.and_eq_true_iff.mp hp).2)
  | runNil => exact ⟨[], rfl, nofun⟩
  | runCons head _ _ ih =>
    obtain ⟨w, hw, hall⟩ := ih rfl
    cases head with
    | char h => exact ⟨_ :: w, congrArg _ hw, by simpa [h] using hall⟩
  | part _ _ ih => exact ih hp
  | @textEnd c h =>
    have hnil : c.rest = [] := List.isEmpty_iff.mp h
    exact ⟨hnil, hnil⟩
  | starNil => exact .refl
  | starCons _ _ ihp ihq => exact .head (ihp hp) (ihq hp)
  | boundary | lineStart | textStart => exact absurd hp (by simp [simple])

theorem starts_of_matchAt {p : Pattern} (hp : p.simple = true) {cursor : Cursor} {found : Match}
    (h : p.matchAt cursor = some found) : p.Starts cursor.rest := by
  obtain ⟨d, ms, hm, -⟩ := exists_of_matchAt h
  exact ⟨d.rest, hm.leaves hp⟩

/-- Where it is not matched, it is not matched at other places with the same text after them. -/
theorem matchAt_none_of_rest {p : Pattern} (hp : p.simple = true) {c d : Cursor}
    (h : p.matchAt c = none) (hrest : d.rest = c.rest) : p.matchAt d = none := by
  cases hm : p.matchAt d with
  | none => rfl
  | some found =>
    have hsome := isSome_matchAt c (hrest ▸ starts_of_matchAt hp hm)
    rw [h] at hsome
    cases hsome

/-- The first place of a text from which on it has a property, with what comes
before it. -/
inductive First (P : List Char → Prop) : List Char → List Char → List Char → Prop
  | here {s : List Char} (h : P s) : First P s [] s
  | later {c : Char} {s a b : List Char} (h : ¬ P (c :: s)) (k : First P s a b) :
      First P (c :: s) (c :: a) b

/-- A text without a place from which on it has a property. -/
def Nowhere (P : List Char → Prop) (s : List Char) : Prop := ∀ a b, s = a ++ b → ¬ P b

section

variable {P : List Char → Prop} {s a b a' b' : List Char}

theorem nowhere_nil (h : ¬ P []) : Nowhere P [] := by
  intro a b hab
  obtain ⟨-, rfl⟩ := List.append_eq_nil_iff.mp hab.symm
  exact h

theorem Nowhere.cons {c : Char} (h : Nowhere P s) (hc : ¬ P (c :: s)) : Nowhere P (c :: s) := by
  intro a b hab
  cases a with
  | nil => exact (show c :: s = b from hab) ▸ hc
  | cons x a => exact h a b (List.cons.inj hab).2

theorem First.eq_append (h : First P s a b) : s = a ++ b := by
  induction h with
  | here => rfl
  | later _ _ ih => rw [ih, List.cons_append]

theorem First.holds (h : First P s a b) : P b := by
  induction h with
  | here h => exact h
  | later _ _ ih => exact ih

theorem Nowhere.not_first (h : Nowhere P s) : ¬ First P s a b :=
  fun k => h a b k.eq_append k.holds

theorem First.unique (h : First P s a b) (k : First P s a' b') : a = a' ∧ b = b' := by
  induction h generalizing a' with
  | here h =>
    cases k with
    | here => exact ⟨rfl, rfl⟩
    | later hnot => exact absurd h hnot
  | later hnot _ ih =>
    cases k with
    | here h => exact absurd h hnot
    | later _ k =>
      obtain ⟨rfl, rfl⟩ := ih k
      exact ⟨rfl, rfl⟩

end

/-- A search from a place finds nothing, or the match at the first place where the
pattern starts. -/
theorem findFrom_cases {p : Pattern} (hp : p.simple = true) (previous : Option Char) (offset : Nat)
    (text : List Char) :
    (p.findFrom previous offset text = none ∧ Nowhere p.Starts text) ∨
      ∃ a b found previous', First p.Starts text a b ∧
        p.findFrom previous offset text = some found ∧
        p.matchAt ⟨previous', offset + Text.width a, b⟩ = some found := by
  induction text generalizing previous offset with
  | nil =>
    cases hm : p.matchAt ⟨previous, offset, []⟩ with
    | none =>
      refine .inl ⟨hm, nowhere_nil fun hstarts => ?_⟩
      have hsome := isSome_matchAt ⟨previous, offset, []⟩ hstarts
      simp [hm] at hsome
    | some found =>
      exact .inr ⟨[], [], found, previous, .here (starts_of_matchAt hp hm), hm, hm⟩
  | cons c text ih =>
    rw [findFrom]
    cases hm : p.matchAt ⟨previous, offset, c :: text⟩ with
    | some found =>
      exact .inr ⟨[], c :: text, found, previous, .here (starts_of_matchAt hp hm), rfl, hm⟩
    | none =>
      have hnot : ¬ p.Starts (c :: text) := fun hstarts => by
        have hsome := isSome_matchAt ⟨previous, offset, c :: text⟩ hstarts
        simp [hm] at hsome
      rcases ih (some c) (offset + c.utf8Size) with ⟨hnone, hall⟩ |
        ⟨a, b, found, previous', hfirst, hfound, hat⟩
      · exact .inl ⟨hnone, hall.cons hnot⟩
      · refine .inr ⟨c :: a, b, found, previous', .later hnot hfirst, hfound, ?_⟩
        rw [Text.width_cons, ← Nat.add_assoc]
        exact hat

theorem find?_of_nowhere {p : Pattern} (hp : p.simple = true) {text : List Char}
    (h : Nowhere p.Starts text) : p.find? text = none := by
  rcases findFrom_cases hp none 0 text with ⟨hnone, -⟩ | ⟨a, b, found, previous, hfirst, -⟩
  · exact hnone
  · exact absurd hfirst h.not_first

theorem find?_of_first {p : Pattern} (hp : p.simple = true) {text a b : List Char}
    (h : First p.Starts text a b) : ∃ found previous, p.find? text = some found ∧
      p.matchAt ⟨previous, Text.width a, b⟩ = some found := by
  rcases findFrom_cases hp none 0 text with ⟨-, hno⟩ | ⟨a', b', found, previous, hfirst, hfound, hm⟩
  · exact absurd h hno.not_first
  · obtain ⟨rfl, rfl⟩ := h.unique hfirst
    rw [Nat.zero_add] at hm
    exact ⟨found, previous, hfound, hm⟩

/-! ## The best end -/

theorem head?_distinct (reaches : List Reach) : (distinct reaches).head? = reaches.head? := by
  cases reaches with
  | nil => rfl
  | cons r reaches =>
    rw [distinct, distinctFrom, if_neg (by simp [OffsetSet.has_empty])]
    rfl

theorem ends_nil (p : Pattern) : p.ends [] = [] := by
  refine List.eq_nil_iff_forall_not_mem.mpr fun x hx => ?_
  obtain ⟨r, hr, -⟩ := extends_of_mem_ends hx
  exact absurd hr List.not_mem_nil

theorem reaches_foldl_add (along : List Reach) (found : Found) :
    (along.foldl Found.add found).reaches = along.reverse ++ found.reaches := by
  induction along generalizing found with
  | nil => rfl
  | cons r along ih =>
    rw [List.foldl_cons, ih, Found.add, List.reverse_cons, List.append_assoc]
    rfl

/-- The farthest place along a run is where the test fails. -/
theorem exists_getLast?_alongRun (test : Char → Bool) (reach : Reach) (previous : Option Char)
    (offset : Nat) (rest : List Char) :
    ∃ x, (alongRun test .none reach previous offset rest).getLast? = some x ∧
      x.cursor.rest = rest.dropWhile test := by
  induction rest generalizing previous offset with
  | nil =>
    rw [alongRun, if_neg (by simp [Found.none, OffsetSet.has_empty])]
    exact ⟨_, rfl, rfl⟩
  | cons c rest ih =>
    rw [alongRun, if_neg (by simp [Found.none, OffsetSet.has_empty])]
    by_cases hc : test c = true
    · obtain ⟨x, hx, hrest⟩ := ih (some c) (offset + c.utf8Size)
      refine ⟨x, ?_, by simpa [hc] using hrest⟩
      rw [if_pos hc, List.getLast?_cons, hx]
      rfl
    · rw [if_neg hc]
      exact ⟨_, rfl, by simp [hc]⟩

/-- A greedy run prefers to read as many characters as there are. -/
theorem exists_head?_ends_run (test : Char → Bool) (r : Reach) :
    ∃ x, ((Pattern.run true test).ends [r]).head? = some x ∧
      x.cursor.rest = r.cursor.rest.dropWhile test := by
  obtain ⟨x, hx, hrest⟩ :=
    exists_getLast?_alongRun test r r.cursor.previous r.offset r.cursor.rest
  refine ⟨x, ?_, hrest⟩
  rw [ends, List.foldl_cons, List.foldl_nil, addRun, if_pos rfl, Found.toList, reaches_foldl_add,
    Found.none, List.append_nil, List.reverse_reverse, List.head?_reverse]
  exact hx

/-! ## Reading a match apart -/

section

variable {c d : Cursor} {ms : List Mark}

theorem Matches.of_seq {p q : Pattern} (h : Matches (.seq p q) c d ms) :
    ∃ e ns os, Matches p c e ns ∧ Matches q e d os ∧ ms = os ++ ns := by
  cases h with
  | seq first second => exact ⟨_, _, _, first, second, rfl⟩

theorem Matches.of_char {test : Char → Bool} (h : Matches (.char test) c d ms) :
    ∃ a, test a = true ∧ c.Reads [a] d := by
  cases h with
  | char h => exact ⟨_, h, rfl, by simp⟩

theorem Matches.of_textStart (h : Matches .textStart c d ms) : d = c ∧ c.previous = none := by
  cases h with
  | textStart h => exact ⟨rfl, Option.isNone_iff_eq_none.mp h⟩

theorem Matches.of_boundary (h : Matches .boundary c d ms) : d = c ∧ atBoundary c = true := by
  cases h with
  | boundary h => exact ⟨rfl, h⟩

theorem Matches.of_word {w : List Char} (h : Matches (.word w) c d ms) : c.Reads w d := by
  cases h with
  | word => exact ⟨rfl, rfl⟩

theorem Matches.of_run {greedy : Bool} {test : Char → Bool}
    (h : Matches (.run greedy test) c d ms) : ∃ w, (∀ a ∈ w, test a = true) ∧ c.Reads w d := by
  generalize hp : Pattern.run greedy test = p at h
  induction h with
  | runNil _ _ c => exact ⟨[], nofun, .refl c⟩
  | runCons head _ _ ih =>
    obtain ⟨a, ha, hread⟩ := head.of_char
    obtain ⟨w, hw, hrest⟩ := ih hp
    obtain ⟨-, rfl⟩ := Pattern.run.inj hp
    exact ⟨a :: w, by simpa [ha] using hw, hread.trans hrest⟩
  | _ => exact nomatch hp

theorem Matches.of_part {label : Part} {p : Pattern} (h : Matches (.part label p) c d ms) :
    ∃ ns, Matches p c d ns ∧ ms = ⟨label, c, d.offset⟩ :: ns := by
  cases h with
  | part _ h => exact ⟨_, h, rfl⟩

theorem Matches.of_star {greedy : Bool} {p : Pattern} (h : Matches (.star greedy p) c d ms) :
    c = d ∨ ∃ e ns os, Matches p c e ns ∧ Matches (.star greedy p) e d os := by
  cases h with
  | starNil => exact .inl rfl
  | starCons round more => exact .inr ⟨_, _, _, round, more⟩

theorem Matches.of_optional {p : Pattern} (h : Matches (optional p) c d ms) :
    Matches p c d ms ∨ d = c := by
  cases h with
  | altLeft _ h => exact .inl h
  | altRight _ h =>
    cases h
    exact .inr rfl

theorem Matches.of_oneOf {words : List String} (h : Matches (oneOf words) c d ms) :
    ∃ word ∈ words, c.Reads word.toList d := by
  induction words with
  | nil =>
    obtain ⟨a, ha, -⟩ := Matches.of_char h
    exact nomatch ha
  | cons word words ih =>
    cases words with
    | nil => exact ⟨word, List.mem_cons_self, Matches.of_word h⟩
    | cons next words =>
      cases h with
      | altLeft _ h => exact ⟨word, List.mem_cons_self, Matches.of_word h⟩
      | altRight _ h =>
        obtain ⟨other, hmem, hread⟩ := ih h
        exact ⟨other, List.mem_cons_of_mem word hmem, hread⟩

/-- Behind what a match reads stands its last character. -/
theorem Matches.previous_eq {p : Pattern} (h : Matches p c d ms) {text : List Char}
    (hread : c.Reads text d) : d.previous = text.getLast?.or c.previous := by
  suffices hall : ∃ read, c.Reads read d ∧ d.previous = read.getLast?.or c.previous by
    obtain ⟨read, hread', heq⟩ := hall
    rwa [List.append_cancel_right (hread.1.symm.trans hread'.1)]
  clear hread
  induction h with
  | @char _ _ _ a _ _ => exact ⟨[a], ⟨rfl, by simp⟩, rfl⟩
  | word text => exact ⟨text, ⟨rfl, rfl⟩, rfl⟩
  | seq _ _ ihp ihq | starCons _ _ ihp ihq | runCons _ _ ihp ihq =>
    obtain ⟨s, hs, hprevious⟩ := ihp
    obtain ⟨t, ht, heq⟩ := ihq
    refine ⟨s ++ t, hs.trans ht, ?_⟩
    rw [heq, hprevious, List.getLast?_append, Option.or_assoc]
  | altLeft _ _ ih | altRight _ _ ih | part _ _ ih => exact ih
  | _ => exact ⟨[], .refl _, rfl⟩

/-- What a match reads starts with a character that its pattern does not avoid. -/
theorem Matches.exists_head {p : Pattern} (h : Matches p c d ms) (hp : p.consumes = true) :
    ∃ a, c.rest.head? = some a ∧ ∀ bad, p.avoids bad = true → a ≠ bad := by
  obtain ⟨text, hread⟩ := h.reads
  cases text with
  | nil => exact absurd rfl (h.ne_nil hp hread)
  | cons a text =>
    refine ⟨a, by rw [hread.1]; rfl, fun bad hbad heq => ?_⟩
    obtain ⟨other, hother, hne⟩ := h.head?_ne hbad
    cases other with
    | nil => exact absurd rfl (h.ne_nil hp hother)
    | cons b other =>
      obtain ⟨rfl, -⟩ := List.cons.inj (hread.1.symm.trans hother.1)
      exact hne (heq ▸ rfl)

end

end Pattern
end Outline
