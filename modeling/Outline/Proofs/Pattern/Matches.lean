import Outline.Pattern.Search
import Outline.Proofs.Text.Boundary

/-!
# What it means for a pattern to match

`Matches p c d ms` says that `p` matches the text from the place `c` to the place
`d` and leaves the marks `ms`, the latest first.  It is the meaning of a pattern
without the order in which the search prefers its ends, and everything the search
finds is a match in this sense.
-/

namespace Outline
namespace Pattern

inductive Matches : Pattern → Cursor → Cursor → List Mark → Prop
  | empty (c : Cursor) : Matches .empty c c []
  | char {test : Char → Bool} {previous : Option Char} {offset : Nat} {a : Char} {rest : List Char}
      (h : test a = true) :
      Matches (.char test) ⟨previous, offset, a :: rest⟩ ⟨some a, offset + a.utf8Size, rest⟩ []
  | word (text : List Char) (previous : Option Char) (offset : Nat) (rest : List Char) :
      Matches (.word text) ⟨previous, offset, text ++ rest⟩
        ⟨text.getLast?.or previous, offset + Text.width text, rest⟩ []
  | seq {p q : Pattern} {c d e : Cursor} {ms ns : List Mark}
      (first : Matches p c d ms) (second : Matches q d e ns) : Matches (.seq p q) c e (ns ++ ms)
  | altLeft {p : Pattern} (q : Pattern) {c d : Cursor} {ms : List Mark} (h : Matches p c d ms) :
      Matches (.alt p q) c d ms
  | altRight (p : Pattern) {q : Pattern} {c d : Cursor} {ms : List Mark} (h : Matches q c d ms) :
      Matches (.alt p q) c d ms
  | starNil (greedy : Bool) (p : Pattern) (c : Cursor) : Matches (.star greedy p) c c []
  | starCons {greedy : Bool} {p : Pattern} {c d e : Cursor} {ms ns : List Mark}
      (round : Matches p c d ms) (more : Matches (.star greedy p) d e ns) :
      Matches (.star greedy p) c e (ns ++ ms)
  | runNil (greedy : Bool) (test : Char → Bool) (c : Cursor) : Matches (.run greedy test) c c []
  | runCons {greedy : Bool} {test : Char → Bool} {c d e : Cursor} {ms ns : List Mark}
      (head : Matches (.char test) c d ms) (more : Matches (.run greedy test) d e ns) :
      Matches (.run greedy test) c e (ns ++ ms)
  | part (label : Part) {p : Pattern} {c d : Cursor} {ms : List Mark} (h : Matches p c d ms) :
      Matches (.part label p) c d (⟨label, c, d.offset⟩ :: ms)
  | boundary {c : Cursor} (h : atBoundary c = true) : Matches .boundary c c []
  | lineStart {c : Cursor} (h : c.previous.all (· == '\n') = true) : Matches .lineStart c c []
  | textStart {c : Cursor} (h : c.previous.isNone = true) : Matches .textStart c c []
  | textEnd {c : Cursor} (h : c.rest.isEmpty = true) : Matches .textEnd c c []

/-- The second place is reached from the first by a match, whose marks it adds
to those of the first. -/
def Extends (p : Pattern) (r s : Reach) : Prop :=
  ∃ ms, Matches p r.cursor s.cursor ms ∧ s.entered = r.entered ∧ s.marks = ms ++ r.marks

theorem Extends.of_matches_nil {p : Pattern} {r : Reach} {d : Cursor}
    (h : Matches p r.cursor d []) : Extends p r { r with cursor := d } :=
  ⟨[], h, rfl, rfl⟩

theorem Extends.seq {p q : Pattern} {r s t : Reach} (h : Extends p r s) (k : Extends q s t) :
    Extends (.seq p q) r t := by
  obtain ⟨ms, hm, he, hms⟩ := h
  obtain ⟨ns, hn, ke, hns⟩ := k
  exact ⟨ns ++ ms, hm.seq hn, ke.trans he, by rw [hns, hms, List.append_assoc]⟩

theorem Extends.starCons {greedy : Bool} {p : Pattern} {r s t : Reach} (h : Extends p r s)
    (k : Extends (.star greedy p) s t) : Extends (.star greedy p) r t := by
  obtain ⟨ms, hm, he, hms⟩ := h
  obtain ⟨ns, hn, ke, hns⟩ := k
  exact ⟨ns ++ ms, hm.starCons hn, ke.trans he, by rw [hns, hms, List.append_assoc]⟩

/-! ## Ends are matches -/

theorem mem_of_mem_distinctFrom {x : Reach} {seen : OffsetSet} {reaches : List Reach}
    (h : x ∈ distinctFrom seen reaches) : x ∈ reaches := by
  induction reaches generalizing seen with
  | nil => simp [distinctFrom] at h
  | cons r rest ih =>
    rw [distinctFrom] at h
    split at h
    · exact List.mem_cons_of_mem r (ih h)
    · rcases List.mem_cons.mp h with rfl | h
      · exact List.mem_cons_self
      · exact List.mem_cons_of_mem r (ih h)

/-- A fold of searches finds what was there before and what one of the searches
finds. -/
theorem mem_reaches_foldl {S : Reach → Reach → Prop} {f : Found → Reach → Found} {x : Reach}
    {reaches : List Reach}
    (hf : ∀ found, ∀ r ∈ reaches, x ∈ (f found r).reaches → x ∈ found.reaches ∨ S r x)
    {found : Found} (h : x ∈ (reaches.foldl f found).reaches) :
    x ∈ found.reaches ∨ ∃ r ∈ reaches, S r x := by
  induction reaches generalizing found with
  | nil => exact Or.inl h
  | cons r rest ih =>
    have hrest : ∀ found, ∀ s ∈ rest, x ∈ (f found s).reaches → x ∈ found.reaches ∨ S s x :=
      fun found s hs => hf found s (List.mem_cons_of_mem r hs)
    rcases ih hrest h with h | ⟨s, hs, hx⟩
    · rcases hf found r List.mem_cons_self h with h | h
      · exact Or.inl h
      · exact Or.inr ⟨r, List.mem_cons_self, h⟩
    · exact Or.inr ⟨s, List.mem_cons_of_mem r hs, hx⟩

/-- What the rounds of a repetition add is reached by going round. -/
theorem mem_reaches_rounds {greedy : Bool} {step : Reach → List Reach} {S : Reach → Reach → Prop}
    (hrefl : ∀ r, S r r) (hstep : ∀ r s x, s ∈ step r → S s x → S r x) (unread : List Char)
    {found : Found} {reach x : Reach} (h : x ∈ (rounds greedy step unread found reach).reaches) :
    x ∈ found.reaches ∨ S reach x := by
  induction unread generalizing found reach with
  | nil =>
    rw [rounds] at h
    split at h
    · exact Or.inl h
    · rcases List.mem_cons.mp h with rfl | h
      · exact Or.inr (hrefl x)
      · exact Or.inl h
  | cons c unread ih =>
    have hround : ∀ found, ∀ s ∈ (step reach).filter (reach.offset < ·.offset),
        x ∈ (rounds greedy step unread found s).reaches → x ∈ found.reaches ∨ S reach x := by
      intro found s hs hx
      rcases ih hx with hx | hx
      · exact Or.inl hx
      · exact Or.inr (hstep reach s x ((List.mem_filter.mp hs).1) hx)
    have hfold : ∀ found,
        x ∈ (((step reach).filter (reach.offset < ·.offset)).foldl (rounds greedy step unread)
          found).reaches → x ∈ found.reaches ∨ S reach x := by
      intro found hx
      rcases mem_reaches_foldl (S := fun _ x => S reach x) hround hx with hx | ⟨_, _, hx⟩
      · exact Or.inl hx
      · exact Or.inr hx
    rw [rounds] at h
    split at h
    · exact Or.inl h
    · dsimp only at h
      split at h
      · rcases List.mem_cons.mp h with rfl | h
        · exact Or.inr (hrefl x)
        · exact hfold found h
      · rcases hfold _ h with h | h
        · rcases List.mem_cons.mp h with rfl | h
          · exact Or.inr (hrefl x)
          · exact Or.inl h
        · exact Or.inr h

theorem extends_of_mem_alongRun {greedy : Bool} {test : Char → Bool} {found : Found}
    {reach x : Reach} {previous : Option Char} {offset : Nat} {rest : List Char}
    (h : x ∈ alongRun test found reach previous offset rest) :
    Extends (.run greedy test) { reach with cursor := ⟨previous, offset, rest⟩ } x := by
  induction rest generalizing previous offset with
  | nil =>
    rw [alongRun] at h
    split at h
    · simp at h
    · rw [List.mem_singleton] at h
      exact h ▸ ⟨[], .runNil _ _ _, rfl, rfl⟩
  | cons a rest ih =>
    rw [alongRun] at h
    split at h
    · simp at h
    · rcases List.mem_cons.mp h with rfl | h
      · exact ⟨[], .runNil _ _ _, rfl, rfl⟩
      · split at h
        · next ht =>
          obtain ⟨ms, hm, he, hms⟩ := ih h
          exact ⟨ms ++ [], .runCons (.char ht) hm, he, by rw [List.append_nil]; exact hms⟩
        · simp at h

theorem mem_reaches_foldl_add {x : Reach} {along : List Reach} {found : Found}
    (h : x ∈ (along.foldl Found.add found).reaches) : x ∈ found.reaches ∨ x ∈ along := by
  induction along generalizing found with
  | nil => exact Or.inl h
  | cons r rest ih =>
    rcases ih h with h | h
    · rcases List.mem_cons.mp h with rfl | h
      · exact Or.inr List.mem_cons_self
      · exact Or.inl h
    · exact Or.inr (List.mem_cons_of_mem r h)

theorem mem_reaches_addRun {greedy : Bool} {test : Char → Bool} {found : Found} {reach x : Reach}
    (h : x ∈ (addRun greedy test found reach).reaches) :
    x ∈ found.reaches ∨ Extends (.run greedy test) reach x := by
  rw [addRun] at h
  rcases mem_reaches_foldl_add h with h | h
  · exact Or.inl h
  · refine Or.inr (@extends_of_mem_alongRun greedy test found reach _ _ _ _ ?_)
    split at h
    · exact List.mem_reverse.mp h
    · exact h

/-- Everything that the search reaches from some places is matched from one of
them. -/
theorem extends_of_mem_ends {p : Pattern} {reaches : List Reach} {x : Reach}
    (h : x ∈ p.ends reaches) : ∃ r ∈ reaches, Extends p r x := by
  induction p generalizing reaches x with
  | empty => exact ⟨x, h, [], .empty _, rfl, rfl⟩
  | char test =>
    rw [ends, List.mem_filterMap] at h
    obtain ⟨r, hr, hx⟩ := h
    obtain ⟨⟨previous, offset, rest⟩, entered, marks⟩ := r
    refine ⟨_, hr, ?_⟩
    rw [Reach.afterChar?] at hx
    cases rest with
    | nil => simp at hx
    | cons a rest =>
      by_cases ht : test a = true
      · simp only [ht, if_true, Option.some.injEq] at hx
        exact hx ▸ .of_matches_nil (.char ht)
      · simp [ht] at hx
  | word text =>
    rw [ends, List.mem_filterMap] at h
    obtain ⟨r, hr, hx⟩ := h
    obtain ⟨⟨previous, offset, rest⟩, entered, marks⟩ := r
    refine ⟨_, hr, ?_⟩
    rw [Reach.afterWord?, Option.map_eq_some_iff] at hx
    obtain ⟨after, hd, hx⟩ := hx
    rw [Text.dropLead?_eq_some_iff] at hd
    dsimp only at hd
    subst hd
    exact hx ▸ .of_matches_nil (.word text previous offset after)
  | seq p q ihp ihq =>
    rw [ends] at h
    obtain ⟨s, hs, hq⟩ := ihq h
    obtain ⟨r, hr, hp⟩ := ihp hs
    exact ⟨r, hr, hp.seq hq⟩
  | alt p q ihp ihq =>
    rw [ends, distinct] at h
    obtain ⟨r, hr, hx⟩ := List.mem_flatMap.mp (mem_of_mem_distinctFrom h)
    refine ⟨r, hr, ?_⟩
    rcases List.mem_append.mp hx with hx | hx
    · obtain ⟨s, hs, ms, hm, he⟩ := ihp hx
      rw [List.mem_singleton.mp hs] at hm he
      exact ⟨ms, .altLeft q hm, he⟩
    · obtain ⟨s, hs, ms, hm, he⟩ := ihq hx
      rw [List.mem_singleton.mp hs] at hm he
      exact ⟨ms, .altRight p hm, he⟩
  | star greedy p ih =>
    rw [ends, Found.toList, List.mem_reverse] at h
    have hstep : ∀ r s x, s ∈ p.ends [r] → Extends (.star greedy p) s x →
        Extends (.star greedy p) r x := by
      intro r s x hs hx
      obtain ⟨r', hr', hp⟩ := ih hs
      rw [List.mem_singleton.mp hr'] at hp
      exact hp.starCons hx
    rcases mem_reaches_foldl (S := Extends (.star greedy p)) (fun _ r _ hx =>
        mem_reaches_rounds (fun r => ⟨[], .starNil _ _ _, rfl, rfl⟩) hstep r.cursor.rest hx) h
      with h | h
    · simp [Found.none] at h
    · exact h
  | run greedy test =>
    rw [ends, Found.toList, List.mem_reverse] at h
    rcases mem_reaches_foldl (S := Extends (.run greedy test))
        (fun _ _ _ hx => mem_reaches_addRun hx) h with h | h
    · simp [Found.none] at h
    · exact h
  | part label p ih =>
    rw [ends, List.mem_map] at h
    obtain ⟨s, hs, rfl⟩ := h
    obtain ⟨r', hr', ms, hm, he, hms⟩ := ih hs
    obtain ⟨r, hr, rfl⟩ := List.mem_map.mp hr'
    refine ⟨r, hr, ⟨label, r.cursor, s.cursor.offset⟩ :: ms, ?_⟩
    obtain ⟨cursor, entered, marks⟩ := s
    dsimp only [Reach.enter] at hm he hms
    subst he
    exact ⟨.part label hm, rfl, by rw [Reach.leave, hms]; rfl⟩
  | boundary =>
    rw [ends, List.mem_filter] at h
    exact ⟨x, h.1, [], .boundary h.2, rfl, rfl⟩
  | lineStart =>
    rw [ends, List.mem_filter] at h
    exact ⟨x, h.1, [], .lineStart h.2, rfl, rfl⟩
  | textStart =>
    rw [ends, List.mem_filter] at h
    exact ⟨x, h.1, [], .textStart h.2, rfl, rfl⟩
  | textEnd =>
    rw [ends, List.mem_filter] at h
    exact ⟨x, h.1, [], .textEnd h.2, rfl, rfl⟩

end Pattern
end Outline
