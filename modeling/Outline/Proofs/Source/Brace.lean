import Outline.Proofs.Source.Blanking
import Outline.Proofs.Source.Delimiter
import Outline.Source.Brace

/-!
# Two ways to pair braces

The index of braces counts every brace of a text.  The matcher skips what looks
like quoted text or a comment and counts the braces that are left.  A brace is
paired alike by both exactly when the skipped braces do not move the place where
the count comes back to zero.
-/

namespace Outline

/-! ## Counting every brace -/

namespace Brace

/-- Where `depth` open braces are closed when every brace counts.  The text starts
at `offset`. -/
def closeFrom : Nat → Nat → List Char → Option Nat
  | _, _, [] => none
  | depth, offset, c :: rest =>
    if c = '\x7b' then closeFrom (depth + 1) (offset + 1) rest
    else if c = '\x7d' then
      if depth ≤ 1 then some offset else closeFrom (depth - 1) (offset + 1) rest
    else closeFrom depth (offset + c.utf8Size) rest

/-- Where the brace at an offset is closed when every brace counts. -/
def close? (text : List Char) (offset : Nat) : Option Nat :=
  closeFrom 0 offset (Text.suffixAt text offset)

theorem closeFrom_open (depth offset : Nat) (rest : List Char) :
    closeFrom depth offset ('\x7b' :: rest) = closeFrom (depth + 1) (offset + 1) rest := rfl

theorem closeFrom_close (depth offset : Nat) (rest : List Char) :
    closeFrom depth offset ('\x7d' :: rest) =
      if depth ≤ 1 then some offset else closeFrom (depth - 1) (offset + 1) rest := rfl

theorem closeFrom_other {c : Char} (ho : c ≠ '\x7b') (hc : c ≠ '\x7d') (depth offset : Nat)
    (rest : List Char) :
    closeFrom depth offset (c :: rest) = closeFrom depth (offset + c.utf8Size) rest := by
  rw [closeFrom, if_neg ho, if_neg hc]

/-- A count that comes to zero does so inside of the text. -/
theorem closeFrom_bounds {depth offset close : Nat} {text : List Char}
    (h : closeFrom depth offset text = some close) :
    offset ≤ close ∧ close < offset + Text.width text := by
  induction text generalizing depth offset with
  | nil => simp [closeFrom] at h
  | cons c rest ih =>
    have hpos := Char.utf8Size_pos c
    rw [Text.width_cons]
    by_cases ho : c = '\x7b'
    · subst ho
      have hsize : ('\x7b' : Char).utf8Size = 1 := rfl
      have hb := ih h
      omega
    · by_cases hc : c = '\x7d'
      · subst hc
        have hsize : ('\x7d' : Char).utf8Size = 1 := rfl
        rw [closeFrom_close] at h
        split at h
        · cases h
          omega
        · have hb := ih h
          omega
      · rw [closeFrom_other ho hc] at h
        have hb := ih h
        omega

theorem closeFrom_blank (c : Char) (depth offset : Nat) (rest : List Char) :
    closeFrom depth offset (Mask.blank c ++ rest) = closeFrom depth (offset + c.utf8Size) rest := by
  rw [Mask.blank]
  split
  · next hc =>
    subst hc
    rfl
  · generalize c.utf8Size = n
    induction n generalizing offset with
    | zero => rfl
    | succ n ih =>
      rw [List.replicate_succ, List.cons_append, closeFrom_other (by decide) (by decide),
        show (' ' : Char).utf8Size = 1 from rfl, ih, Nat.add_assoc, Nat.add_comm 1 n]

end Brace

/-! ## The index -/

namespace BraceIndex

/-- The open braces at an offset, read off entries that come after `stack`. -/
def stackAt (offset : Nat) (stack : List Nat) (entries : List (Nat × List Nat)) : List Nat :=
  ((entries.takeWhile (·.1 ≤ offset)).getLast?.map (·.2)).getD stack

theorem stackAt_cons (offset start : Nat) (stack inner : List Nat)
    (entries : List (Nat × List Nat)) :
    stackAt offset stack ((start, inner) :: entries) =
      if start ≤ offset then stackAt offset inner entries else stack := by
  rw [stackAt]
  by_cases h : start ≤ offset
  · rw [List.takeWhile_cons_of_pos (by simpa using h), List.getLast?_cons, if_pos h, stackAt]
    cases (entries.takeWhile (·.1 ≤ offset)).getLast? <;> rfl
  · rw [List.takeWhile_cons_of_neg (by simpa using h), if_neg h]
    rfl

/-- The open braces at `q` in a text that starts at `offset` inside of `stack`. -/
def stackFrom (q : Nat) (stack : List Nat) (offset : Nat) (text : List Char) : List Nat :=
  stackAt q stack (entriesFrom stack offset text)

section

variable (q : Nat) (stack : List Nat) (offset : Nat) (rest : List Char)

theorem enclosingChain_eq (text : List Char) :
    (ofText text).enclosingChain q = stackFrom q [] 0 text := rfl

theorem stackFrom_nil : stackFrom q stack offset [] = stack := rfl

theorem stackFrom_open :
    stackFrom q stack offset ('\x7b' :: rest) =
      if offset + 1 ≤ q then stackFrom q (offset :: stack) (offset + 1) rest else stack :=
  stackAt_cons q (offset + 1) stack (offset :: stack) _

theorem stackFrom_close_nil :
    stackFrom q [] offset ('\x7d' :: rest) = stackFrom q [] (offset + 1) rest := rfl

theorem stackFrom_close_cons (inner : Nat) :
    stackFrom q (inner :: stack) offset ('\x7d' :: rest) =
      if offset + 1 ≤ q then stackFrom q stack (offset + 1) rest else inner :: stack :=
  stackAt_cons q (offset + 1) (inner :: stack) stack _

theorem stackFrom_other {c : Char} (ho : c ≠ '\x7b') (hc : c ≠ '\x7d') :
    stackFrom q stack offset (c :: rest) = stackFrom q stack (offset + c.utf8Size) rest := by
  rw [stackFrom, stackFrom]
  cases stack with
  | nil => rw [entriesFrom, if_neg ho, if_neg hc]
  | cons inner outer => rw [entriesFrom, if_neg ho, if_neg hc]

end

/-- A brace around `q` was open already or stands in front of `q`. -/
theorem mem_stackFrom {p q offset : Nat} {stack : List Nat} {text : List Char}
    (h : p ∈ stackFrom q stack offset text) : p ∈ stack ∨ offset ≤ p ∧ p < q := by
  induction text generalizing stack offset with
  | nil => exact Or.inl h
  | cons c rest ih =>
    have hpos := Char.utf8Size_pos c
    by_cases ho : c = '\x7b'
    · subst ho
      rw [stackFrom_open] at h
      split at h
      · rcases ih h with hp | hp
        · rcases List.mem_cons.mp hp with rfl | hp
          · exact Or.inr ⟨Nat.le_refl p, by omega⟩
          · exact Or.inl hp
        · exact Or.inr ⟨by omega, hp.2⟩
      · exact Or.inl h
    · by_cases hc : c = '\x7d'
      · subst hc
        cases stack with
        | nil =>
          rw [stackFrom_close_nil] at h
          rcases ih h with hp | hp
          · exact Or.inl hp
          · exact Or.inr ⟨by omega, hp.2⟩
        | cons inner outer =>
          rw [stackFrom_close_cons] at h
          split at h
          · rcases ih h with hp | hp
            · exact Or.inl (List.mem_cons_of_mem inner hp)
            · exact Or.inr ⟨by omega, hp.2⟩
          · exact Or.inl h
      · rw [stackFrom_other q stack offset rest ho hc] at h
        rcases ih h with hp | hp
        · exact Or.inl hp
        · exact Or.inr ⟨by omega, hp.2⟩

/-- An open brace is around `q` as long as the count over it has not come to zero. -/
theorem mem_stackFrom_iff {p offset : Nat} {inner outer : List Nat} (hp : p < offset)
    (ho : p ∉ outer) (q : Nat) (text : List Char) :
    p ∈ stackFrom q (inner ++ p :: outer) offset text ↔
      ∀ close, Brace.closeFrom (inner.length + 1) offset text = some close → q ≤ close := by
  have hmem : ∀ inner, p ∈ inner ++ p :: outer := fun inner =>
    List.mem_append_right inner List.mem_cons_self
  induction text generalizing inner offset with
  | nil =>
    rw [stackFrom_nil]
    exact ⟨fun _ close h => by simp [Brace.closeFrom] at h, fun _ => hmem inner⟩
  | cons c rest ih =>
    by_cases hopen : c = '\x7b'
    · subst hopen
      rw [stackFrom_open, Brace.closeFrom_open]
      by_cases hq : offset + 1 ≤ q
      · rw [if_pos hq]
        exact @ih (offset + 1) (offset :: inner) (by omega)
      · rw [if_neg hq]
        refine ⟨fun _ close h => ?_, fun _ => hmem inner⟩
        have hb := Brace.closeFrom_bounds h
        omega
    · by_cases hclose : c = '\x7d'
      · subst hclose
        rw [Brace.closeFrom_close]
        cases inner with
        | nil =>
          have hout : p ∉ stackFrom q outer (offset + 1) rest := by
            intro h
            rcases mem_stackFrom h with h | h
            · exact ho h
            · omega
          rw [List.nil_append, stackFrom_close_cons, List.length_nil, if_pos (Nat.le_refl 1)]
          by_cases hq : offset + 1 ≤ q
          · rw [if_pos hq]
            exact ⟨fun h => absurd h hout, fun h => absurd (h offset rfl) (by omega)⟩
          · rw [if_neg hq]
            exact ⟨fun _ close h => by cases h; omega, fun _ => List.mem_cons_self⟩
        | cons x inner =>
          have hdepth : ¬ (x :: inner).length + 1 ≤ 1 := by simp
          rw [List.cons_append, stackFrom_close_cons, if_neg hdepth, List.length_cons,
            Nat.add_sub_cancel]
          by_cases hq : offset + 1 ≤ q
          · rw [if_pos hq]
            exact ih (by omega)
          · rw [if_neg hq]
            refine ⟨fun _ close h => ?_, fun _ => List.mem_cons_of_mem x (hmem inner)⟩
            have hb := Brace.closeFrom_bounds h
            omega
      · rw [stackFrom_other q _ offset rest hopen hclose, Brace.closeFrom_other hopen hclose]
        exact ih (by omega)

/-- Of a text only its open braces are left at the offsets behind it. -/
theorem exists_stackFrom_append {offset : Nat} {stack : List Nat} {before : List Char}
    (hs : ∀ x ∈ stack, x < offset) :
    ∃ stack', (∀ x ∈ stack', x < offset + Text.width before) ∧
      ∀ q rest, offset + Text.width before ≤ q → stackFrom q stack offset (before ++ rest) =
        stackFrom q stack' (offset + Text.width before) rest := by
  induction before generalizing stack offset with
  | nil => exact ⟨stack, hs, fun _ _ _ => rfl⟩
  | cons c before ih =>
    have hpos := Char.utf8Size_pos c
    rw [Text.width_cons, ← Nat.add_assoc]
    by_cases hopen : c = '\x7b'
    · subst hopen
      obtain ⟨stack', hs', heq⟩ := @ih (offset + 1) (offset :: stack) fun x hx => by
        rcases List.mem_cons.mp hx with rfl | hx
        · omega
        · have := hs x hx
          omega
      refine ⟨stack', hs', fun q rest hq => ?_⟩
      have hsize : ('\x7b' : Char).utf8Size = 1 := rfl
      rw [List.cons_append, stackFrom_open, if_pos (by omega)]
      exact heq q rest hq
    · by_cases hclose : c = '\x7d'
      · subst hclose
        have hsize : ('\x7d' : Char).utf8Size = 1 := rfl
        cases stack with
        | nil => exact @ih (offset + 1) [] nofun
        | cons inner outer =>
          obtain ⟨stack', hs', heq⟩ := @ih (offset + 1) outer fun x hx => by
            have := hs x (List.mem_cons_of_mem inner hx)
            omega
          refine ⟨stack', hs', fun q rest hq => ?_⟩
          rw [List.cons_append, stackFrom_close_cons, if_pos (by omega)]
          exact heq q rest hq
      · obtain ⟨stack', hs', heq⟩ := @ih (offset + c.utf8Size) stack fun x hx => by
          have := hs x hx
          omega
        refine ⟨stack', hs', fun q rest hq => ?_⟩
        rw [List.cons_append, stackFrom_other q stack offset _ hopen hclose]
        exact heq q rest hq

/-- The braces around an offset open before it. -/
theorem lt_of_mem_enclosingChain {text : List Char} {p q : Nat}
    (h : p ∈ (ofText text).enclosingChain q) : p < q := by
  rw [enclosingChain_eq] at h
  rcases mem_stackFrom h with hp | hp
  · exact absurd hp List.not_mem_nil
  · exact hp.2

/-- A brace is around the offsets behind it up to the place where the count over it
comes to zero. -/
theorem mem_enclosingChain_iff {text : List Char} {p : Nat}
    (hp : Text.charAt? text p = some '\x7b') (q : Nat) :
    p ∈ (ofText text).enclosingChain q ↔
      p < q ∧ ∀ close, Brace.close? text p = some close → q ≤ close := by
  obtain ⟨before, after, rfl, rfl⟩ := Text.charAt?_eq_some_iff.mp hp
  rw [enclosingChain_eq, Brace.close?, Text.suffixAt_width_append, Brace.closeFrom_open]
  by_cases hq : Text.width before < q
  · obtain ⟨stack, hs, heq⟩ := @exists_stackFrom_append 0 [] before nofun
    rw [Nat.zero_add] at hs heq
    have heq := heq q ('\x7b' :: after) (by omega)
    have hout : Text.width before ∉ stack := fun h => absurd (hs _ h) (Nat.lt_irrefl _)
    rw [heq, stackFrom_open, if_pos (by omega)]
    have h := @mem_stackFrom_iff _ (Text.width before + 1) [] stack (by omega) hout q after
    rw [List.nil_append, List.length_nil] at h
    rw [h]
    simp [hq]
  · constructor
    · intro h
      rcases mem_stackFrom h with h | h
      · simp at h
      · exact absurd h.2 hq
    · exact fun h => absurd h.1 hq

end BraceIndex

end Outline
