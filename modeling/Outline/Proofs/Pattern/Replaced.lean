import Outline.Proofs.Pattern.Anchor
import Outline.Proofs.Pattern.Sweep

/-!
# Replacing matches

A pattern that never looks back is matched at a place as it would be at the start of the rest
of the text.  So replacing its matches goes through a text piece by piece: a piece in which no
match starts stays, and a match is replaced wherever it stands.
-/

namespace Outline

namespace Pattern

variable {p : Pattern}

/-- Up to the place to go on from a text is passed over. -/
theorem replaceFrom_append (p : Pattern) (filler : List Char) {resume offset : Nat}
    (previous : Option Char) (read rest : List Char) (h : offset + Text.width read = resume) :
    ∃ previous', p.replaceFrom filler resume previous offset (read ++ rest) =
      p.replaceFrom filler resume previous' resume rest := by
  induction read generalizing previous offset with
  | nil =>
    obtain rfl : offset = resume := h
    exact ⟨previous, rfl⟩
  | cons c read ih =>
    rw [Text.width_cons] at h
    have hpos := Char.utf8Size_pos c
    rw [List.cons_append, replaceFrom, if_pos (by omega)]
    exact ih (some c) (by omega)

theorem matchAt_moved (hp : p.simple = true) (previous : Option Char) (offset : Nat)
    (rest : List Char) :
    p.matchAt ⟨previous, offset, rest⟩ = (p.matchAt ⟨none, 0, rest⟩).map (Match.down offset) := by
  have hself : ∀ c, anything (some c) (some c) := fun _ => trivial
  have hany : anything none previous := trivial
  have hmatch := matchAt_of_overlooks hself (overlooks_anything hp) hany (0 + offset) rest
  rw [List.append_nil, matchAt_add p none 0 offset, Nat.zero_add] at hmatch
  exact hmatch

/-- What is replaced from a place on does not depend on the place. -/
theorem replaceFrom_of_le (hp : p.simple = true) (hc : p.consumes = true) (filler : List Char)
    {resume offset : Nat} (hle : resume ≤ offset) (previous : Option Char) (text : List Char) :
    p.replaceFrom filler resume previous offset text = p.replaceAll filler text := by
  -- Both sweeps are compared with a third one, from any other place.
  suffices hsame : ∀ (n : Nat) (text : List Char), text.length = n →
      ∀ resume offset previous resume' offset' previous', resume ≤ offset → resume' ≤ offset' →
        p.replaceFrom filler resume previous offset text =
          p.replaceFrom filler resume' previous' offset' text from
    hsame text.length text rfl _ _ _ _ _ _ hle (Nat.le_refl 0)
  intro n
  induction n using Nat.strongRecOn with
  | ind n ih =>
    intro text hn resume offset previous resume' offset' previous' hle hle'
    cases text with
    | nil => rfl
    | cons c rest =>
      rw [replaceFrom, replaceFrom, if_neg (Nat.not_lt.mpr hle), if_neg (Nat.not_lt.mpr hle'),
        matchAt_moved hp previous, matchAt_moved hp previous']
      cases hm : p.matchAt ⟨none, 0, c :: rest⟩ with
      | none =>
        have hlt : rest.length < n := by rw [← hn, List.length_cons]; omega
        exact congrArg (c :: ·) (ih _ hlt rest rfl _ _ _ _ _ _ (by omega) (by omega))
      | some found =>
        obtain ⟨d, ms, hmatch, rfl⟩ := exists_of_matchAt hm
        obtain ⟨read, hread⟩ := hmatch.reads
        obtain ⟨x, read, rfl⟩ := List.exists_cons_of_ne_nil (hmatch.ne_nil hc hread)
        obtain ⟨rfl, hrest⟩ : c = x ∧ rest = read ++ d.rest := List.cons.inj hread.1
        have hstop : (Match.ofMarks 0 (Cursor.asOrigin ⟨none, 0, c :: rest⟩) d ms).stop =
            c.utf8Size + Text.width read := by
          rw [Match.stop, Match.ofMarks, hread.capture_eq, ← Text.width_cons]
          exact Nat.zero_add _
        have hlt : d.rest.length < n := by
          rw [← hn, hrest, List.length_cons, List.length_append]
          omega
        dsimp only [Option.map_some]
        rw [Match.stop_down, Match.stop_down, hstop, hrest]
        obtain ⟨q, hq⟩ := replaceFrom_append p filler (some c) read d.rest
          (show offset + c.utf8Size + Text.width read = c.utf8Size + Text.width read + offset by
            omega)
        obtain ⟨q', hq'⟩ := replaceFrom_append p filler (some c) read d.rest
          (show offset' + c.utf8Size + Text.width read = c.utf8Size + Text.width read + offset' by
            omega)
        rw [hq, hq']
        exact congrArg (filler ++ ·)
          (ih _ hlt d.rest rfl _ _ _ _ _ _ (Nat.le_refl _) (Nat.le_refl _))

/-- A character at which no match starts stays. -/
theorem replaceAll_cons_of_none (hp : p.simple = true) (hc : p.consumes = true)
    (filler : List Char) {c : Char} {rest : List Char}
    (h : p.matchAt ⟨none, 0, c :: rest⟩ = none) :
    p.replaceAll filler (c :: rest) = c :: p.replaceAll filler rest := by
  rw [replaceAll, replaceFrom, if_neg (Nat.lt_irrefl 0), h]
  exact congrArg (c :: ·) (replaceFrom_of_le hp hc filler (Nat.zero_le _) _ rest)

/-- A match at the start of a text is replaced. -/
theorem replaceAll_append_of_matchAt (hp : p.simple = true) (hc : p.consumes = true)
    (filler : List Char) {read rest : List Char} {found : Match} (hne : read ≠ [])
    (h : p.matchAt ⟨none, 0, read ++ rest⟩ = some found) (hstop : found.stop = Text.width read) :
    p.replaceAll filler (read ++ rest) = filler ++ p.replaceAll filler rest := by
  obtain ⟨c, read, rfl⟩ := List.exists_cons_of_ne_nil hne
  rw [List.cons_append] at h
  rw [List.cons_append, replaceAll, replaceFrom, if_neg (Nat.lt_irrefl 0), h]
  obtain ⟨previous, heq⟩ := replaceFrom_append p filler (some c) read rest
    (show 0 + c.utf8Size + Text.width read = found.stop by
      rw [hstop, Text.width_cons, Nat.zero_add])
  dsimp only
  rw [heq, replaceFrom_of_le hp hc filler (Nat.le_refl _)]

/-- A text in which no match can start stays. -/
theorem replaceAll_append_of_avoids (hp : p.simple = true) (hc : p.consumes = true)
    (filler : List Char) {kept : List Char} (h : ∀ c ∈ kept, p.avoids c = true)
    (rest : List Char) : p.replaceAll filler (kept ++ rest) = kept ++ p.replaceAll filler rest := by
  induction kept with
  | nil => rfl
  | cons c kept ih =>
    have hmiss : p.matchAt ⟨none, 0, c :: (kept ++ rest)⟩ = none := by
      have hmisses := @misses_of_avoids p [c] (kept ++ rest) hc fun a ha =>
        List.mem_singleton.mp ha ▸ h c List.mem_cons_self
      exact hmisses [] [c] rfl (List.cons_ne_nil c []) none 0
    rw [List.cons_append, replaceAll_cons_of_none hp hc filler hmiss,
      ih fun a ha => h a (List.mem_cons_of_mem c ha), List.cons_append]

end Pattern
end Outline
