import Outline.Proofs.Pattern.Anchor
import Outline.Proofs.Pattern.Sweep

/-!
# Texts that are searched apart

A character that a pattern does not read, and that it takes for the end of a text or of a word,
parts a text in two: what is found in the whole is found in the two parts.
-/

namespace Outline
namespace Pattern

variable {p : Pattern} {wall : Char}

/-- Whether the pattern does not read a character, and tells it neither from the start of a text
nor from its end.  Repetitions other than runs are not looked into. -/
def stopsAt (wall : Char) : Pattern → Bool
  | .char test | .run _ test => !test wall
  | .word text => !text.contains wall
  | .seq p q | .alt p q => p.stopsAt wall && q.stopsAt wall
  | .part _ p => p.stopsAt wall
  | .boundary => !Text.isWordChar wall
  | .empty => true
  | .star .. | .lineStart | .textStart | .textEnd => false

theorem overlooks_in_front (hp : p.stopsAt wall = true) (rest : List Char) :
    p.Overlooks Eq (wall :: rest) := by
  induction p with
  | char test | run _ test =>
    rintro c ⟨⟩
    simpa [stopsAt] using hp
  | word text =>
    rintro c ⟨⟩
    simpa [stopsAt] using hp
  | seq p q ihp ihq | alt p q ihp ihq =>
    obtain ⟨hp, hq⟩ := Bool.and_eq_true_iff.mp hp
    exact ⟨ihp hp, ihq hq⟩
  | part _ p ih => exact ih hp
  | boundary =>
    refine ⟨by rintro x _ rfl; rfl, ?_⟩
    rintro c ⟨⟩
    simpa [stopsAt] using hp
  | empty => trivial
  | star | lineStart | textStart | textEnd => exact absurd hp Bool.false_ne_true

theorem overlooks_behind (hp : p.stopsAt wall = true) : p.Overlooks (behind wall) [] := by
  induction p with
  | char | run | word => exact nofun
  | seq p q ihp ihq | alt p q ihp ihq =>
    obtain ⟨hp, hq⟩ := Bool.and_eq_true_iff.mp hp
    exact ⟨ihp hp, ihq hq⟩
  | part _ p ih => exact ih hp
  | boundary =>
    refine ⟨?_, nofun⟩
    rintro (_ | c) _ rfl
    · simpa [stopsAt] using hp
    · rfl
  | empty => trivial
  | star | lineStart | textStart | textEnd => exact absurd hp Bool.false_ne_true

/-- In front of the character a match is the one that there is at the end of a text. -/
theorem matchAt_in_front (hp : p.stopsAt wall = true) (previous : Option Char) (offset : Nat)
    (front back : List Char) :
    p.matchAt ⟨previous, offset, front ++ wall :: back⟩ = p.matchAt ⟨previous, offset, front⟩ :=
  matchAt_of_overlooks (fun _ => rfl) (overlooks_in_front hp back) rfl offset front

/-- No match goes over the end of the text. -/
theorem stop_le_of_matchAt {cursor : Cursor} {found : Match} (hm : p.matchAt cursor = some found) :
    found.stop ≤ cursor.offset + Text.width cursor.rest := by
  obtain ⟨d, ms, hmatch, rfl⟩ := exists_of_matchAt hm
  obtain ⟨read, hread⟩ := hmatch.reads
  have hrest : cursor.rest = read ++ d.rest := hread.1
  rw [Match.stop, Match.ofMarks, hread.capture_eq, Capture.stop, hrest, Text.width_append]
  show cursor.offset + 0 + Text.width read ≤ _
  omega

/-- Up to the character the search finds what it finds in the text in front of it. -/
theorem findAllFrom_in_front (hp : p.stopsAt wall = true) (hc : p.consumes = true)
    (front back : List Char) {resume offset : Nat} (previous : Option Char)
    (hle : resume ≤ offset + Text.width front) :
    ∃ resume' previous', resume' ≤ offset + Text.width front ∧
      p.findAllFrom resume previous offset (front ++ wall :: back) =
        p.findAllFrom resume previous offset front ++
          p.findAllFrom resume' previous' (offset + Text.width front) (wall :: back) := by
  induction front generalizing resume offset previous with
  | nil => exact ⟨resume, previous, hle, by rw [findAllFrom_nil hc]; rfl⟩
  | cons c front ih =>
    rw [List.cons_append, findAllFrom, findAllFrom, ← List.cons_append, matchAt_in_front hp]
    generalize hhere : (if resume ≤ offset then p.matchAt ⟨previous, offset, c :: front⟩ else none) =
      here
    have hresume : (here.map Match.stop).getD resume ≤ offset + Text.width (c :: front) := by
      cases here with
      | none => exact hle
      | some found =>
        split at hhere
        · exact stop_le_of_matchAt hhere
        · cases hhere
    rw [Text.width_cons, ← Nat.add_assoc] at hresume ⊢
    obtain ⟨resume', previous', hle', heq⟩ := ih (some c) hresume
    exact ⟨resume', previous', hle', by rw [heq, List.append_assoc]⟩

/-- What is found in a text is found in front of the character and behind it. -/
theorem findAll_separate (hp : p.stopsAt wall = true) (hc : p.consumes = true)
    (front back : List Char) :
    p.findAll (front ++ wall :: back) = p.findAll front ++
      (p.findAll back).map (Match.down (Text.width front + wall.utf8Size)) := by
  obtain ⟨resume, previous, hle, hfront⟩ := findAllFrom_in_front hp hc front back none
    (Nat.zero_le (0 + Text.width front))
  have hwall : p.matchAt ⟨previous, 0 + Text.width front, wall :: back⟩ = none := by
    rw [← List.nil_append (wall :: back), matchAt_in_front hp, matchAt_nil hc]
  have hback : p.findAllFrom 0 (some wall) 0 back = p.findAllFrom 0 none 0 back := by
    cases back with
    | nil => rw [findAllFrom_nil hc, findAllFrom_nil hc]
    | cons c back => rw [findAllFrom, findAllFrom, matchAt_behind (overlooks_behind hp)]
  have hdown : p.findAllFrom resume (some wall) (0 + (Text.width front + wall.utf8Size)) back =
      (p.findAllFrom 0 (some wall) 0 back).map
        (Match.down (Text.width front + wall.utf8Size)) :=
    findAllFrom_add p _ back (some wall) fun x _ => by omega
  rw [findAll, hfront, findAllFrom, hwall, ite_self]
  show p.findAllFrom 0 none 0 front ++ ([] ++ p.findAllFrom resume (some wall) _ back) = _
  rw [List.nil_append, Nat.add_assoc, hdown, hback]
  rfl

end Pattern
end Outline
