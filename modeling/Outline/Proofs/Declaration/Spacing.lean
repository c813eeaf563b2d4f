import Outline.Proofs.Declaration.Parameter
import Outline.Proofs.Declaration.Recover

/-!
# Texts with single spaces

Reducing the blanks of a text leaves it as it is exactly when each blank in it is one space between
two other characters.  Types are spelled like that, whichever way they are read: a reduced text, a
part of one without the blanks at its end, a word, or some words with a space between each two.
-/

namespace Outline
namespace Text

/-- No blank at either end, no blank but the space, and no two spaces side by side. -/
structure SingleSpaced (text : List Char) : Prop where
  start : ∀ c, text.head? = some c → isBlank c = false
  stop : ∀ c, text.getLast? = some c → isBlank c = false
  spaces : ∀ c ∈ text, isBlank c = true → c = ' '
  apart : ¬ [' ', ' '] <:+: text

namespace SingleSpaced

variable {text : List Char}

theorem of_spaced (hstart : ∀ c, text.head? = some c → isBlank c = false)
    (h : Parameter.Spaced text) : SingleSpaced text := by
  refine ⟨hstart, fun c hc => ?_, fun c hc hblank => ?_, ?_⟩
  · by_contra hblank
    obtain ⟨front, hfront⟩ := List.getLast?_eq_some_iff.mp hc
    obtain ⟨-, d, hd, -⟩ := h front c [] hfront (by simpa using hblank)
    exact nomatch hd
  · obtain ⟨front, back, hsplit⟩ := List.append_of_mem hc
    exact (h front c back hsplit hblank).1
  · rintro ⟨front, back, hsplit⟩
    obtain ⟨-, d, hd, hnot⟩ := h front ' ' (' ' :: back) (by simpa using hsplit.symm) rfl
    obtain rfl : ' ' = d := Option.some.inj hd
    exact absurd hnot (by decide)

theorem spaced (h : SingleSpaced text) : Parameter.Spaced text := by
  rintro front c back rfl hblank
  obtain rfl := h.spaces c (by simp) hblank
  refine ⟨rfl, ?_⟩
  cases back with
  | nil => exact absurd (h.stop ' ' (by simp)) (by decide)
  | cons d back =>
    refine ⟨d, rfl, Bool.eq_false_iff.mpr fun hd => ?_⟩
    obtain rfl := h.spaces d (by simp) hd
    exact h.apart ⟨front, back, by simp⟩

theorem nil : SingleSpaced [] := ⟨by simp, by simp, by simp, by simp⟩

/-- A word has no blanks at all. -/
theorem of_forall (h : ∀ c ∈ text, isBlank c = false) : SingleSpaced text := by
  refine of_spaced (fun c hc => h c (List.mem_of_head? hc)) ?_
  rintro front c back rfl hblank
  exact absurd hblank (by simp [h c (by simp)])

/-- The line feed is a blank, and not the space. -/
theorem not_mem_feed (h : SingleSpaced text) : '\n' ∉ text := fun hmem =>
  absurd (h.spaces '\n' hmem rfl) (by decide)

/-- A part at the front, without the blanks that it ends with. -/
theorem trim_of_isPrefix {front : List Char} (h : SingleSpaced text) (hp : front <+: text) :
    SingleSpaced (trim front) := by
  have hfront : ∀ c, front.head? = some c → isBlank c = false := by
    obtain ⟨back, rfl⟩ := hp
    intro c hc
    exact h.start c (by rw [List.head?_append, hc, Option.some_or])
  have hleft : trimStart front = front := by
    cases front with
    | nil => rfl
    | cons c front => exact List.dropWhile_cons_of_neg (by simp [hfront c rfl])
  obtain ⟨-, -, -, hlast⟩ := exists_eq_trimEnd_append front
  rw [trim, hleft]
  have htext : trimEnd front <+: text := (isPrefix_trimEnd front).trans hp
  refine ⟨fun c hc => ?_, hlast, fun c hc => h.spaces c (htext.subset hc), fun hin =>
    h.apart (hin.trans htext.isInfix)⟩
  obtain ⟨back, rfl⟩ := htext
  exact h.start c (by rw [List.head?_append, hc, Option.some_or])

end SingleSpaced

theorem isBlank_of_mem_wordsFrom {text word w : List Char} (hword : ∀ c ∈ word, isBlank c = false)
    (h : w ∈ wordsFrom word text) : ∀ c ∈ w, isBlank c = false := by
  induction text generalizing word with
  | nil =>
    rw [wordsFrom] at h
    split at h
    · cases h
    · obtain rfl := List.mem_singleton.mp h
      simpa using hword
  | cons c text ih =>
    rw [wordsFrom] at h
    split at h
    · split at h
      · exact ih (by simp) h
      · rcases List.mem_cons.mp h with rfl | h
        · simpa using hword
        · exact ih (by simp) h
    · next hc => exact ih (List.forall_mem_cons.mpr ⟨by simpa using hc, hword⟩) h

theorem isBlank_of_mem_words {text word : List Char} (h : word ∈ words text) :
    ∀ c ∈ word, isBlank c = false := isBlank_of_mem_wordsFrom (by simp) h

theorem spaced_cons_of_not_blank {c : Char} {text : List Char} (hc : isBlank c = false)
    (h : Parameter.Spaced text) : Parameter.Spaced (c :: text) := by
  intro front d back hsplit hblank
  cases front with
  | nil =>
    obtain rfl : c = d := (List.cons.inj hsplit).1
    exact absurd hblank (by simp [hc])
  | cons first front => exact h front d back (List.cons.inj hsplit).2 hblank

theorem spaced_cons_space {d : Char} {text : List Char} (hd : isBlank d = false)
    (h : Parameter.Spaced (d :: text)) : Parameter.Spaced (' ' :: d :: text) := by
  intro front c back hsplit hblank
  cases front with
  | nil =>
    obtain ⟨rfl, rfl⟩ := List.cons.inj hsplit
    exact ⟨rfl, d, rfl, hd⟩
  | cons first front => exact h front c back (List.cons.inj hsplit).2 hblank

/-- Words with a space between each two. -/
theorem singleSpaced_join {pieces : List (List Char)}
    (h : ∀ word ∈ pieces, word ≠ [] ∧ ∀ c ∈ word, isBlank c = false) :
    SingleSpaced (join [' '] pieces) := by
  induction pieces with
  | nil => exact .nil
  | cons word pieces ih =>
    obtain ⟨⟨hne, hword⟩, hrest⟩ := List.forall_mem_cons.mp h
    rw [join_cons]
    split
    · exact .of_forall hword
    · next hmore =>
      have hsome : join [' '] pieces ≠ [] := fun hnil =>
        hmore ((join_eq_nil fun w hw => (hrest w hw).1).mp hnil)
      obtain ⟨d, more, hd⟩ := List.exists_cons_of_ne_nil hsome
      have hjoined := ih hrest
      rw [hd] at hjoined ⊢
      have htail := spaced_cons_space (hjoined.start d rfl) hjoined.spaced
      refine .of_spaced (fun c hc => ?_) ?_
      · obtain ⟨first, more, rfl⟩ := List.exists_cons_of_ne_nil hne
        exact hword c (List.mem_of_head? hc)
      · clear hne h
        induction word with
        | nil => exact htail
        | cons c word ihword =>
          obtain ⟨hc, hword⟩ := List.forall_mem_cons.mp hword
          exact spaced_cons_of_not_blank hc (ihword hword)

theorem singleSpaced_normalizeSpace (text : List Char) : SingleSpaced (normalizeSpace text) :=
  singleSpaced_join fun _ hw => ⟨ne_nil_of_mem_wordsFrom hw, isBlank_of_mem_words hw⟩

/-- Reducing the blanks of a text changes nothing exactly when they are single spaces between other
characters. -/
theorem normalizeSpace_eq_self_iff (text : List Char) :
    normalizeSpace text = text ↔ SingleSpaced text := by
  constructor
  · intro h
    exact h ▸ singleSpaced_normalizeSpace text
  · intro h
    cases text with
    | nil => rfl
    | cons c text => exact Parameter.normalizeSpace_of_spaced (h.start c rfl) h.spaced

/-- What is left of the words of a text, with a space between each two. -/
theorem singleSpaced_join_filter (keep : List Char → Bool) (text : List Char) :
    SingleSpaced (join [' '] ((words text).filter keep)) :=
  singleSpaced_join fun _ hw =>
    have hword := (List.mem_filter.mp hw).1
    ⟨ne_nil_of_mem_wordsFrom hword, isBlank_of_mem_words hword⟩

end Text

open Text (SingleSpaced singleSpaced_normalizeSpace)

/-- A part of a match that spares every blank is a word. -/
theorem Pattern.FoundIn.isBlank_of_part {p : Pattern} {text : List Char} {found : Match}
    {label : Part} {capture : Capture} (h : p.FoundIn text found)
    (hp : (Text.blankCodes.all fun n => p.partSpares label (Char.ofNat n)) = true)
    (hc : found.part? label = some capture) : ∀ c ∈ capture.text, Text.isBlank c = false := by
  intro c hmem
  by_contra hblank
  have hcode := Text.toNat_mem_of_isBlank (by simpa using hblank)
  have hspares := List.all_eq_true.mp hp c.toNat hcode
  rw [Char.ofNat_toNat] at hspares
  exact h.not_mem_of_partSpares hspares hc hmem

namespace Parameter

theorem singleSpaced_typeAndName (rules : ParameterRules) (declaration : List Char) :
    SingleSpaced (typeAndName rules declaration).1 := by
  rw [typeAndName]
  split
  · exact singleSpaced_normalizeSpace _
  · dsimp only
    split
    · exact singleSpaced_normalizeSpace _
    · split
      · exact singleSpaced_normalizeSpace _
      · exact singleSpaced_normalizeSpace _

theorem singleSpaced_of_mem_ofList {rules : ParameterRules} {text : List Char}
    {parameter : Parameter} (h : parameter ∈ ofList rules text) :
    SingleSpaced parameter.type.toList := by
  rw [ofList] at h
  split at h
  · cases h
  · obtain ⟨piece, -, hparameter⟩ := List.mem_filterMap.mp h
    rw [ofDeclaration?_eq, ofParts?] at hparameter
    split at hparameter
    · cases hparameter
    · split at hparameter
      · obtain rfl := Option.some.inj hparameter
        exact .of_forall (by decide)
      · dsimp only at hparameter
        split at hparameter
        · cases hparameter
        · obtain rfl := Option.some.inj hparameter
          rw [String.toList_ofList]
          exact singleSpaced_typeAndName rules _

end Parameter
end Outline
