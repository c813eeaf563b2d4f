import Outline.Extraction.Cpp.Rule
import Outline.Proofs.Pattern.Choice
import Outline.Proofs.Pattern.Sweep
import Outline.Proofs.Text.Word

/-!
# Access labels

An access label is a word with a colon behind it, blanks aside.  No label starts inside of
another one, so a search from left to right finds all of them.
-/

namespace Outline
namespace Cpp

/-- The words of access labels, with what they say. -/
def accessWords : List (String × Visibility) :=
  [("public", .publicMember), ("protected", .protectedMember), ("private", .privateMember)]

/-- A word of an access label that stands by itself behind a text, and the blanks behind it. -/
structure AccessBehind (before : List Char) (word : String) (blanks : List Char) : Prop where
  apart : before.getLast?.any Text.isWordChar = false
  word : word ∈ accessWords.map Prod.fst
  blanks : ∀ c ∈ blanks, Text.isBlank c = true

/-- An access label of a text: a word by itself, blanks, and a colon that is not the first of
two. -/
def LabelAt (text : List Char) (offset : Nat) (visibility : Visibility) : Prop :=
  ∃ before word blanks rest, text = before ++ (word.toList ++ (blanks ++ ':' :: rest)) ∧
    Text.width before = offset ∧ AccessBehind before word blanks ∧
    (word, visibility) ∈ accessWords ∧ rest.head? ≠ some ':'

variable {before blanks rest : List Char} {word : String}

theorem AccessBehind.cases (h : AccessBehind before word blanks) :
    word = "public" ∨ word = "protected" ∨ word = "private" := by
  simpa [accessWords] using h.word

theorem head_of_mem_accessWords (h : word ∈ accessWords.map Prod.fst) :
    word.toList.head? = some 'p' := by
  simp only [accessWords, List.map_cons, List.map_nil, List.mem_cons, List.not_mem_nil,
    or_false] at h
  rcases h with rfl | rfl | rfl <;> rfl

theorem AccessBehind.isWordChar (h : AccessBehind before word blanks) :
    ∀ c ∈ word.toList, Text.isWordChar c = true := by
  rcases h.cases with rfl | rfl | rfl <;> decide +kernel

theorem AccessBehind.mem_iff (h : AccessBehind before word blanks) {visibility : Visibility} :
    (word, visibility) ∈ accessWords ↔ visibility = accessOf word.toList := by
  rcases h.cases with rfl | rfl | rfl
  all_goals
    simp only [accessWords, List.mem_cons, Prod.mk.injEq, List.not_mem_nil, or_false]
    cases visibility <;> decide

/-! ## Matches -/

/-- Where an access word with a colon stands, the pattern of labels matches it. -/
theorem AccessBehind.exists_match (h : AccessBehind before word blanks) (rest : List Char) :
    ∃ found, accessPattern.matchAt
        ⟨before.getLast?, Text.width before, word.toList ++ (blanks ++ ':' :: rest)⟩ = some found ∧
      found.start = Text.width before ∧
      found.stop = Text.width before + Text.width (word.toList ++ (blanks ++ [':'])) ∧
      found.text .kind = word.toList := by
  let start : Reach := .start ⟨before.getLast?, 0, word.toList ++ (blanks ++ ':' :: rest)⟩
  let named : Reach := start.passing .kind word.toList (blanks ++ ':' :: rest)
  let spaced : Reach := named.after blanks (':' :: rest)
  have hboundary : Pattern.boundary.Prefers start start := by
    refine Pattern.prefers_boundary ?_
    show (before.getLast?.any Text.isWordChar !=
      (word.toList ++ (blanks ++ ':' :: rest)).head?.any Text.isWordChar) = true
    rw [h.apart, List.head?_append, head_of_mem_accessWords h.word]
    rfl
  have hkind : (Pattern.part .kind (.oneOf ["public", "protected", "private"])).Prefers start
      named := by
    refine Pattern.Prefers.passing ?_
    rcases h.cases with rfl | rfl | rfl
    · exact Pattern.prefers_oneOf [] (start.enter .kind) (by simp) rfl
    · exact Pattern.prefers_oneOf ["public"] (start.enter .kind)
        (by simpa using Pattern.ends_lit_eq_nil rfl) rfl
    · exact Pattern.prefers_oneOf ["public", "protected"] (start.enter .kind)
        (by simpa using ⟨Pattern.ends_lit_eq_nil rfl, Pattern.ends_lit_eq_nil rfl⟩) rfl
  have hblanks : Pattern.blanks.Prefers named spaced :=
    Pattern.prefers_run named rfl h.blanks fun c hc => Option.some.inj hc ▸ rfl
  have hcolon : (Pattern.lit ":").Prefers spaced (spaced.after ":".toList rest) :=
    Pattern.prefers_lit spaced rfl
  have hall : accessPattern.Prefers start (spaced.after ":".toList rest) :=
    ((hboundary.seq hkind).seq hblanks).seq hcolon
  have hread : start.cursor.Reads (word.toList ++ (blanks ++ [':']))
      (spaced.after ":".toList rest).cursor := by
    constructor
    · show word.toList ++ (blanks ++ ':' :: rest) = word.toList ++ (blanks ++ [':']) ++ rest
      simp
    · show 0 + Text.width word.toList + Text.width blanks + Text.width [':'] =
        0 + Text.width (word.toList ++ (blanks ++ [':']))
      rw [Text.width_append, Text.width_append]
      omega
  obtain ⟨found, hmatch, hstart, hstop, hpart⟩ := hall.exists_match hread (Text.width before)
  refine ⟨found, hmatch, hstart, hstop, ?_⟩
  rw [Match.text, hpart .kind]
  exact congrArg Capture.text (start.capture_passing word.toList _ rfl (Text.width before))

/-- What the pattern of labels matches is an access word with a colon. -/
theorem exists_accessBehind {text : List Char} {found : Match}
    (h : accessPattern.FoundIn text found) :
    ∃ before word blanks rest, text = before ++ (word.toList ++ (blanks ++ ':' :: rest)) ∧
      AccessBehind before word blanks ∧ found.start = Text.width before ∧
      found.stop = Text.width before + Text.width (word.toList ++ (blanks ++ [':'])) ∧
      found.text .kind = word.toList := by
  obtain ⟨before, rest, d, ms, rfl, hall, rfl⟩ := h
  obtain ⟨c₃, ms₃, ms₄, hfront, hcolon, rfl⟩ := hall.of_seq
  obtain ⟨c₂, ms₂, ms₃', hlead, hblanks, rfl⟩ := hfront.of_seq
  obtain ⟨c₁, ms₁, ms₂', hboundary, hkind, rfl⟩ := hlead.of_seq
  obtain ⟨rfl, hsides⟩ := hboundary.of_boundary
  obtain ⟨ns, hone, rfl⟩ := hkind.of_part
  obtain ⟨word, hword, hreadWord⟩ := hone.of_oneOf
  obtain ⟨blanks, hblank, hreadBlanks⟩ := hblanks.of_run
  have hreadColon : c₃.Reads ":".toList d := hcolon.of_word
  have hread := hreadWord.trans (hreadBlanks.trans hreadColon)
  obtain rfl : rest = word.toList ++ (blanks ++ ':' :: d.rest) := by simpa using hread.1
  have hapart : before.getLast?.any Text.isWordChar = false := by
    have hsides : (before.getLast?.any Text.isWordChar !=
        (word.toList ++ (blanks ++ ':' :: d.rest)).head?.any Text.isWordChar) = true := hsides
    rw [List.head?_append, head_of_mem_accessWords hword, Option.some_or, Option.any_some,
      show Text.isWordChar 'p' = true from rfl] at hsides
    simpa using hsides
  refine ⟨before, word, blanks, d.rest, rfl, ⟨hapart, hword, hblank⟩, rfl, ?_, ?_⟩
  · rw [Match.stop, Match.ofMarks, hread.capture_eq]
    rfl
  · rw [Match.text, Match.part?_ofMarks, latest_append, latest_append,
      hcolon.latest_eq_none rfl, hblanks.latest_eq_none rfl, Option.none_or, Option.none_or]
    exact congrArg Capture.text (hreadWord.capture_eq (Text.width before))

/-! ## All labels -/

/-- No label starts inside of another one: its word would start in a word, or with a blank or a
colon. -/
theorem AccessBehind.not_inside {before' blanks' rest' : List Char} {word' : String}
    (h : AccessBehind before word blanks) (h' : AccessBehind before' word' blanks')
    (heq : before ++ (word.toList ++ (blanks ++ ':' :: rest)) =
      before' ++ (word'.toList ++ (blanks' ++ ':' :: rest')))
    (hlt : Text.width before' < Text.width before) :
    Text.width before' + Text.width (word'.toList ++ (blanks' ++ [':'])) ≤ Text.width before := by
  obtain ⟨passed, rfl, hpassed⟩ := Text.append_of_width_le heq.symm (Nat.le_of_lt hlt)
  rw [Text.width_append before' passed] at hlt ⊢
  refine Nat.le_of_not_lt fun hinside => ?_
  have hlabel : passed ++ (word.toList ++ (blanks ++ ':' :: rest)) =
      (word'.toList ++ (blanks' ++ [':'])) ++ rest' := by simp [← hpassed]
  obtain ⟨left, hleft, hword⟩ := Text.append_of_width_le hlabel (by omega)
  have hhead : left.head? = some 'p' := by
    have hstart := congrArg List.head? hword
    rw [List.head?_append, head_of_mem_accessWords h.word, Option.some_or] at hstart
    cases left with
    | nil => rw [List.append_nil] at hleft; rw [← hleft] at hinside; omega
    | cons c left => exact hstart.symm
  rcases List.append_eq_append_iff.mp hleft with ⟨more, hmore, hblanks⟩ | ⟨more, hmore, hblanks⟩
  · have hp : 'p' ∈ blanks' ++ [':'] :=
      hblanks ▸ List.mem_append_right more (List.mem_of_mem_head? hhead)
    rcases List.mem_append.mp hp with hp | hp
    · exact absurd (h'.blanks 'p' hp) (by decide)
    · exact absurd hp (by decide)
  · have hne : passed ≠ [] := by
      rintro rfl
      rw [Text.width_nil] at hlt
      omega
    have hlast : Text.isWordChar (passed.getLast hne) = true :=
      h'.isWordChar _ (hmore ▸ List.mem_append_left more (List.getLast_mem hne))
    have hapart := h.apart
    rw [List.getLast?_append, List.getLast?_eq_some_getLast hne, Option.some_or, Option.any_some,
      hlast] at hapart
    cases hapart

theorem charAt?_behind (before label rest : List Char) :
    Text.charAt? (before ++ (label ++ rest)) (Text.width before + Text.width label) =
      rest.head? := by
  rw [← List.append_assoc, ← Text.width_append, Text.charAt?_width_append]

/-- The search finds all labels of a text, and what else it finds has two colons. -/
theorem labelAt_iff {text : List Char} {offset : Nat} {visibility : Visibility} :
    LabelAt text offset visibility ↔ ∃ found ∈ accessPattern.findAll text, found.start = offset ∧
      Text.charAt? text found.stop ≠ some ':' ∧ visibility = accessOf (found.text .kind) := by
  have hnext : ∀ before (word : String) blanks rest,
      Text.charAt? (before ++ (word.toList ++ (blanks ++ ':' :: rest)))
        (Text.width before + Text.width (word.toList ++ (blanks ++ [':']))) = rest.head? := by
    intro before word blanks rest
    rw [← charAt?_behind before (word.toList ++ (blanks ++ [':'])) rest]
    simp
  constructor
  · rintro ⟨before, word, blanks, rest, rfl, rfl, h, hword, hrest⟩
    obtain ⟨found, hmatch, hstart, hstop, hkind⟩ := h.exists_match rest
    refine ⟨found, ?_, hstart, by rwa [hstop, hnext], hkind ▸ h.mem_iff.mp hword⟩
    refine (Pattern.mem_findAll_or_covered hmatch).resolve_right ?_
    rintro ⟨other, hother, hlt, hgt⟩
    obtain ⟨before', word', blanks', rest', heq, h', hstart', hstop', -⟩ :=
      exists_accessBehind (Pattern.foundIn_of_mem_findAll hother)
    have hle := h.not_inside h' heq (by omega)
    omega
  · rintro ⟨found, hfound, rfl, hrest, rfl⟩
    obtain ⟨before, word, blanks, rest, rfl, h, hstart, hstop, hkind⟩ :=
      exists_accessBehind (Pattern.foundIn_of_mem_findAll hfound)
    refine ⟨before, word, blanks, rest, rfl, hstart.symm, h, h.mem_iff.mpr (by rw [hkind]), ?_⟩
    rwa [hstop, hnext] at hrest

end Cpp
end Outline
