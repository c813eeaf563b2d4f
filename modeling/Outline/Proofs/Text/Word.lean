import Outline.Proofs.Text.Boundary
import Outline.Text.Kind
import Outline.Text.Blank

/-!
# Blanks and words of a text

How a text ends, what its first word is, and what reducing its blanks amounts to:
one sweep that owes a space for the blanks behind a word.
-/

namespace Outline
namespace Text

def blankCodes : List Nat :=
  [9, 10, 11, 12, 13, 0x20, 0x85, 0xA0, 0x1680, 0x2000, 0x2001, 0x2002, 0x2003, 0x2004, 0x2005,
    0x2006, 0x2007, 0x2008, 0x2009, 0x200A, 0x2028, 0x2029, 0x202F, 0x205F, 0x3000]

theorem toNat_mem_of_isBlank {c : Char} (h : isBlank c = true) : c.toNat ∈ blankCodes := by
  simp only [isBlank, Bool.or_eq_true, Bool.and_eq_true, decide_eq_true_eq, beq_iff_eq] at h
  simp only [blankCodes, List.mem_cons, List.not_mem_nil, or_false]
  omega

theorem isWordChar_eq_false_of_isBlank {c : Char} (h : isBlank c = true) :
    isWordChar c = false := by
  have hall : ∀ n ∈ blankCodes, isWordChar (Char.ofNat n) = false := by decide +kernel
  have hc := hall c.toNat (toNat_mem_of_isBlank h)
  rwa [Char.ofNat_toNat] at hc

theorem exists_eq_trimEnd_append (text : List Char) :
    ∃ blanks, text = trimEnd text ++ blanks ∧ (∀ c ∈ blanks, isBlank c = true) ∧
      ∀ c, (trimEnd text).getLast? = some c → isBlank c = false := by
  refine ⟨(text.reverse.takeWhile isBlank).reverse, ?_, fun c hc => ?_, fun c hc => ?_⟩
  · rw [trimEnd, ← List.reverse_append, List.takeWhile_append_dropWhile, List.reverse_reverse]
  · exact List.all_eq_true.mp List.all_takeWhile c (List.mem_reverse.mp hc)
  · rw [trimEnd, List.getLast?_reverse] at hc
    have hnot := List.head?_dropWhile_not isBlank text.reverse
    rw [hc] at hnot
    exact hnot

/-- The last character of a text that is no blank. -/
theorem exists_last {text : List Char} {c : Char} (hmem : c ∈ text) (hc : isBlank c = false) :
    ∃ lead last blanks, text = lead ++ last :: blanks ∧ isBlank last = false ∧
      ∀ b ∈ blanks, isBlank b = true := by
  obtain ⟨blanks, htext, hblanks, hlast⟩ := exists_eq_trimEnd_append text
  rcases List.eq_nil_or_concat (trimEnd text) with hnil | ⟨lead, last, hconcat⟩
  · rw [htext, hnil] at hmem
    rw [hblanks c hmem] at hc
    cases hc
  · rw [List.concat_eq_append] at hconcat
    rw [hconcat] at htext hlast
    exact ⟨lead, last, blanks, by rw [htext, List.append_assoc]; rfl,
      hlast last List.getLast?_concat, hblanks⟩

theorem trimEnd_append_blanks {text blanks : List Char} (hb : ∀ c ∈ blanks, isBlank c = true)
    (ht : ∀ c, text.getLast? = some c → isBlank c = false) : trimEnd (text ++ blanks) = text := by
  have hreverse : ∀ c ∈ blanks.reverse, isBlank c = true :=
    fun c hc => hb c (List.mem_reverse.mp hc)
  rw [trimEnd, List.reverse_append, List.dropWhile_append_of_pos hreverse]
  cases htext : text.reverse with
  | nil => simpa using htext.symm
  | cons c rest =>
    have hc : isBlank c = false := ht c (by rw [← List.head?_reverse, htext]; rfl)
    rw [List.dropWhile_cons_of_neg (by simp [hc]), ← htext, List.reverse_reverse]

theorem trim_append_blank {c : Char} (hc : isBlank c = true) (line : List Char) :
    trim (line ++ [c]) = trim line := by
  rw [trim, trim, trimStart, trimStart, List.dropWhile_append]
  split
  · next h =>
    rw [List.isEmpty_iff.mp h, List.dropWhile_cons_of_pos hc]
    rfl
  · rw [trimEnd, trimEnd, List.reverse_append, List.reverse_singleton, List.singleton_append,
      List.dropWhile_cons_of_pos hc]

/-! ## Words -/

/-- What comes before the next word: nothing at the start of a text, nothing inside
of a word, or one space for the blanks behind one. -/
inductive Gap
  | start
  | none
  | owed
  deriving DecidableEq, Repr

def Gap.blank : Gap → Gap
  | start => start
  | _ => owed

def Gap.text : Gap → List Char
  | owed => [' ']
  | _ => []

/-- `normalizeSpace` in one sweep. -/
def squeeze : Gap → List Char → List Char
  | _, [] => []
  | gap, c :: rest =>
    if isBlank c then squeeze gap.blank rest else gap.text ++ c :: squeeze .none rest

theorem squeeze_owed (text : List Char) :
    squeeze .owed text = if squeeze .start text = [] then [] else ' ' :: squeeze .start text := by
  induction text with
  | nil => rfl
  | cons c text ih =>
    by_cases hc : isBlank c = true
    · simpa [squeeze, hc, Gap.blank] using ih
    · simp [squeeze, hc, Gap.text]

theorem ne_nil_of_mem_wordsFrom {word w text : List Char} (h : w ∈ wordsFrom word text) :
    w ≠ [] := by
  induction text generalizing word with
  | nil =>
    cases word with
    | nil => simp [wordsFrom] at h
    | cons c word =>
      obtain rfl : w = (c :: word).reverse := by simpa [wordsFrom] using h
      simp
  | cons c text ih =>
    rw [wordsFrom] at h
    split at h
    · cases word with
      | nil => exact ih h
      | cons d word =>
        rcases List.mem_cons.mp h with rfl | h
        · simp
        · exact ih h
    · exact ih h

theorem join_cons (w : List Char) (ws : List (List Char)) :
    join [' '] (w :: ws) = if ws = [] then w else w ++ ' ' :: join [' '] ws := by
  cases ws with
  | nil => simp [join]
  | cons v ws => simp [join, List.intercalate_cons_cons]

theorem join_eq_nil {ws : List (List Char)} (h : ∀ w ∈ ws, w ≠ []) :
    join [' '] ws = [] ↔ ws = [] := by
  cases ws with
  | nil => simp [join]
  | cons w ws =>
    have hw : w ≠ [] := h w (by simp)
    rw [join_cons]
    split <;> simp [hw]

theorem join_wordsFrom (word text : List Char) :
    join [' '] (wordsFrom word text) =
      if word = [] then squeeze .start text else word.reverse ++ squeeze .none text := by
  induction text generalizing word with
  | nil => cases word <;> simp [wordsFrom, squeeze, join]
  | cons c text ih =>
    by_cases hc : isBlank c = true
    · cases word with
      | nil => simpa [wordsFrom, squeeze, hc, Gap.blank] using ih []
      | cons d word =>
        have hstart : join [' '] (wordsFrom [] text) = squeeze .start text := by simpa using ih []
        have hnil : wordsFrom [] text = [] ↔ squeeze .start text = [] := by
          rw [← hstart]
          exact (join_eq_nil fun w hw => ne_nil_of_mem_wordsFrom hw).symm
        simp [wordsFrom, squeeze, hc, Gap.blank, join_cons, squeeze_owed, hnil, hstart]
        split <;> simp
    · have hword := ih (c :: word)
      cases word with
      | nil => simpa [wordsFrom, squeeze, hc, Gap.text] using hword
      | cons d word => simpa [wordsFrom, squeeze, hc, Gap.text] using hword

theorem normalizeSpace_eq_squeeze (text : List Char) : normalizeSpace text = squeeze .start text :=
  join_wordsFrom [] text

theorem wordsFrom_append {word w rest : List Char} (hw : ∀ c ∈ w, isBlank c = false) :
    wordsFrom word (w ++ rest) = wordsFrom (w.reverse ++ word) rest := by
  induction w generalizing word with
  | nil => rfl
  | cons c w ih =>
    rw [List.cons_append, wordsFrom, if_neg (by simp [hw c (by simp)]),
      ih fun c hc => hw c (by simp [hc])]
    simp

theorem words_append {w rest : List Char} (hne : w ≠ []) (hw : ∀ c ∈ w, isBlank c = false)
    (hrest : ∀ c, rest.head? = some c → isBlank c = true) :
    words (w ++ rest) = w :: words rest := by
  rw [words, wordsFrom_append hw, List.append_nil]
  cases rest with
  | nil => simp [wordsFrom, words, hne]
  | cons c rest => simp [wordsFrom, words, hrest c rfl, hne]

theorem words_cons_blank {c : Char} (hc : isBlank c = true) (text : List Char) :
    words (c :: text) = words text := by
  simp [words, wordsFrom, hc]

theorem words_append_blanks {blanks : List Char} (hb : ∀ c ∈ blanks, isBlank c = true)
    (text : List Char) : words (blanks ++ text) = words text := by
  induction blanks with
  | nil => rfl
  | cons c blanks ih =>
    rw [List.cons_append, words_cons_blank (hb c (by simp)), ih fun c hc => hb c (by simp [hc])]

theorem isBlank_of_mem_takeWhile {text : List Char} :
    ∀ c ∈ text.takeWhile (!isBlank ·), isBlank c = false := fun c hc => by
  simpa using List.all_eq_true.mp List.all_takeWhile c hc

theorem isBlank_of_head?_dropWhile (text : List Char) :
    ∀ c, (text.dropWhile (!isBlank ·)).head? = some c → isBlank c = true := by
  intro c hc
  have hnot := List.head?_dropWhile_not (!isBlank ·) text
  rw [hc] at hnot
  simpa using hnot

theorem words_cons {c : Char} (hc : isBlank c = false) (text : List Char) :
    words (c :: text) =
      (c :: text).takeWhile (!isBlank ·) :: words ((c :: text).dropWhile (!isBlank ·)) := by
  have hne : (c :: text).takeWhile (!isBlank ·) ≠ [] := by simp [hc]
  have hwords := words_append hne isBlank_of_mem_takeWhile
    (isBlank_of_head?_dropWhile (c :: text))
  rwa [List.takeWhile_append_dropWhile] at hwords

/-- A text has no words, or a first word and what comes behind it. -/
theorem words_cases (text : List Char) :
    (words text = [] ∧ ∀ c ∈ text, isBlank c = true) ∨
      ∃ blanks w rest, text = blanks ++ (w ++ rest) ∧ (∀ c ∈ blanks, isBlank c = true) ∧ w ≠ [] ∧
        (∀ c ∈ w, isBlank c = false) ∧ (∀ c, rest.head? = some c → isBlank c = true) ∧
        words text = w :: words rest := by
  induction text with
  | nil => exact .inl ⟨rfl, by simp⟩
  | cons c text ih =>
    by_cases hc : isBlank c = true
    · rw [words_cons_blank hc]
      rcases ih with ⟨hnil, hall⟩ | ⟨blanks, w, rest, rfl, hblanks, hne, hw, hrest, hwords⟩
      · exact .inl ⟨hnil, by simpa [hc] using hall⟩
      · exact .inr ⟨c :: blanks, w, rest, rfl, by simpa [hc] using hblanks, hne, hw, hrest, hwords⟩
    · have hnot : isBlank c = false := by simpa using hc
      refine .inr ⟨[], _, _, ?_, by simp, by simp [hnot], isBlank_of_mem_takeWhile,
        isBlank_of_head?_dropWhile _, words_cons hnot text⟩
      rw [List.nil_append, List.takeWhile_append_dropWhile]

/-- Putting single spaces between the words of a text leaves its first word. -/
theorem head?_words_normalizeSpace (text : List Char) :
    (words (normalizeSpace text)).head? = (words text).head? := by
  rcases words_cases text with ⟨hnil, -⟩ | ⟨_, w, rest, -, -, hne, hw, -, hwords⟩
  · rw [normalizeSpace, hnil]
    rfl
  · have hjoin : ∃ more, normalizeSpace text = w ++ more ∧
        ∀ c, more.head? = some c → isBlank c = true := by
      rw [normalizeSpace, hwords, join_cons]
      split
      · exact ⟨[], by simp, by simp⟩
      · refine ⟨_, rfl, fun c hc => ?_⟩
        obtain rfl : ' ' = c := by simpa using hc
        decide
    obtain ⟨more, hmore, hblank⟩ := hjoin
    rw [hmore, words_append hne hw hblank, hwords, List.head?_cons, List.head?_cons]

end Text
end Outline
