import Mathlib.Algebra.GroupWithZero.Nat
import Mathlib.Data.List.Induction
import Outline.Declaration.Docstring
import Outline.Proofs.Declaration.AlikeName
import Outline.Proofs.Declaration.Parameter

/-!
# Documentation blocks read back

A block comment is entered from below, and the walk ends at the first `/*` that it meets.  In
a block with one text a line, each behind a star, that is the opening of the block only when
no text holds these two characters.  Otherwise what the walk keeps starts in the middle of
the last text that does.
-/

namespace Outline

/-! ## Marks that a text holds -/

namespace Text

theorem fromWord?_eq_none_iff {word : List Char} (hne : word ≠ []) {text : List Char} :
    fromWord? word text = none ↔ ¬ word <:+: text := by
  induction text with
  | nil => simp [fromWord?, hne]
  | cons c text ih =>
    rw [fromWord?, List.infix_cons_iff, not_or, ← ih]
    by_cases h : startsWith (c :: text) word = true
    · obtain ⟨rest, hrest⟩ := startsWith_iff.mp h
      have hprefix : word <+: c :: text := ⟨rest, hrest.symm⟩
      simp [h, hprefix]
    · have hprefix : ¬ word <+: c :: text := by
        rintro ⟨rest, hrest⟩
        exact h (startsWith_iff.mpr ⟨rest, hrest.symm⟩)
      simp [h, hprefix]

/-- The text from an occurrence on starts with the word. -/
theorem exists_of_fromWord? {word text found : List Char} (h : fromWord? word text = some found) :
    (∃ front, text = front ++ found) ∧ ∃ rest, found = word ++ rest := by
  induction text with
  | nil =>
    rw [fromWord?] at h
    split at h
    · next hword =>
      obtain rfl : [] = found := Option.some.inj h
      exact ⟨⟨[], rfl⟩, [], by simpa using hword⟩
    · cases h
  | cons c text ih =>
    rw [fromWord?] at h
    split at h
    · next hstart =>
      obtain rfl : c :: text = found := Option.some.inj h
      exact ⟨⟨[], rfl⟩, startsWith_iff.mp hstart⟩
    · obtain ⟨⟨front, rfl⟩, hrest⟩ := ih h
      exact ⟨⟨c :: front, rfl⟩, hrest⟩

/-- The part of a text from a word on does not depend on characters in front that do not start
the word. -/
theorem fromWord?_cons_of_ne {w c : Char} {word text : List Char} (h : w ≠ c) :
    fromWord? (w :: word) (c :: text) = fromWord? (w :: word) text := by
  rw [fromWord?, startsWith, dropLead?, if_neg h]
  rfl

/-! ## How many characters of a text are not blank -/

theorem countP_trim (text : List Char) :
    (trim text).countP (!isBlank ·) = text.countP (!isBlank ·) := by
  have hdrop : ∀ l : List Char,
      (l.dropWhile isBlank).countP (!isBlank ·) = l.countP (!isBlank ·) := by
    intro l
    conv_rhs => rw [← List.takeWhile_append_dropWhile (p := isBlank) (l := l)]
    have htake : (l.takeWhile isBlank).countP (!isBlank ·) = 0 := by
      rw [List.countP_eq_zero]
      intro c hc
      simp [List.all_eq_true.mp List.all_takeWhile c hc]
    rw [List.countP_append, htake, Nat.zero_add]
  rw [trim, trimEnd, List.countP_reverse, hdrop, List.countP_reverse, trimStart, hdrop]

theorem countP_join_feed (pieces : List (List Char)) :
    (join ['\n'] pieces).countP (!isBlank ·) =
      (pieces.map fun piece => piece.countP (!isBlank ·)).sum := by
  induction pieces with
  | nil => rfl
  | cons piece pieces ih =>
    cases pieces with
    | nil => simp [join]
    | cons next pieces =>
      have hfeed : isBlank '\n' = true := by decide
      rw [join, List.intercalate_cons_cons, List.countP_append, List.countP_append, ← join, ih]
      simp [hfeed]

theorem join_feed_concat_nil {pieces : List (List Char)} (hne : pieces ≠ []) :
    join ['\n'] (pieces ++ [[]]) = join ['\n'] pieces ++ ['\n'] := by
  induction pieces with
  | nil => exact absurd rfl hne
  | cons piece pieces ih =>
    cases pieces with
    | nil => simp [join]
    | cons next pieces =>
      have hrest := ih (List.cons_ne_nil _ _)
      rw [join, join, List.cons_append] at hrest
      rw [join, join, List.cons_append, List.cons_append, List.intercalate_cons_cons,
        List.intercalate_cons_cons, hrest, ← List.append_assoc]

end Text

namespace Docstring

/-! ## Lines of a block -/

/-- A line of documentation as it is written in a block: nothing blank at its ends, and nothing
that ends the comment. -/
structure Written (text : List Char) : Prop where
  trimmed : Text.trim text = text
  inside : ¬ ['*', '/'] <:+: text

/-- A line of documentation behind its star. -/
def starred (text : List Char) : List Char := [' ', '*', ' '] ++ text

/-- What the walk keeps of a block: one text per line, the opening's empty one first.  One that
holds a `/*` is taken for the opening, so what stands above is forgotten and the text starts
with the mark. -/
def kept (texts : List (List Char)) : List (List Char) :=
  texts.foldl
    (fun above text =>
      match Text.fromWord? ['/', '*'] text with
      | some opening => [unmark opening]
      | none => above ++ [text])
    [[]]

example : kept ["a".toList, "b /*c".toList, "d".toList] = ["c".toList, "d".toList] := by decide

theorem kept_concat (texts : List (List Char)) (text : List Char) :
    kept (texts ++ [text]) =
      match Text.fromWord? ['/', '*'] text with
      | some opening => [unmark opening]
      | none => kept texts ++ [text] := by
  rw [kept, List.foldl_append]
  rfl

/-- Of the words at the start of a line one is dropped. -/
theorem exists_eq_dropOpening {word : String} {words : List String} {line : List Char}
    (hword : word ∈ words) (h : word.toList <+: line) :
    ∃ w ∈ words, line = w.toList ++ dropOpening words line := by
  induction words with
  | nil => cases hword
  | cons w words ih =>
    rw [dropOpening]
    cases hdrop : Text.dropLead? w.toList line with
    | some rest => exact ⟨w, List.mem_cons_self, Text.dropLead?_eq_some_iff.mp hdrop⟩
    | none =>
      have hne : word ≠ w := by
        rintro rfl
        obtain ⟨rest, rfl⟩ := h
        rw [Text.dropLead?_eq_some_iff.mpr rfl] at hdrop
        cases hdrop
      obtain ⟨v, hv, heq⟩ := ih ((List.mem_cons.mp hword).resolve_left hne)
      exact ⟨v, List.mem_cons_of_mem w hv, heq⟩

/-- What is left of a line stands behind the mark at its start. -/
theorem isInfix_unmark (line : List Char) :
    unmark line <:+: dropOpening ["/**", "/*!", "/*", "///", "//!", "//"] (Text.trim line) := by
  have hclosing : ∀ line : List Char,
      Text.trim ((Text.dropTrail? ['*', '/'] line).getD line) <:+: line := by
    intro line
    refine (Text.isInfix_trim _).trans ?_
    cases hdrop : Text.dropTrail? ['*', '/'] line with
    | none => exact List.infix_rfl
    | some rest => exact ⟨[], ['*', '/'], (Text.eq_append_of_dropTrail? hdrop).symm⟩
  refine List.IsInfix.trans ?_ (hclosing _)
  rw [unmark]
  split
  · next rest hstar =>
    rw [hstar]
    split
    · exact List.infix_rfl
    · exact (Text.isInfix_trim rest).trans (List.suffix_cons '*' rest).isInfix
  · exact List.infix_rfl

section Written

variable {text : List Char}

/-- What ends as a written text does has no blanks at its end. -/
theorem Written.trimEnd_eq (h : Written text) {line : List Char}
    (hlast : line.getLast? = text.getLast?) : Text.trimEnd line = line := by
  obtain ⟨-, -, -, hend⟩ := Text.exists_eq_trimEnd_append (Text.trimStart text)
  have htrim : Text.trimEnd (Text.trimStart text) = text := h.trimmed
  rw [htrim, ← hlast] at hend
  have htrimEnd : Text.trimEnd (line ++ []) = line := Text.trimEnd_append_blanks (by simp) hend
  rwa [List.append_nil] at htrimEnd

theorem Written.trim_star (h : Written text) (hne : text ≠ []) :
    Text.trim ('*' :: ' ' :: text) = '*' :: ' ' :: text :=
  h.trimEnd_eq (List.getLast?_append_of_ne_nil ['*', ' '] hne)

/-- A line behind its star: the star alone when there is nothing to say. -/
theorem Written.trim_starred (h : Written text) :
    Text.trim (starred text) = if text = [] then ['*'] else '*' :: ' ' :: text := by
  split
  · next hnil => rw [hnil]; decide
  · next hne => exact h.trim_star hne

theorem Written.fromWord?_trim (h : Written text) :
    Text.fromWord? ['/', '*'] (Text.trim (starred text)) = Text.fromWord? ['/', '*'] text := by
  rw [h.trim_starred]
  split
  · next hnil => rw [hnil]; decide
  · rw [Text.fromWord?_cons_of_ne (by decide), Text.fromWord?_cons_of_ne (by decide)]

theorem Written.dropTrail?_starred (h : Written text) :
    Text.dropTrail? ['*', '/'] ('*' :: ' ' :: text) = none := by
  rw [Option.eq_none_iff_forall_ne_some]
  intro rest hrest
  have hsuffix : ['*', '/'] <:+ '*' :: ' ' :: text :=
    ⟨rest, (Text.eq_append_of_dropTrail? hrest).symm⟩
  rw [List.suffix_cons_iff, List.suffix_cons_iff] at hsuffix
  rcases hsuffix with heq | heq | hsuffix
  · simp at heq
  · simp at heq
  · exact h.inside hsuffix.isInfix

/-- The star of a line is the only mark that is taken off. -/
theorem Written.unmark_trim (h : Written text) : unmark (Text.trim (starred text)) = text := by
  rw [h.trim_starred]
  split
  · next hnil => rw [hnil]; decide
  · next hne =>
    have htrim : Text.trim ('*' :: ' ' :: text) = '*' :: ' ' :: text := h.trim_star hne
    have hopening : dropOpening ["/**", "/*!", "/*", "///", "//!", "//"] ('*' :: ' ' :: text) =
        '*' :: ' ' :: text := rfl
    rw [unmark, htrim, hopening, h.dropTrail?_starred, Option.getD_none, htrim]
    exact h.trimmed

/-- The mark at the start of a line is dropped, and it is not blank. -/
theorem countP_dropOpening_lt (rest : List Char) :
    (dropOpening ["/**", "/*!", "/*", "///", "//!", "//"] (['/', '*'] ++ rest)).countP
        (!Text.isBlank ·) < (['/', '*'] ++ rest).countP (!Text.isBlank ·) := by
  have hmem : "/*" ∈ ["/**", "/*!", "/*", "///", "//!", "//"] := by decide
  have hmark : ∀ w ∈ ["/**", "/*!", "/*", "///", "//!", "//"],
      0 < w.toList.countP (!Text.isBlank ·) := by decide
  obtain ⟨w, hw, hdrop⟩ := exists_eq_dropOpening hmem (List.prefix_append "/*".toList rest)
  conv_rhs => rw [show ['/', '*'] ++ rest = _ from hdrop, List.countP_append]
  exact Nat.lt_add_of_pos_left (hmark w hw)

/-- A `/*` in a written text is taken off with the mark of a comment that it starts. -/
theorem Written.countP_unmark_lt (h : Written text) {opening : List Char}
    (hopening : Text.fromWord? ['/', '*'] text = some opening) :
    (unmark opening).countP (!Text.isBlank ·) < text.countP (!Text.isBlank ·) := by
  obtain ⟨⟨front, rfl⟩, rest, rfl⟩ := Text.exists_of_fromWord? hopening
  have hlast : (['/', '*'] ++ rest).getLast? = (front ++ (['/', '*'] ++ rest)).getLast? :=
    (List.getLast?_append_of_ne_nil front (List.cons_ne_nil _ _)).symm
  have htrim : Text.trim (['/', '*'] ++ rest) = ['/', '*'] ++ rest := h.trimEnd_eq hlast
  have hunmark := (isInfix_unmark (['/', '*'] ++ rest)).sublist.countP_le (p := (!Text.isBlank ·))
  rw [htrim] at hunmark
  rw [List.countP_append]
  exact Nat.lt_of_le_of_lt hunmark
    (Nat.lt_of_lt_of_le (countP_dropOpening_lt rest) (Nat.le_add_left _ _))

end Written

/-! ## The walk over a block -/

/-- A block with one line of documentation on each of its lines. -/
def docBlock (texts : List (List Char)) : List (List Char) :=
  "/**".toList :: texts.map starred ++ [" */".toList]

/-- From below, the lines of a block end at the last one that holds a `/*`. -/
theorem map_unmark_block {texts : List (List Char)} (h : ∀ text ∈ texts, Written text)
    (collected above : List (List Char)) :
    (block collected ((texts.map starred).reverse ++ "/**".toList :: above)).map unmark =
      kept texts ++ collected.map unmark := by
  induction texts using List.reverseRecOn generalizing collected with
  | nil => rfl
  | append_singleton texts text ih =>
    have htext : Written text := h text (by simp)
    rw [List.map_append, List.reverse_append, List.map_singleton, List.reverse_singleton,
      List.singleton_append, List.cons_append, block, htext.fromWord?_trim, kept_concat]
    cases Text.fromWord? ['/', '*'] text with
    | some opening => rfl
    | none =>
      rw [ih (fun x hx => h x (by simp [hx])), List.map_cons, htext.unmark_trim, List.append_assoc,
        List.singleton_append]

/-- A block closed right above a declaration is walked from its closing mark, unless a word to be
passed over starts that mark. -/
theorem map_unmark_commentLines {texts : List (List Char)} (h : ∀ text ∈ texts, Written text)
    {skipped : List String} (hskipped : ∀ word ∈ skipped, ¬ word.toList <+: ['*', '/'])
    (above : List (List Char)) :
    (commentLines skipped [] ((docBlock texts).reverse ++ above)).map unmark =
      kept texts ++ [[]] := by
  have hany : (skipped.any fun word => Text.startsWith ['*', '/'] word.toList) = false := by
    rw [List.any_eq_false]
    intro word hword hstart
    obtain ⟨rest, hrest⟩ := Text.startsWith_iff.mp hstart
    exact hskipped word hword ⟨rest, hrest.symm⟩
  have hclosing : commentLines skipped [] ((docBlock texts).reverse ++ above) =
      block [['*', '/']] ((texts.map starred).reverse ++ "/**".toList :: above) := by
    have hreverse : (docBlock texts).reverse ++ above =
        " */".toList :: ((texts.map starred).reverse ++ "/**".toList :: above) := by
      simp [docBlock]
    have htrim : Text.trim " */".toList = ['*', '/'] := by decide
    rw [hreverse, commentLines, htrim]
    simp only [hany]
    rfl
  rw [hclosing, map_unmark_block h]
  rfl

theorem kept_ne_nil (texts : List (List Char)) : kept texts ≠ [] := by
  rcases List.eq_nil_or_concat texts with rfl | ⟨texts, text, rfl⟩
  · simp [kept]
  · rw [List.concat_eq_append, kept_concat]
    cases Text.fromWord? ['/', '*'] text <;> simp

theorem kept_of_unmarked {texts : List (List Char)}
    (h : ∀ text ∈ texts, ¬ ['/', '*'] <:+: text) : kept texts = [] :: texts := by
  induction texts using List.reverseRecOn with
  | nil => rfl
  | append_singleton texts text ih =>
    rw [kept_concat, (Text.fromWord?_eq_none_iff (List.cons_ne_nil _ _)).mpr (h text (by simp)),
      ih fun x hx => h x (by simp [hx])]
    rfl

/-- A text that holds a `/*` loses at least that. -/
theorem countP_kept_lt {texts : List (List Char)} (h : ∀ text ∈ texts, Written text)
    (hopening : ∃ text ∈ texts, ['/', '*'] <:+: text) :
    (Text.join ['\n'] (kept texts)).countP (!Text.isBlank ·) <
      (Text.join ['\n'] texts).countP (!Text.isBlank ·) := by
  rw [Text.countP_join_feed, Text.countP_join_feed]
  induction texts using List.reverseRecOn with
  | nil => simp at hopening
  | append_singleton texts text ih =>
    have htext : Written text := h text (by simp)
    rw [kept_concat]
    cases hfrom : Text.fromWord? ['/', '*'] text with
    | some opening =>
      have hlt := htext.countP_unmark_lt hfrom
      simp only [List.map_append, List.map_cons, List.map_nil, List.sum_append, List.sum_cons,
        List.sum_nil]
      omega
    | none =>
      have hnot : ¬ ['/', '*'] <:+: text :=
        (Text.fromWord?_eq_none_iff (List.cons_ne_nil _ _)).mp hfrom
      have hlt := ih (fun x hx => h x (by simp [hx])) (by
        obtain ⟨x, hx, hinfix⟩ := hopening
        rcases List.mem_append.mp hx with hx | hx
        · exact ⟨x, hx, hinfix⟩
        · exact absurd (List.mem_singleton.mp hx ▸ hinfix) hnot)
      simp only [List.map_append, List.map_cons, List.map_nil, List.sum_append, List.sum_cons,
        List.sum_nil]
      omega

/-- The documentation of a declaration below a block: what the walk keeps of the texts in it,
which is all of them when none holds a `/*`, and not otherwise. -/
theorem find_docBlock (front rear : List (List Char)) {texts : List (List Char)}
    (h : ∀ text ∈ texts, Written text) {skipped : List String}
    (hskipped : ∀ word ∈ skipped, ¬ word.toList <+: ['*', '/']) (declaration : List Char) :
    find (front ++ docBlock texts ++ declaration :: rear) (front.length + texts.length + 3)
        skipped = Text.trim (Text.join ['\n'] (kept texts)) ∧
      (find (front ++ docBlock texts ++ declaration :: rear) (front.length + texts.length + 3)
          skipped = Text.trim (Text.join ['\n'] texts) ↔
        ∀ text ∈ texts, ¬ ['/', '*'] <:+: text) := by
  have hlines : (front ++ docBlock texts ++ declaration :: rear).take
      (front.length + texts.length + 3 - 1) = front ++ docBlock texts := by
    rw [List.take_left' (by simp [docBlock]; omega)]
  have hfind : find (front ++ docBlock texts ++ declaration :: rear)
      (front.length + texts.length + 3) skipped = Text.trim (Text.join ['\n'] (kept texts)) := by
    rw [find, hlines, List.reverse_append, map_unmark_commentLines h hskipped,
      Text.join_feed_concat_nil (kept_ne_nil texts), Text.trim_append_blank (by decide)]
  refine ⟨hfind, ?_⟩
  rw [hfind]
  constructor
  · intro heq text htext hinfix
    have hcount := congrArg (List.countP (!Text.isBlank ·)) heq
    rw [Text.countP_trim, Text.countP_trim] at hcount
    exact absurd hcount (Nat.ne_of_lt (countP_kept_lt h ⟨text, htext, hinfix⟩))
  · intro hnot
    rw [kept_of_unmarked hnot]
    cases texts with
    | nil => rfl
    | cons text texts => rw [Text.join, List.intercalate_cons_cons]; rfl

/-- A path pattern in a text: what stands in front of its slash is lost, with the line above. -/
theorem find_docBlock_path :
    find (["int a;".toList] ++ docBlock ["Reads all.".toList, "@see a/*.java".toList] ++
        ["void f();".toList]) 6 ["@"] = ".java".toList ∧
      find (["int a;".toList] ++ docBlock ["Reads all.".toList, "@see a/*.java".toList] ++
        ["void f();".toList]) 6 ["@"] ≠ "Reads all.\n@see a/*.java".toList := by
  have h : ∀ text ∈ ["Reads all.".toList, "@see a/*.java".toList], Written text := by
    intro text htext
    rcases List.mem_pair.mp htext with rfl | rfl
    · exact ⟨by decide +kernel, by decide +kernel⟩
    · exact ⟨by decide +kernel, by decide +kernel⟩
  have hskipped : ∀ word ∈ ["@"], ¬ word.toList <+: ['*', '/'] := by decide +kernel
  obtain ⟨hfind, hwhole⟩ := find_docBlock ["int a;".toList] [] h hskipped "void f();".toList
  have hkept : Text.trim (Text.join ['\n'] (kept ["Reads all.".toList, "@see a/*.java".toList])) =
      ".java".toList := by decide +kernel
  refine ⟨hfind.trans hkept, fun heq => ?_⟩
  have hjoin : Text.trim (Text.join ['\n'] ["Reads all.".toList, "@see a/*.java".toList]) =
      "Reads all.\n@see a/*.java".toList := by decide +kernel
  exact hwhole.mp (heq.trans hjoin.symm) _ (List.mem_pair.mpr (.inr rfl)) (by decide +kernel)

end Docstring
end Outline
