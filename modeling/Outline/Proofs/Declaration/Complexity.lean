import Outline.Declaration.Complexity
import Outline.Proofs.Pattern.Found
import Outline.Proofs.Pattern.Separate

/-!
# The branches of a body

Each word and each operator that is counted begins with a character of its own: the words with a
letter, the operators with one of `?`, `&` and `|`.  So a body has no more branches than characters,
and none of them reaches over a semicolon.
-/

namespace Outline

namespace Text

/-- The occurrences of a word that are counted start at different copies of its
first character. -/
theorem countFrom_le (first : Char) (word : List Char) (pending : Nat) (text : List Char) :
    countFrom (first :: word) pending text ≤ text.countP (· == first) := by
  induction text generalizing pending with
  | nil => exact Nat.zero_le _
  | cons c text ih =>
    cases pending with
    | succ pending =>
      rw [countFrom, List.countP_cons]
      exact Nat.le_trans (ih pending) (Nat.le_add_right _ _)
    | zero =>
      rw [countFrom, List.countP_cons]
      split
      · next hstart =>
        obtain ⟨rest, hrest⟩ := startsWith_iff.mp hstart
        obtain ⟨rfl, _⟩ := List.cons.inj hrest
        have := ih ((c :: word).length - 1)
        simp only [BEq.rfl, if_true]
        omega
      · exact Nat.le_trans (ih 0) (Nat.le_add_right _ _)

end Text

namespace Pattern

/-- The matches that are found start at different characters, none of which the
pattern avoids. -/
theorem length_findAllFrom_le {p : Pattern} {bads : List Char} (hc : p.consumes = true)
    (hp : bads.all p.avoids = true) (resume : Nat) (previous : Option Char) (offset : Nat)
    (text : List Char) :
    (p.findAllFrom resume previous offset text).length ≤ text.countP (!bads.contains ·) := by
  have hhere : ∀ {cursor : Cursor} {found : Match}, p.matchAt cursor = some found →
      ∃ a rest, cursor.rest = a :: rest ∧ (!bads.contains a) = true := by
    intro cursor found h
    obtain ⟨d, ms, hm, _⟩ := exists_of_matchAt h
    obtain ⟨read, hr⟩ := hm.reads
    cases read with
    | nil => exact absurd rfl (hm.ne_nil hc hr)
    | cons a read =>
      refine ⟨a, read ++ d.rest, hr.1, ?_⟩
      rw [Bool.not_eq_true', ← Bool.not_eq_true, List.contains_iff_mem]
      intro ha
      obtain ⟨read', hr', hne⟩ := hm.head?_ne (List.all_eq_true.mp hp a ha)
      have hread : read' = a :: read := List.append_cancel_right (hr'.1.symm.trans hr.1)
      exact hne (by rw [hread]; rfl)
  induction text generalizing resume previous offset with
  | nil =>
    rw [findAllFrom]
    split
    · cases hmatch : p.matchAt ⟨previous, offset, []⟩ with
      | none => exact Nat.zero_le _
      | some found =>
        obtain ⟨a, rest, ha, _⟩ := hhere hmatch
        simp at ha
    · exact Nat.zero_le _
  | cons c text ih =>
    rw [findAllFrom, List.countP_cons]
    simp only [List.length_append]
    split
    · cases hmatch : p.matchAt ⟨previous, offset, c :: text⟩ with
      | none =>
        have := ih resume (some c) (offset + c.utf8Size)
        simp only [Option.toList_none, List.length_nil, Option.map_none, Option.getD_none]
        omega
      | some found =>
        obtain ⟨a, rest, ha, ht⟩ := hhere hmatch
        obtain ⟨rfl, _⟩ := List.cons.inj ha
        have := ih found.stop (some c) (offset + c.utf8Size)
        simp only [Option.toList_some, List.length_singleton, Option.map_some, Option.getD_some,
          ht, if_true]
        omega
    · have := ih resume (some c) (offset + c.utf8Size)
      simp only [Option.toList_none, List.length_nil, Option.map_none, Option.getD_none]
      omega

end Pattern

namespace BranchCounts

theorem countTernaries_le (previous : Option Char) (text : List Char) :
    countTernaries previous text ≤ text.countP (· == '?') := by
  induction text generalizing previous with
  | nil => exact Nat.zero_le _
  | cons c text ih =>
    have h := ih (if Text.isAsciiBlank c then previous else some c)
    rw [countTernaries, List.countP_cons]
    split
    · next hc =>
      simp only [hc.1, BEq.rfl, if_true] at h ⊢
      omega
    · exact Nat.le_trans h (Nat.le_add_right _ _)

theorem countP_kinds_le (text : List Char) :
    text.countP (fun x => !(['?', '&', '|'].contains x)) + text.countP (· == '?')
      + text.countP (· == '&') + text.countP (· == '|') ≤ text.length := by
  induction text with
  | nil => exact Nat.le_refl 0
  | cons c text ih =>
    -- A character is of one of the four kinds only.
    have hone : (if (!(['?', '&', '|'].contains c)) = true then 1 else 0)
        + (if (c == '?') = true then 1 else 0) + (if (c == '&') = true then 1 else 0)
        + (if (c == '|') = true then 1 else 0) ≤ 1 := by
      by_cases hq : c = '?'
      · subst hq; decide
      · by_cases ha : c = '&'
        · subst ha; decide
        · by_cases ho : c = '|'
          · subst ho; decide
          · simp [hq, ha, ho]
    simp only [List.countP_cons, List.length_cons]
    omega

theorem points_ofBody_le (body : List Char) : (ofBody body).points ≤ body.length := by
  have hk : (keyword.findAll body).length ≤ body.countP (fun x => !(['?', '&', '|'].contains x)) :=
    Pattern.length_findAllFrom_le (by decide) (by decide) 0 none 0 body
  have ht : countTernaries none body ≤ body.countP (· == '?') := countTernaries_le none body
  have ha : Text.count ['&', '&'] body ≤ body.countP (· == '&') :=
    Text.countFrom_le '&' ['&'] 0 body
  have ho : Text.count ['|', '|'] body ≤ body.countP (· == '|') :=
    Text.countFrom_le '|' ['|'] 0 body
  have hall := countP_kinds_le body
  show (keyword.findAll body).length + countTernaries none body + Text.count ['&', '&'] body
    + Text.count ['|', '|'] body ≤ body.length
  omega

end BranchCounts

theorem complexity_le (body : List Char) : complexity body ≤ 1 + body.length :=
  Nat.add_le_add_left (BranchCounts.points_ofBody_le body) 1

end Outline

/-!
## Branches of statements

No word or operator that is counted has a semicolon in it, and none looks past one.  So the
branches of two statements are those of the one and those of the other.
-/

namespace Outline

namespace Text

theorem trimStart_append_cons {c : Char} (hc : isBlank c = false) (front back : List Char) :
    trimStart (front ++ c :: back) = trimStart front ++ c :: back := by
  rw [trimStart, trimStart, List.dropWhile_append]
  split
  · next hblank =>
    rw [List.isEmpty_iff.mp hblank, List.dropWhile_cons_of_neg (by simp [hc])]
    rfl
  · rfl

/-- Occurrences of a word are counted apart on both sides of a character that it lacks. -/
theorem countFrom_separate {word : List Char} {wall : Char} (hne : word ≠ []) (hw : wall ∉ word)
    {pending : Nat} {front : List Char} (hle : pending ≤ front.length) (back : List Char) :
    countFrom word pending (front ++ wall :: back) =
      countFrom word pending front + count word back := by
  have hstarts : ∀ front : List Char,
      startsWith (front ++ wall :: back) word = startsWith front word := fun front =>
    startsWith_append (by rintro c ⟨⟩; exact hw)
  induction front generalizing pending with
  | nil =>
    obtain rfl : pending = 0 := Nat.le_zero.mp hle
    have hnot : startsWith (wall :: back) word = false := by
      rw [← List.nil_append (wall :: back), hstarts, ← Bool.not_eq_true, startsWith_iff]
      rintro ⟨rest, hrest⟩
      exact hne (List.append_eq_nil_iff.mp hrest.symm).1
    have hskip : countFrom word 0 (wall :: back) = countFrom word 0 back := by
      rw [countFrom, hnot]
      rfl
    rw [List.nil_append, hskip, countFrom, Nat.zero_add, count]
  | cons c front ih =>
    cases pending with
    | succ pending => exact ih (Nat.le_of_succ_le_succ hle)
    | zero =>
      rw [List.cons_append, countFrom, countFrom, ← List.cons_append, hstarts]
      split
      · next hstart =>
        -- The word stands in front of the character, and so does what is left of it.
        obtain ⟨rest, hrest⟩ := startsWith_iff.mp hstart
        have hlength := congrArg List.length hrest
        rw [List.length_cons, List.length_append] at hlength
        rw [ih (by omega), Nat.add_right_comm]
      · exact ih (Nat.zero_le _)

theorem count_separate {word : List Char} {wall : Char} (hne : word ≠ []) (hw : wall ∉ word)
    (front back : List Char) :
    count word (front ++ wall :: back) = count word front + count word back :=
  countFrom_separate hne hw (Nat.zero_le _) back

end Text

namespace BranchCounts

/-- What comes behind a semicolon makes no wildcard of a question mark in front of it. -/
theorem isWildcard_append (previous : Option Char) (front back : List Char) :
    isWildcard previous (front ++ ';' :: back) = isWildcard previous front := by
  have hstarts : ∀ word : String, ';' ∉ word.toList →
      Text.startsWith (Text.trimStart front ++ ';' :: back) word.toList =
        Text.startsWith (Text.trimStart front) word.toList := by
    intro word hword
    refine Text.startsWith_append ?_
    rintro c ⟨⟩
    exact hword
  rw [isWildcard, isWildcard, Text.trimStart_append_cons (by decide)]
  simp only [List.any_cons, List.any_nil, hstarts ">" (by decide), hstarts "," (by decide),
    hstarts "extends " (by decide), hstarts "super " (by decide)]

/-- Characters in front that make the same wildcards are the same to the count. -/
theorem countTernaries_congr {x y : Option Char}
    (h : ∀ rest, isWildcard x rest = isWildcard y rest) (text : List Char) :
    countTernaries x text = countTernaries y text := by
  induction text with
  | nil => rfl
  | cons c text ih =>
    have hnext : countTernaries (if Text.isAsciiBlank c then x else some c) text =
        countTernaries (if Text.isAsciiBlank c then y else some c) text := by
      split
      · exact ih
      · rfl
    rw [countTernaries, countTernaries, h, hnext]

theorem countTernaries_separate (previous : Option Char) (front back : List Char) :
    countTernaries previous (front ++ ';' :: back) =
      countTernaries previous front + countTernaries none back := by
  induction front generalizing previous with
  | nil =>
    have hskip : countTernaries previous (';' :: back) = countTernaries (some ';') back := by
      rw [countTernaries]
      simp [Text.isAsciiBlank]
    have hnone : countTernaries (some ';') back = countTernaries none back :=
      countTernaries_congr (fun rest => by simp [isWildcard]) back
    rw [List.nil_append, hskip, hnone, countTernaries, Nat.zero_add]
  | cons c front ih =>
    rw [List.cons_append, countTernaries, countTernaries, isWildcard_append, ih]
    split
    · exact Nat.add_right_comm _ _ _
    · rfl

theorem ofBody_separate (front back : List Char) :
    ofBody (front ++ ';' :: back) = ofBody front + ofBody back := by
  have hkeywords : (keyword.findAll (front ++ ';' :: back)).length =
      (keyword.findAll front).length + (keyword.findAll back).length := by
    rw [Pattern.findAll_separate (by decide) (by decide), List.length_append, List.length_map]
  have hands : Text.count ['&', '&'] (front ++ ';' :: back) =
      Text.count ['&', '&'] front + Text.count ['&', '&'] back :=
    Text.count_separate (by decide) (by decide) front back
  have hors : Text.count ['|', '|'] (front ++ ';' :: back) =
      Text.count ['|', '|'] front + Text.count ['|', '|'] back :=
    Text.count_separate (by decide) (by decide) front back
  rw [ofBody, hkeywords, countTernaries_separate, hands, hors]
  rfl

theorem points_add (a b : BranchCounts) : (a + b).points = a.points + b.points := by
  show a.keywords + b.keywords + (a.ternaries + b.ternaries) + (a.ands + b.ands) + (a.ors + b.ors) =
    a.keywords + a.ternaries + a.ands + a.ors + (b.keywords + b.ternaries + b.ands + b.ors)
  omega

end BranchCounts

theorem complexity_separate (front back : List Char) :
    complexity (front ++ ';' :: back) + 1 = complexity front + complexity back := by
  rw [complexity, complexity, complexity, BranchCounts.ofBody_separate, BranchCounts.points_add]
  omega

/-- A complexity that fits into 32 bits is added up in them without a loss. -/
theorem toNat_complexityWord {body : List Char} (h : complexity body < UInt32.size) :
    (complexityWord body).toNat = complexity body := by
  have hone : (1 : UInt32).toNat = 1 := rfl
  have hsize : UInt32.size = 4294967296 := rfl
  rw [complexity] at h
  rw [complexityWord, UInt32.toNat_add, UInt32.toNat_ofNat', complexity]
  omega

theorem complexity_lt_of_separate {front back : List Char}
    (h : Text.width front + Text.width back < UInt32.size - 1) :
    complexity (front ++ ';' :: back) < UInt32.size ∧ complexity front < UInt32.size ∧
      complexity back < UInt32.size := by
  have hsum := complexity_separate front back
  have hfront := complexity_le front
  have hback := complexity_le back
  have hfrontLength := Text.length_le_width front
  have hbackLength := Text.length_le_width back
  omega

/-- The branches of two statements with a semicolon between them are those of the two statements,
kind by kind, and the one that a complexity starts with is counted once less.  Added up in 32 bits
nothing is lost, as long as the two statements have fewer than `UInt32.size - 1` bytes together. -/
theorem complexity_adds_up (front back : List Char) :
    BranchCounts.ofBody (front ++ ';' :: back) =
      BranchCounts.ofBody front + BranchCounts.ofBody back ∧
    complexity (front ++ ';' :: back) + 1 = complexity front + complexity back ∧
    (Text.width front + Text.width back < UInt32.size - 1 →
      (∀ body ∈ [front ++ ';' :: back, front, back],
        (complexityWord body).toNat = complexity body) ∧
      (complexityWord (front ++ ';' :: back)).toNat + 1 =
        (complexityWord front).toNat + (complexityWord back).toNat) := by
  have hsum := complexity_separate front back
  refine ⟨BranchCounts.ofBody_separate front back, hsum, fun hwidth => ?_⟩
  obtain ⟨hjoined, hfront, hback⟩ := complexity_lt_of_separate hwidth
  rw [List.forall_mem_cons, List.forall_mem_cons, List.forall_mem_singleton,
    toNat_complexityWord hjoined, toNat_complexityWord hfront, toNat_complexityWord hback]
  exact ⟨⟨rfl, rfl, rfl⟩, hsum⟩

end Outline
