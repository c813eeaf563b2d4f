import Outline.Proofs.Extraction.Java.Reading
import Outline.Proofs.Pattern.Sweep

/-!
# The words that start clauses

A search for the clauses of a header finds the words that start them wherever they stand alone,
with no character of a word on either side, whatever brackets are open there.  Such words do not
overlap, so a header is a text without them, and then word after word, each with the text up to
the next one.
-/

namespace Outline
namespace Java

open Pattern (Matches Prefers)

/-- The words that start clauses. -/
def clauseWords : List String := ["extends", "implements", "permits"]

/-- The word that starts a clause at a place: no character of a word stands in front of it or
behind it. -/
def clauseAt? (previous : Option Char) (rest : List Char) : Option String :=
  if previous.any Text.isWordChar then none
  else clauseWords.find? fun word =>
    (Text.dropLead? word.toList rest).any fun after => !after.head?.any Text.isWordChar

/-- The words that start clauses, with their places. -/
def clauseWordsFrom : Option Char → Nat → List Char → List Capture
  | _, _, [] => []
  | previous, offset, c :: rest =>
    ((clauseAt? previous (c :: rest)).map fun word => ⟨offset, word.toList⟩).toList
      ++ clauseWordsFrom (some c) (offset + c.utf8Size) rest

/-- A word stands in a text, with no character of a word on either side. -/
def StandsIn (word : String) (text : List Char) : Prop :=
  ∃ before after, text = before ++ (word.toList ++ after) ∧
    before.getLast?.any Text.isWordChar = false ∧ after.head?.any Text.isWordChar = false

variable {previous : Option Char} {offset resume : Nat} {rest text after a b : List Char}
variable {word : String} {c : Char}

/-! ## One place -/

theorem exists_cons_of_clauseWord (h : word ∈ clauseWords) : ∃ first more,
    word.toList = first :: more ∧ Text.isWordChar first = true := by
  have hall : ∀ word ∈ clauseWords, word.toList.head?.any Text.isWordChar = true := by decide
  obtain ⟨first, hhead, hfirst⟩ := (Option.any_eq_true _ _).mp (hall word h)
  obtain ⟨more, hcons⟩ := List.head?_eq_some_iff.mp hhead
  exact ⟨first, more, hcons, hfirst⟩

theorem exists_concat_of_clauseWord (h : word ∈ clauseWords) : ∃ last,
    word.toList.getLast? = some last ∧ Text.isWordChar last = true := by
  have hall : ∀ word ∈ clauseWords, word.toList.getLast?.any Text.isWordChar = true := by decide
  exact (Option.any_eq_true _ _).mp (hall word h)

/-- The words are told apart by their first letters. -/
theorem clauseWord_unique {other : String} {after' : List Char} (h : word ∈ clauseWords)
    (ho : other ∈ clauseWords) (heq : word.toList ++ after = other.toList ++ after') :
    word = other := by
  have hheads : ∀ word ∈ clauseWords, ∀ other ∈ clauseWords,
      word.toList.head? = other.toList.head? → word = other := by decide
  obtain ⟨first, more, hword, -⟩ := exists_cons_of_clauseWord h
  obtain ⟨first', more', hother, -⟩ := exists_cons_of_clauseWord ho
  refine hheads word h other ho ?_
  rw [hword, hother] at heq ⊢
  exact congrArg some (List.cons.inj heq).1

theorem clauseAt?_eq_some_iff : clauseAt? previous rest = some word ↔
    previous.any Text.isWordChar = false ∧ word ∈ clauseWords ∧
      ∃ after, rest = word.toList ++ after ∧ after.head?.any Text.isWordChar = false := by
  have hleads : ∀ word : String, ((Text.dropLead? word.toList rest).any fun after =>
      !after.head?.any Text.isWordChar) = true ↔
        ∃ after, rest = word.toList ++ after ∧ after.head?.any Text.isWordChar = false := by
    intro word
    simp only [Option.any_eq_true, Text.dropLead?_eq_some_iff, Bool.not_eq_true']
  rw [clauseAt?]
  by_cases hprevious : previous.any Text.isWordChar = true
  · simp [hprevious]
  rw [if_neg hprevious]
  constructor
  · intro hfind
    have hstands := List.find?_some hfind
    exact ⟨by simpa using hprevious, List.mem_of_find?_eq_some hfind, (hleads word).mp hstands⟩
  · rintro ⟨-, hword, hstands⟩
    have hsome : (clauseWords.find? fun word => (Text.dropLead? word.toList rest).any fun after =>
        !after.head?.any Text.isWordChar).isSome := by
      rw [List.find?_isSome]
      exact ⟨word, hword, (hleads word).mpr hstands⟩
    obtain ⟨other, hfind⟩ := Option.isSome_iff_exists.mp hsome
    have hother := List.find?_some hfind
    obtain ⟨after, hrest, -⟩ := hstands
    obtain ⟨after', hrest', -⟩ := (hleads other).mp hother
    rw [hfind, clauseWord_unique hword (List.mem_of_find?_eq_some hfind) (hrest.symm.trans hrest')]

/-- Where a word that is read is one that starts a clause. -/
theorem boundary_iff (hword : word ∈ clauseWords) (offset : Nat) :
    Pattern.atBoundary ⟨previous, offset, word.toList ++ after⟩ = true ↔
      previous.any Text.isWordChar = false := by
  obtain ⟨first, more, hcons, hfirst⟩ := exists_cons_of_clauseWord hword
  have hhead : (word.toList ++ after).head?.any Text.isWordChar = true := by
    rw [hcons]
    exact hfirst
  show (previous.any Text.isWordChar != (word.toList ++ after).head?.any Text.isWordChar) = true ↔ _
  rw [hhead, bne_iff_ne, ne_eq, Bool.not_eq_true]

theorem boundary_behind_iff (hword : word ∈ clauseWords) {cursor : Cursor}
    (h : cursor.previous = word.toList.getLast?.or previous) :
    Pattern.atBoundary cursor = true ↔ cursor.rest.head?.any Text.isWordChar = false := by
  obtain ⟨last, hlast, hchar⟩ := exists_concat_of_clauseWord hword
  rw [Pattern.atBoundary, h, hlast, Option.some_or, Option.any_some, hchar, bne_iff_ne, ne_comm,
    ne_eq, Bool.not_eq_true]

/-- The pattern of clauses matches where a word starts one, and reads the word. -/
theorem matchAt_of_clauseAt? (h : clauseAt? previous rest = some word) (offset : Nat) :
    ∃ found, clausePattern.matchAt ⟨previous, offset, rest⟩ = some found ∧
      found.stop = offset + Text.width word.toList ∧
      found.part? .kind = some ⟨offset, word.toList⟩ := by
  obtain ⟨hprevious, hword, after, rfl, hafter⟩ := clauseAt?_eq_some_iff.mp h
  let start : Reach := .start ⟨previous, 0, word.toList ++ after⟩
  let stop : Reach := start.passing .kind word.toList after
  have hkind : (Pattern.part .kind (.oneOf clauseWords)).Prefers start stop := by
    obtain ⟨before, later, hsplit⟩ := List.append_of_mem hword
    have hnone : ∀ other ∈ before, Text.dropLead? other.toList (word.toList ++ after) = none := by
      intro other ho
      refine Option.eq_none_iff_forall_ne_some.mpr fun after' heq => ?_
      have hsame := clauseWord_unique (hsplit ▸ List.mem_append_left _ ho) hword
        (Text.dropLead?_eq_some_iff.mp heq).symm
      have hnodup : clauseWords.Nodup := by decide
      rw [hsplit] at hnodup
      exact (List.nodup_append.mp hnodup).2.2 other ho word List.mem_cons_self hsame
    rw [hsplit]
    exact prefers_kind before word hnone rfl
  have hall : clausePattern.Prefers start stop :=
    ((Pattern.prefers_boundary ((boundary_iff hword 0).mpr hprevious)).seq hkind).seq
      (Pattern.prefers_boundary ((boundary_behind_iff hword rfl).mpr hafter))
  have hread : start.cursor.Reads word.toList stop.cursor := ⟨rfl, rfl⟩
  obtain ⟨found, hmatch, -, hstop, hpart⟩ := hall.exists_match hread offset
  refine ⟨found, hmatch, hstop, (hpart .kind).trans (congrArg some ?_)⟩
  exact start.capture_passing word.toList _ rfl offset

theorem matchAt_of_clauseAt?_none (h : clauseAt? previous rest = none) (offset : Nat) :
    clausePattern.matchAt ⟨previous, offset, rest⟩ = none := by
  cases hm : clausePattern.matchAt ⟨previous, offset, rest⟩ with
  | none => rfl
  | some found =>
    obtain ⟨d, ms, hmatch, -⟩ := Pattern.exists_of_matchAt hm
    obtain ⟨e, _, _, hm, hback, -⟩ := hmatch.of_seq
    obtain ⟨_, _, _, hfront, hkind, -⟩ := hm.of_seq
    obtain ⟨_, hkind, -⟩ := hkind.of_part
    obtain ⟨rfl, hat⟩ := hfront.of_boundary
    obtain ⟨rfl, hend⟩ := hback.of_boundary
    obtain ⟨word, hword, hread⟩ := hkind.of_oneOf
    have hsplit : rest = word.toList ++ d.rest := hread.1
    subst hsplit
    have hsome : clauseAt? previous (word.toList ++ d.rest) = some word :=
      clauseAt?_eq_some_iff.mpr ⟨(boundary_iff hword 0).mp hat, hword, d.rest, rfl,
        (boundary_behind_iff hword (hkind.previous_eq hread)).mp hend⟩
    rw [h] at hsome
    cases hsome

/-! ## All places -/

/-- Inside of a word no clause starts. -/
theorem clauseWordsFrom_inside (h : previous.any Text.isWordChar = true)
    (ha : ∀ c ∈ a, Text.isWordChar c = true) :
    clauseWordsFrom previous offset (a ++ b) =
      clauseWordsFrom (a.getLast?.or previous) (offset + Text.width a) b := by
  induction a generalizing previous offset with
  | nil => rfl
  | cons c a ih =>
    obtain ⟨hc, ha⟩ := List.forall_mem_cons.mp ha
    rw [List.cons_append, clauseWordsFrom, clauseAt?, if_pos h, Pattern.last_cons, Text.width_cons,
      ← Nat.add_assoc]
    exact ih hc ha

/-- A word that starts a clause comes first, and then those behind it. -/
theorem clauseWordsFrom_of_clauseAt? (h : clauseAt? previous (word.toList ++ after) = some word) :
    clauseWordsFrom previous offset (word.toList ++ after) = ⟨offset, word.toList⟩ ::
      clauseWordsFrom (word.toList.getLast?.or previous) (offset + Text.width word.toList) after := by
  have hword := (clauseAt?_eq_some_iff.mp h).2.1
  have hchars : ∀ word ∈ clauseWords, word.toList.all Text.isWordChar = true := by decide
  have hall := List.all_eq_true.mp (hchars word hword)
  obtain ⟨first, more, hcons, hfirst⟩ := exists_cons_of_clauseWord hword
  have hinside : (some first).any Text.isWordChar = true := hfirst
  rw [hcons] at hall
  rw [hcons, List.cons_append] at h ⊢
  rw [clauseWordsFrom, h, Option.map_some, Option.toList_some, List.singleton_append, hcons,
    clauseWordsFrom_inside hinside (List.forall_mem_cons.mp hall).2, Pattern.last_cons,
    Text.width_cons, Nat.add_assoc]

/-- A text is gone through word by word where clauses start, and character by character
elsewhere. -/
theorem clauseInduction {motive : Option Char → Nat → List Char → Prop}
    (nil : ∀ previous offset, motive previous offset [])
    (pass : ∀ previous offset c rest, clauseAt? previous (c :: rest) = none →
      motive (some c) (offset + c.utf8Size) rest → motive previous offset (c :: rest))
    (start : ∀ previous offset (word : String) after,
      clauseAt? previous (word.toList ++ after) = some word →
      motive (word.toList.getLast?.or previous) (offset + Text.width word.toList) after →
        motive previous offset (word.toList ++ after))
    (previous : Option Char) (offset : Nat) (text : List Char) : motive previous offset text := by
  induction hlength : text.length using Nat.strongRecOn generalizing previous offset text with
  | _ n ih =>
    cases text with
    | nil => exact nil previous offset
    | cons c rest =>
      cases hat : clauseAt? previous (c :: rest) with
      | none =>
        refine pass previous offset c rest hat (ih _ ?_ _ _ _ rfl)
        rw [← hlength]
        exact Nat.lt_succ_self _
      | some word =>
        obtain ⟨-, hword, after, heq, -⟩ := clauseAt?_eq_some_iff.mp hat
        obtain ⟨first, more, hcons, -⟩ := exists_cons_of_clauseWord hword
        have hshort : after.length < n := by
          rw [← hlength, heq, List.length_append, hcons, List.length_cons]
          omega
        rw [heq] at hat ⊢
        exact start previous offset word after hat (ih _ hshort _ _ _ rfl)

/-- The search finds the words that start clauses, and no others. -/
theorem findAllFrom_clause (hle : resume ≤ offset) :
    (clausePattern.findAllFrom resume previous offset text).filterMap (·.part? .kind) =
      clauseWordsFrom previous offset text := by
  induction previous, offset, text using clauseInduction generalizing resume with
  | nil previous offset =>
    rw [Pattern.findAllFrom_nil rfl]
    rfl
  | pass previous offset c rest hnone ih =>
    rw [Pattern.findAllFrom, matchAt_of_clauseAt?_none hnone, ite_self, clauseWordsFrom, hnone]
    exact ih (Nat.le_trans hle (Nat.le_add_right _ _))
  | start previous offset word after hat ih =>
    obtain ⟨found, hmatch, hstop, hpart⟩ := matchAt_of_clauseAt? hat offset
    obtain ⟨first, more, hcons, -⟩ := exists_cons_of_clauseWord (clauseAt?_eq_some_iff.mp hat).2.1
    have hne : word.toList ≠ [] := hcons ▸ List.cons_ne_nil first more
    rw [Pattern.findAllFrom_of_matchAt hle hne hmatch hstop, List.filterMap_cons, hpart,
      clauseWordsFrom_of_clauseAt? hat, ih (Nat.le_of_eq hstop)]

/-! ## From word to word -/

/-- Words, each with the text behind it, in a row. -/
def cutText (cuts : List (String × List Char)) : List Char :=
  cuts.flatMap fun cut => cut.1.toList ++ cut.2

/-- Where the words stand. -/
def placesFrom : Nat → List (String × List Char) → List Capture
  | _, [] => []
  | offset, (word, trail) :: cuts =>
    ⟨offset, word.toList⟩ :: placesFrom (offset + Text.width (word.toList ++ trail)) cuts

theorem cutText_cons (word : String) (trail : List Char) (cuts : List (String × List Char)) :
    cutText ((word, trail) :: cuts) = word.toList ++ trail ++ cutText cuts := rfl

/-- A text is cut by the words that start clauses in it. -/
theorem exists_cuts (previous : Option Char) (offset : Nat) (text : List Char) :
    ∃ lead cuts, text = lead ++ cutText cuts ∧
      clauseWordsFrom previous offset text = placesFrom (offset + Text.width lead) cuts ∧
      ∀ cut ∈ cuts, cut.1 ∈ clauseWords := by
  induction previous, offset, text using clauseInduction with
  | nil previous offset => exact ⟨[], [], rfl, rfl, nofun⟩
  | pass previous offset c rest hnone ih =>
    obtain ⟨lead, cuts, rfl, hplaces, hwords⟩ := ih
    refine ⟨c :: lead, cuts, rfl, ?_, hwords⟩
    rw [clauseWordsFrom, hnone, Text.width_cons, ← Nat.add_assoc]
    exact hplaces
  | start previous offset word after hat ih =>
    obtain ⟨trail, cuts, rfl, hplaces, hwords⟩ := ih
    refine ⟨[], (word, trail) :: cuts, ?_, ?_, ?_⟩
    · rw [cutText_cons, List.nil_append, List.append_assoc]
    · rw [clauseWordsFrom_of_clauseAt? hat, hplaces, placesFrom, Text.width_append, Nat.add_assoc]
      rfl
    · exact List.forall_mem_cons.mpr ⟨(clauseAt?_eq_some_iff.mp hat).2.1, hwords⟩

/-- The types of a clause. -/
def clauseTypes (trail : List Char) : List (List Char) :=
  ((splitTopLevel ',' trail).map Text.normalizeSpace).filter (!·.isEmpty)

theorem clausesFrom_places (front : List Char) (cuts : List (String × List Char)) :
    clausesFrom (front ++ cutText cuts) (placesFrom (Text.width front) cuts) =
      .ok (cuts.map fun cut => (cut.1.toList, clauseTypes cut.2)) := by
  induction cuts generalizing front with
  | nil => rfl
  | cons cut cuts ih =>
    obtain ⟨word, trail⟩ := cut
    have hstop : (((placesFrom (Text.width front + Text.width (word.toList ++ trail)) cuts).head?.map
        (·.start)).getD (Text.width (front ++ cutText ((word, trail) :: cuts)))) =
          Text.width front + Text.width (word.toList ++ trail) := by
      cases cuts with
      | nil =>
        rw [cutText_cons, cutText, List.flatMap_nil, List.append_nil, ← Text.width_append]
        rfl
      | cons next cuts => rfl
    have hslice : Text.slice? (front ++ cutText ((word, trail) :: cuts))
        (Text.width front + Text.width word.toList)
        (Text.width front + Text.width (word.toList ++ trail)) = some trail := by
      refine Text.slice?_eq_some_iff.mpr ⟨front ++ word.toList, cutText cuts, ?_, ?_, ?_⟩
      · rw [cutText_cons]
        simp only [List.append_assoc]
      · exact Text.width_append _ _
      · rw [Text.width_append, Text.width_append, Text.width_append, Nat.add_assoc]
    have hmore := ih (front ++ (word.toList ++ trail))
    rw [List.append_assoc, ← cutText_cons, Text.width_append] at hmore
    rw [placesFrom, clausesFrom, hstop, show (Capture.mk (Text.width front) word.toList).stop =
      Text.width front + Text.width word.toList from rfl, hslice, hmore]
    rfl

/-- The clauses of a header that is cut. -/
theorem clauses_of_cuts {header lead : List Char} {cuts : List (String × List Char)}
    (h : header = lead ++ cutText cuts)
    (hplaces : clauseWordsFrom none 0 header = placesFrom (Text.width lead) cuts) :
    clauses header = .ok (cuts.map fun cut => (cut.1.toList, clauseTypes cut.2)) := by
  rw [clauses, Pattern.findAll, findAllFrom_clause (Nat.le_refl 0), hplaces, h]
  exact clausesFrom_places lead cuts

/-! ## Around characters of no word -/

theorem clauseAt?_of_not_wordChar (hc : Text.isWordChar c = false) :
    clauseAt? previous (c :: rest) = none := by
  refine Option.eq_none_iff_forall_ne_some.mpr fun word h => ?_
  obtain ⟨-, hword, after, heq, -⟩ := clauseAt?_eq_some_iff.mp h
  obtain ⟨first, more, hcons, hfirst⟩ := exists_cons_of_clauseWord hword
  rw [hcons] at heq
  rw [(List.cons.inj heq).1, hfirst] at hc
  cases hc

/-- What stands behind a character of no word does not matter. -/
theorem clauseAt?_append_cons (hc : Text.isWordChar c = false) (hne : a ≠ []) :
    clauseAt? previous (a ++ c :: b) = clauseAt? previous a := by
  refine Option.ext fun word => ?_
  rw [clauseAt?_eq_some_iff, clauseAt?_eq_some_iff]
  refine and_congr_right fun _ => and_congr_right fun hword => ?_
  have hchars : ∀ word ∈ clauseWords, word.toList.all Text.isWordChar = true := by decide
  have hnot : c ∉ word.toList := fun hmem => by
    rw [List.all_eq_true.mp (hchars word hword) c hmem] at hc
    cases hc
  constructor
  · rintro ⟨after, heq, hafter⟩
    obtain ⟨v, rfl, rfl⟩ := Pattern.append_of_append_cons hnot heq.symm
    refine ⟨v, rfl, ?_⟩
    cases v with
    | nil => rfl
    | cons x v => exact hafter
  · rintro ⟨after, rfl, hafter⟩
    refine ⟨after ++ c :: b, List.append_assoc _ _ _, ?_⟩
    cases after with
    | nil => exact hc
    | cons x after => exact hafter

theorem clauseAt?_eq_none (h : previous.any Text.isWordChar = false) :
    clauseAt? previous rest = clauseAt? none rest := by
  rw [clauseAt?, clauseAt?, h]
  rfl

theorem clauseWordsFrom_eq_none (h : previous.any Text.isWordChar = false) :
    clauseWordsFrom previous offset text = clauseWordsFrom none offset text := by
  cases text with
  | nil => rfl
  | cons c rest => rw [clauseWordsFrom, clauseWordsFrom, clauseAt?_eq_none h]

/-- At a character of no word the search falls apart. -/
theorem clauseWordsFrom_append_cons (hc : Text.isWordChar c = false) :
    clauseWordsFrom previous offset (a ++ c :: b) = clauseWordsFrom previous offset a ++
      clauseWordsFrom none (offset + Text.width a + c.utf8Size) b := by
  have hnone : (some c).any Text.isWordChar = false := hc
  induction a generalizing previous offset with
  | nil =>
    have hhere : clauseAt? previous (c :: b) = none := clauseAt?_of_not_wordChar hc
    rw [List.nil_append, clauseWordsFrom, clauseWordsFrom, hhere, clauseWordsFrom_eq_none hnone]
    rfl
  | cons x a ih =>
    have hat : clauseAt? previous (x :: a ++ c :: b) = clauseAt? previous (x :: a) :=
      clauseAt?_append_cons hc (List.cons_ne_nil x a)
    rw [List.cons_append] at hat ⊢
    rw [clauseWordsFrom, hat, ih, clauseWordsFrom, List.append_assoc, Text.width_cons,
      Nat.add_assoc offset]

theorem clauseWordsFrom_word (hword : word ∈ clauseWords) (offset : Nat) :
    clauseWordsFrom none offset word.toList = [⟨offset, word.toList⟩] := by
  have hat : clauseAt? none (word.toList ++ []) = some word :=
    clauseAt?_eq_some_iff.mpr ⟨rfl, hword, [], rfl, rfl⟩
  have hfirst : clauseWordsFrom none offset (word.toList ++ []) =
      ⟨offset, word.toList⟩ ::
        clauseWordsFrom word.toList.getLast? (offset + Text.width word.toList) [] :=
    clauseWordsFrom_of_clauseAt? hat
  rwa [List.append_nil, clauseWordsFrom] at hfirst

/-! ## Texts in which no clause starts -/

theorem clauseWordsFrom_eq_nil_iff : clauseWordsFrom previous offset text = [] ↔
    ∀ a b, text = a ++ b → clauseAt? (a.getLast?.or previous) b = none := by
  have hempty : ∀ previous, clauseAt? previous [] = none := by
    refine fun previous => Option.eq_none_iff_forall_ne_some.mpr fun word h => ?_
    obtain ⟨-, hword, after, heq, -⟩ := clauseAt?_eq_some_iff.mp h
    obtain ⟨first, more, hcons, -⟩ := exists_cons_of_clauseWord hword
    rw [hcons] at heq
    cases heq
  induction text generalizing previous offset with
  | nil =>
    refine ⟨fun _ a b hab => ?_, fun _ => rfl⟩
    rw [(List.append_eq_nil_iff.mp hab.symm).2]
    exact hempty _
  | cons c rest ih =>
    rw [clauseWordsFrom, List.append_eq_nil_iff, Option.toList_eq_nil_iff, Option.map_eq_none_iff]
    constructor
    · rintro ⟨hhere, hlater⟩ a b hab
      cases a with
      | nil => exact (show c :: rest = b from hab) ▸ hhere
      | cons x a =>
        obtain ⟨rfl, hrest⟩ := List.cons.inj hab
        rw [Pattern.last_cons]
        exact ih.mp hlater a b hrest
    · intro h
      refine ⟨h [] _ rfl, ih.mpr fun a b hab => ?_⟩
      rw [← Pattern.last_cons]
      exact h (c :: a) b (by rw [hab, List.cons_append])

/-- A text in which no word that starts a clause stands. -/
def Clauseless (text : List Char) : Prop := ∀ word ∈ clauseWords, ¬ StandsIn word text

theorem clauseWordsFrom_eq_nil : clauseWordsFrom none offset text = [] ↔ Clauseless text := by
  rw [clauseWordsFrom_eq_nil_iff]
  constructor
  · rintro h word hword ⟨before, after, rfl, hbefore, hafter⟩
    have hnone := h before _ rfl
    rw [Option.or_none, clauseAt?_eq_some_iff.mpr ⟨hbefore, hword, after, rfl, hafter⟩] at hnone
    cases hnone
  · rintro h a b rfl
    rw [Option.or_none]
    refine Option.eq_none_iff_forall_ne_some.mpr fun word hat => ?_
    obtain ⟨hbefore, hword, after, rfl, hafter⟩ := clauseAt?_eq_some_iff.mp hat
    exact h word hword ⟨a, after, rfl, hbefore, hafter⟩

theorem clauseless_nil : Clauseless [] := (@clauseWordsFrom_eq_nil 0 []).mp rfl

instance (text : List Char) : Decidable (Clauseless text) :=
  decidable_of_iff (clauseWordsFrom none 0 text = []) clauseWordsFrom_eq_nil

theorem clauseless_append_cons (hc : Text.isWordChar c = false) :
    Clauseless (a ++ c :: b) ↔ Clauseless a ∧ Clauseless b := by
  rw [← @clauseWordsFrom_eq_nil 0, clauseWordsFrom_append_cons hc, List.append_eq_nil_iff,
    clauseWordsFrom_eq_nil, clauseWordsFrom_eq_nil]

/-- In joined texts clauses start where they start in the texts. -/
theorem clauseless_join {texts : List (List Char)} :
    Clauseless (Text.join [',', ' '] texts) ↔ ∀ text ∈ texts, Clauseless text := by
  induction texts with
  | nil => exact iff_of_true clauseless_nil nofun
  | cons text texts ih =>
    cases texts with
    | nil =>
      rw [Text.join, List.intercalate_singleton]
      exact List.forall_mem_singleton.symm
    | cons next texts =>
      have hspace : Clauseless ([] ++ ' ' :: Text.join [',', ' '] (next :: texts)) ↔
          Clauseless (Text.join [',', ' '] (next :: texts)) :=
        (clauseless_append_cons rfl).trans (and_iff_right clauseless_nil)
      have hjoin : Text.join [',', ' '] (text :: next :: texts) =
          text ++ ',' :: ([] ++ ' ' :: Text.join [',', ' '] (next :: texts)) := by
        rw [Text.join, List.intercalate_cons_cons, ← Text.join, List.append_assoc]
        rfl
      rw [hjoin, clauseless_append_cons rfl, hspace, ih]
      exact List.forall_mem_cons.symm

end Java
end Outline
