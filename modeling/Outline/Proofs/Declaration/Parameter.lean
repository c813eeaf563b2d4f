import Outline.Declaration.Parameter
import Outline.Proofs.Declaration.AlikeName
import Outline.Proofs.Pattern.Sweep
import Outline.Proofs.Text.Boundary

/-!
# Splitting lists of declarations

A split loses nothing, and the counts of open groups that it keeps never leave a
machine word before the list does.
-/

namespace Outline

/-! ## Nothing is lost -/

theorem splitTopLevelFrom_ne_nil (separator : Char) (nesting : Nesting) (piece rest : List Char) :
    splitTopLevelFrom separator nesting piece rest ≠ [] := by
  induction rest generalizing nesting piece with
  | nil => simp [splitTopLevelFrom]
  | cons c rest ih =>
    rw [splitTopLevelFrom]
    split
    · simp
    · exact ih _ _

theorem join_splitTopLevelFrom (separator : Char) (nesting : Nesting) (piece rest : List Char) :
    Text.join [separator] (splitTopLevelFrom separator nesting piece rest) =
      piece.reverse ++ rest := by
  induction rest generalizing nesting piece with
  | nil => rw [splitTopLevelFrom, Text.join, List.intercalate_singleton, List.append_nil]
  | cons c rest ih =>
    rw [splitTopLevelFrom]
    split
    · next hs =>
      have hc : c = separator := by
        simp only [Nesting.splits, Bool.and_eq_true, beq_iff_eq] at hs
        exact hs.1.1
      have hrest := ih (nesting.after c) []
      rw [Text.join] at hrest ⊢
      rw [List.intercalate_cons_of_ne_nil (splitTopLevelFrom_ne_nil _ _ _ _), hrest, hc]
      simp
    · rw [ih, List.reverse_cons, List.append_assoc]
      rfl

/-- The pieces, with the separator put back between them, are the text. -/
theorem join_splitTopLevel (separator : Char) (text : List Char) :
    Text.join [separator] (splitTopLevel separator text) = text :=
  join_splitTopLevelFrom separator .outside [] text

/-! ## Counts in machine words -/

/-- Whether a count fits a signed word of 32 bits. -/
def fitsWord (count : Int) : Bool := -2147483648 ≤ count && count ≤ 2147483647

/-- The split with counts kept in words, given up when one of them overflows. -/
def splitTopLevelInWords? (separator : Char) :
    Nesting → List Char → List Char → Option (List (List Char))
  | _, piece, [] => some [piece.reverse]
  | nesting, piece, c :: rest =>
    let next := nesting.after c
    if fitsWord next.depth && fitsWord next.angles then
      if nesting.splits separator c then
        (splitTopLevelInWords? separator next [] rest).map (piece.reverse :: ·)
      else splitTopLevelInWords? separator next (c :: piece) rest
    else none

/-- The same for the split at an assignment. -/
def splitDefaultInWords? : Int → List Char → List Char → Option (List Char × Option (List Char))
  | _, before, [] => some (Text.trim before.reverse, none)
  | depth, before, c :: rest =>
    if c == '(' || c == '[' || c == '\x7b' || c == '<' then
      if fitsWord (depth + 1) then splitDefaultInWords? (depth + 1) (c :: before) rest else none
    else if c == ')' || c == ']' || c == '\x7d' || c == '>' then
      if fitsWord (depth - 1) then splitDefaultInWords? (depth - 1) (c :: before) rest else none
    else if c == '=' && depth ≤ 0 && isAssignment before.head? rest then
      some (Text.trim before.reverse, some (Text.trim rest))
    else splitDefaultInWords? depth (c :: before) rest

/-- One character opens or closes at most one group. -/
theorem Nesting.after_le (nesting : Nesting) (c : Char) :
    (nesting.after c).depth.natAbs ≤ nesting.depth.natAbs + 1 ∧
      (nesting.after c).angles ≤ nesting.angles + 1 := by
  rw [Nesting.after]
  split
  · exact ⟨by dsimp only; omega, by dsimp only; omega⟩
  · split
    · exact ⟨by dsimp only; omega, by dsimp only; omega⟩
    · split
      · exact ⟨by dsimp only; omega, by dsimp only; omega⟩
      · split
        · exact ⟨by dsimp only; omega, by dsimp only; omega⟩
        · exact ⟨by dsimp only; omega, by dsimp only; omega⟩

theorem splitTopLevelInWords?_eq {separator : Char} {nesting : Nesting} {piece rest : List Char}
    (hd : nesting.depth.natAbs + rest.length ≤ 2147483647)
    (ha : nesting.angles + rest.length ≤ 2147483647) :
    splitTopLevelInWords? separator nesting piece rest =
      some (splitTopLevelFrom separator nesting piece rest) := by
  induction rest generalizing nesting piece with
  | nil => rfl
  | cons c rest ih =>
    obtain ⟨hdepth, hangles⟩ := nesting.after_le c
    rw [List.length_cons] at hd ha
    have hd' : (nesting.after c).depth.natAbs + rest.length ≤ 2147483647 := by omega
    have ha' : (nesting.after c).angles + rest.length ≤ 2147483647 := by omega
    have hfits : (fitsWord (nesting.after c).depth &&
        fitsWord (nesting.after c).angles) = true := by
      simp only [fitsWord, Bool.and_eq_true, decide_eq_true_eq]
      omega
    rw [splitTopLevelInWords?, splitTopLevelFrom, if_pos hfits, ih hd' ha', ih hd' ha']
    split
    · rfl
    · rfl

theorem splitDefaultInWords?_eq (depth : Int) {before rest : List Char}
    (hd : depth.natAbs + rest.length ≤ 2147483647) :
    splitDefaultInWords? depth before rest = some (splitDefaultFrom depth before rest) := by
  induction rest generalizing depth before with
  | nil => rfl
  | cons c rest ih =>
    rw [List.length_cons] at hd
    have hup : fitsWord (depth + 1) = true := by
      simp only [fitsWord, Bool.and_eq_true, decide_eq_true_eq]
      omega
    have hdown : fitsWord (depth - 1) = true := by
      simp only [fitsWord, Bool.and_eq_true, decide_eq_true_eq]
      omega
    rw [splitDefaultInWords?, splitDefaultFrom, if_pos hup, if_pos hdown,
      ih (depth + 1) (by omega), ih (depth - 1) (by omega), ih depth (by omega)]
    split
    · rfl
    · split
      · rfl
      · split
        · rfl
        · rfl

end Outline

/-!
## The name of a parameter stands in the list

Whatever is taken off a declaration on the way to its name, the name stays a stretch of it: it
has no blanks, and only blanks are put in.
-/

namespace Outline

/-! ### Stretches without some character -/

namespace Text

/-- A stretch without some character lies on one side of it. -/
theorem infix_append_cons {name a b : List Char} {c : Char} (hc : c ∉ name)
    (h : name <:+: a ++ c :: b) : name <:+: a ∨ name <:+: b := by
  obtain ⟨x, y, hxy⟩ := h
  rcases List.append_eq_append_iff.mp hxy with ⟨v, rfl, -⟩ | ⟨v, hv, hy⟩
  · exact .inl ⟨x, v, rfl⟩
  · cases v with
    | nil => exact .inl ⟨x, [], by rw [List.append_nil]; rwa [List.append_nil] at hv⟩
    | cons d v =>
      obtain ⟨rfl, rfl⟩ := List.cons.inj hy
      rcases List.append_eq_append_iff.mp hv with ⟨w, -, hw⟩ | ⟨w, -, hw⟩
      · exact absurd (hw ▸ by simp) hc
      · cases w with
        | nil =>
          rw [List.nil_append] at hw
          exact absurd (hw ▸ List.mem_cons_self) hc
        | cons d w =>
          obtain ⟨-, rfl⟩ := List.cons.inj hw
          exact .inr ⟨w, y, rfl⟩

theorem infix_join {name : List Char} {c : Char} (hc : c ∉ name) (hne : name ≠ [])
    {pieces : List (List Char)} (h : name <:+: join [c] pieces) : ∃ piece ∈ pieces, name <:+: piece := by
  induction pieces with
  | nil => exact absurd (List.infix_nil.mp h) hne
  | cons piece pieces ih =>
    cases pieces with
    | nil =>
      rw [join, List.intercalate_singleton] at h
      exact ⟨piece, List.mem_cons_self, h⟩
    | cons next pieces =>
      rw [join, List.intercalate_cons_cons, List.append_assoc, List.singleton_append] at h
      rcases infix_append_cons hc h with h | h
      · exact ⟨piece, List.mem_cons_self, h⟩
      · obtain ⟨other, ho, hi⟩ := ih h
        exact ⟨other, List.mem_cons_of_mem _ ho, hi⟩

theorem infix_join_of_mem {between piece : List Char} {pieces : List (List Char)} (h : piece ∈ pieces) :
    piece <:+: join between pieces := by
  induction pieces with
  | nil => exact nomatch h
  | cons first pieces ih =>
    cases pieces with
    | nil =>
      rw [join, List.intercalate_singleton]
      exact List.mem_singleton.mp h ▸ List.infix_rfl
    | cons next pieces =>
      rw [join, List.intercalate_cons_cons]
      rcases List.mem_cons.mp h with rfl | h
      · exact ⟨[], between ++ between.intercalate (next :: pieces), by simp⟩
      · obtain ⟨x, y, hxy⟩ := ih h
        rw [join] at hxy
        exact ⟨first ++ between ++ x, y, by rw [← hxy]; simp⟩

theorem isPrefix_trimEnd (text : List Char) : trimEnd text <+: text := by
  obtain ⟨blanks, h⟩ := trimEnd_append text
  exact ⟨blanks, h.symm⟩

/-- Behind blanks a text goes on with what is left when it is trimmed. -/
theorem exists_eq_trim (text : List Char) :
    ∃ lead trail, text = lead ++ (trim text ++ trail) ∧ ∀ c ∈ lead, isBlank c = true := by
  obtain ⟨trail, htrail⟩ := trimEnd_append (trimStart text)
  refine ⟨text.takeWhile isBlank, trail, ?_,
    fun c hc => List.all_eq_true.mp List.all_takeWhile c hc⟩
  rw [trim, ← htrail, trimStart, List.takeWhile_append_dropWhile]

theorem isInfix_trim (text : List Char) : trim text <:+: text := by
  obtain ⟨lead, trail, h, -⟩ := exists_eq_trim text
  exact ⟨lead, trail, by rw [List.append_assoc]; exact h.symm⟩

theorem infix_of_mem_wordsFrom {front word text : List Char} (h : word ∈ wordsFrom front text) :
    word <:+: front.reverse ++ text := by
  induction text generalizing front with
  | nil =>
    rw [wordsFrom] at h
    split at h
    · cases h
    · rw [List.append_nil]
      exact List.mem_singleton.mp h ▸ List.infix_rfl
  | cons c text ih =>
    have hbehind : word ∈ wordsFrom [] text → word <:+: front.reverse ++ c :: text := by
      intro h
      obtain ⟨x, y, hxy⟩ := ih h
      exact ⟨front.reverse ++ c :: x, y, by rw [List.append_assoc, List.append_assoc]; simp at hxy; simp [← hxy]⟩
    rw [wordsFrom] at h
    split at h
    · split at h
      · exact hbehind h
      · rcases List.mem_cons.mp h with rfl | h
        · exact ⟨[], c :: text, rfl⟩
        · exact hbehind h
    · have hinside := ih h
      rwa [List.reverse_cons, List.append_assoc] at hinside

theorem infix_of_mem_words {word text : List Char} (h : word ∈ words text) : word <:+: text :=
  infix_of_mem_wordsFrom h

end Text

namespace Parameter

variable {rules : ParameterRules} {name s t : List Char}

/-! ### What is taken off -/

theorem Erased.isPrefix (h : Erased s t) (hn : ' ' ∉ name) (hp : name <+: t) : name <+: s := by
  induction name generalizing s t with
  | nil => exact List.nil_prefix
  | cons c name ih =>
    rw [List.mem_cons, not_or] at hn
    cases h with
    | nil => exact hp
    | keep _ k =>
      obtain ⟨rfl, hbehind⟩ := List.cons_prefix_cons.mp hp
      exact List.cons_prefix_cons.mpr ⟨rfl, ih k hn.2 hbehind⟩
    | erase _ _ => exact absurd (List.cons_prefix_cons.mp hp).1.symm hn.1

theorem annotationRest?_suffix {rest : List Char} (h : annotationRest? s = some rest) : rest <:+ s := by
  obtain ⟨c, word, more, rfl, -, -, rfl⟩ := annotationRest?_eq_some h
  have hmore : more <:+ '@' :: c :: (word ++ more) := ⟨'@' :: c :: word, rfl⟩
  cases harguments : argumentsRest? more with
  | none => exact hmore
  | some rest =>
    obtain ⟨gap, inner, rfl, -⟩ := argumentsRest?_eq_some_iff.mp harguments
    exact List.IsSuffix.trans ⟨gap ++ '(' :: (inner ++ [')']), by simp⟩ hmore

/-- Where annotations are replaced by spaces, what has no space was there before. -/
theorem Erased.isInfix (h : Erased s t) (hn : ' ' ∉ name) (hi : name <:+: t) : name <:+: s := by
  induction h with
  | nil => exact hi
  | keep hnone k ih =>
    rcases List.infix_cons_iff.mp hi with hp | hi
    · exact ((Erased.keep hnone k).isPrefix hn hp).isInfix
    · exact (ih hi).trans (List.suffix_cons _ _).isInfix
  | erase hsome k ih =>
    rcases List.infix_cons_iff.mp hi with hp | hi
    · exact ((Erased.erase hsome k).isPrefix hn hp).isInfix
    · exact (ih hi).trans (annotationRest?_suffix hsome).isInfix

theorem infix_of_unmodified (hn : ' ' ∉ name) (h : name <:+: unmodified rules s) : name <:+: s := by
  by_cases hne : name = []
  · exact hne ▸ List.nil_infix
  · obtain ⟨word, hword, hi⟩ := Text.infix_join hn hne h
    have hbare := hi.trans (Text.infix_of_mem_words ((List.dropWhile_sublist _).mem hword))
    split at hbare
    · exact (erased_replaceAll s).isInfix hn hbare
    · exact hbare

theorem exists_eq_splitDefaultFrom (depth : Int) (before rest : List Char) :
    ∃ lead trail, before.reverse ++ rest = lead ++ ((splitDefaultFrom depth before rest).1 ++ trail) ∧
      ∀ c ∈ lead, Text.isBlank c = true := by
  have hend : ∀ before rest : List Char, ∃ lead trail,
      before.reverse ++ rest = lead ++ (Text.trim before.reverse ++ trail) ∧
        ∀ c ∈ lead, Text.isBlank c = true := by
    intro before rest
    obtain ⟨lead, trail, h, hlead⟩ := Text.exists_eq_trim before.reverse
    refine ⟨lead, trail ++ rest, ?_, hlead⟩
    rw [← List.append_assoc (Text.trim _), ← List.append_assoc lead, ← h]
  induction rest generalizing depth before with
  | nil => exact hend before []
  | cons c rest ih =>
    have hlater : ∀ depth, ∃ lead trail, before.reverse ++ c :: rest =
        lead ++ ((splitDefaultFrom depth (c :: before) rest).1 ++ trail) ∧
          ∀ c ∈ lead, Text.isBlank c = true := by
      intro depth
      obtain ⟨lead, trail, h, hlead⟩ := ih depth (c :: before)
      rw [List.reverse_cons, List.append_assoc] at h
      exact ⟨lead, trail, h, hlead⟩
    rw [splitDefaultFrom]
    split
    · exact hlater _
    · split
      · exact hlater _
      · split
        · exact hend before (c :: rest)
        · exact hlater _

/-- Behind blanks a text goes on with its declaration. -/
theorem exists_eq_splitDefault (text : List Char) :
    ∃ lead trail, text = lead ++ ((splitDefault text).1 ++ trail) ∧
      ∀ c ∈ lead, Text.isBlank c = true :=
  exists_eq_splitDefaultFrom 0 [] text

theorem isInfix_withoutDefault (rules : ParameterRules) (s : List Char) :
    (withoutDefault rules s).1 <:+: s := by
  rw [withoutDefault]
  split
  · obtain ⟨lead, trail, h, -⟩ := exists_eq_splitDefault s
    exact ⟨lead, trail, by rw [List.append_assoc]; exact h.symm⟩
  · exact Text.isInfix_trim s

theorem takeArrays_suffix (fuel : Nat) (reversed suffix : List Char) :
    (takeArrays fuel reversed suffix).1 <:+ reversed := by
  fun_induction takeArrays fuel reversed suffix with
  | case1 suffix tail fuel before h ih =>
    have hopen : '[' :: before <:+ ']' :: tail := h ▸ List.dropWhile_suffix _
    exact ih.trans ((List.dropWhile_suffix _).trans ((List.suffix_cons _ _).trans hopen))
  | case2 => exact List.suffix_rfl
  | case3 => exact List.suffix_rfl

/-! ### Names -/

/-- A stretch that neither a blanked place nor the end of a line breaks. -/
def Unbroken (name : List Char) : Prop := ' ' ∉ name ∧ '\n' ∉ name

theorem unbroken_part {p : Pattern} {text : List Char} {found : Match} {name : Capture}
    (h : p.FoundIn text found) (hp : (p.partSpares .name ' ' && p.partSpares .name '\n') = true)
    (hname : found.part? .name = some name) : Unbroken name.text := by
  obtain ⟨hspace, hfeed⟩ := Bool.and_eq_true_iff.mp hp
  exact ⟨h.not_mem_of_partSpares hspace hname, h.not_mem_of_partSpares hfeed hname⟩

/-- A name that is found in a text stands there. -/
theorem infix_of_find? {p : Pattern} {name : Capture}
    (hp : (p.partSpares .name ' ' && p.partSpares .name '\n') = true)
    (h : (p.find? s).bind (·.part? .name) = some name) : name.text <:+: s ∧ Unbroken name.text := by
  obtain ⟨found, hfound, hpart⟩ := Option.bind_eq_some_iff.mp h
  have hf := Pattern.foundIn_of_findFrom [] hfound
  obtain ⟨before, after, hs, -⟩ := (hf.part_at hpart).1
  exact ⟨⟨before, after, hs.symm⟩, unbroken_part hf hp hpart⟩

theorem infix_typeAndName (rules : ParameterRules) (s : List Char) :
    (typeAndName rules s).2 <:+: s ∧ Unbroken (typeAndName rules s).2 := by
  have hempty : ([] : List Char) <:+: s ∧ Unbroken [] :=
    ⟨List.nil_infix, List.not_mem_nil, List.not_mem_nil⟩
  rw [typeAndName]
  split
  · next name hname => exact infix_of_find? (by decide) hname
  · dsimp only
    split
    · exact hempty
    · next name hname =>
      split
      · exact hempty
      · obtain ⟨hinside, hunbroken⟩ := infix_of_find? (by decide) hname
        have hcore := List.reverse_prefix.mpr
          (takeArrays_suffix (Text.trimEnd s).reverse.length (Text.trimEnd s).reverse [])
        rw [List.reverse_reverse] at hcore
        exact ⟨hinside.trans (hcore.trans (Text.isPrefix_trimEnd s)).isInfix, hunbroken⟩

theorem infix_ofParts? {default : Option (List Char)} {parameter : Parameter}
    (h : ofParts? rules s default = some parameter) :
    parameter.name.toList <:+: s ∧ Unbroken parameter.name.toList := by
  rw [ofParts?] at h
  split at h
  · cases h
  · split at h
    · next hdots =>
      obtain rfl := Option.some.inj h
      rw [hdots]
      exact ⟨List.infix_rfl, by decide, by decide⟩
    · dsimp only at h
      split at h
      · cases h
      · obtain rfl := Option.some.inj h
        rw [String.toList_ofList]
        exact infix_typeAndName rules s

/-- The name of a parameter stands in the list that it was read from. -/
theorem infix_of_mem_ofList {text : List Char} {parameter : Parameter}
    (h : parameter ∈ ofList rules text) :
    parameter.name.toList <:+: text ∧ Unbroken parameter.name.toList := by
  rw [ofList] at h
  split at h
  · cases h
  · obtain ⟨piece, hpiece, hparameter⟩ := List.mem_filterMap.mp h
    rw [ofDeclaration?_eq] at hparameter
    obtain ⟨hinside, hunbroken⟩ := infix_ofParts? hparameter
    have hjoin : piece <:+: Text.join [','] (splitTopLevel ',' (Text.trim text)) :=
      Text.infix_join_of_mem hpiece
    rw [join_splitTopLevel] at hjoin
    refine ⟨?_, hunbroken⟩
    exact (infix_of_unmodified hunbroken.1 hinside).trans ((isInfix_withoutDefault rules piece).trans
      (hjoin.trans (Text.isInfix_trim text)))

end Parameter
end Outline
