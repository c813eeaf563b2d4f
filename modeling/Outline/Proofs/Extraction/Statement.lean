import Outline.Extraction.Statement
import Outline.Proofs.Extraction.Outcome
import Outline.Proofs.Source.Balanced
import Outline.Proofs.Source.Blanking
import Outline.Proofs.Source.Delimiter
import Outline.Proofs.Text.Word

/-!
# Where statements begin and end

The readers of statements answer with offsets of the characters they look for, or
with the end of the text.
-/

namespace Outline

/-- A character that stands in a blanked text and is no space is a place to cut
the text that was blanked, before it and after it. -/
theorem Blanks.isBoundary_of_charAt? {s t : List Char} (h : Blanks s t) {offset : Nat} {c : Char}
    (hc : c ≠ ' ') (ho : Text.charAt? t offset = some c) :
    Text.IsBoundary s offset ∧ Text.IsBoundary s (offset + c.utf8Size) := by
  obtain ⟨before, after, hs, hw⟩ := Text.charAt?_eq_some_iff.mp (h.charAt? hc ho)
  exact Text.isBoundary_of_char hs hw

namespace SourceText

theorem part_yields {view : List Char} {start stop : Nat} (hs : Text.IsBoundary view start)
    (he : Text.IsBoundary view stop) (hle : start ≤ stop) :
    Yields (part view start stop) fun text => Text.slice? view start stop = some text := by
  obtain ⟨text, ht⟩ := Text.slice?_isSome hs he hle
  exact ⟨text, by rw [part, ht], ht⟩

theorem part_of_append {view before : List Char} (text : List Char) {after : List Char}
    (h : view = before ++ (text ++ after)) :
    part view (Text.width before) (Text.width before + Text.width text) = .ok text := by
  rw [part, Text.slice?_eq_some_iff.mpr ⟨before, after, h.trans (List.append_assoc _ _ _).symm, rfl,
    Text.width_append _ _⟩]

theorem headTo_yields {view : List Char} {stop : Nat} (h : Text.IsBoundary view stop) :
    Yields (headTo view stop) fun text =>
      ∃ after, view = text ++ after ∧ Text.width text = stop := by
  obtain ⟨before, after, rfl, rfl⟩ := h
  exact ⟨before, by rw [headTo, Text.takeWidth?_width_append], after, rfl, rfl⟩

theorem tailFrom_yields {view : List Char} {start : Nat} (h : Text.IsBoundary view start) :
    Yields (tailFrom view start) fun text =>
      ∃ before, view = before ++ text ∧ Text.width before = start := by
  obtain ⟨before, after, rfl, rfl⟩ := h
  exact ⟨after, by rw [tailFrom, Text.dropWidth?_width_append], before, rfl, rfl⟩

end SourceText

namespace Statement

theorem startsAt_yields {masked : List Char} {offset : Nat} (h : Text.IsBoundary masked offset)
    (labels : Bool) : Yields (startsAt masked offset labels) fun _ => True := by
  rw [startsAt, Nat.min_eq_left h.le_width]
  exact (SourceText.headTo_yields h).map fun _ _ => trivial

/-! ## Bodies -/

theorem exists_of_bodyOpenFrom {resume offset opening : Nat} {rest : List Char}
    (h : bodyOpenFrom resume offset rest = some opening) :
    ∃ before after, rest = before ++ '\x7b' :: after ∧ opening = offset + Text.width before := by
  induction rest generalizing resume offset with
  | nil => simp [bodyOpenFrom] at h
  | cons c rest ih =>
    have hlater : ∀ {resume}, bodyOpenFrom resume (offset + c.utf8Size) rest = some opening →
        ∃ before after, c :: rest = before ++ '\x7b' :: after ∧
          opening = offset + Text.width before := by
      intro resume h
      obtain ⟨before, after, rfl, rfl⟩ := ih h
      exact ⟨c :: before, after, rfl, by rw [Text.width_cons, Nat.add_assoc]⟩
    rw [bodyOpenFrom] at h
    split at h
    · exact hlater h
    · split at h
      · next hc =>
        rw [Option.some.injEq] at h
        exact ⟨[], rest, by rw [hc]; rfl, h.symm⟩
      · split at h
        · simp at h
        · split at h
          · split at h
            · exact hlater h
            · simp at h
          · exact hlater h

theorem bodyOpen?_width_append (before rest : List Char) :
    bodyOpen? (before ++ rest) (Text.width before) =
      bodyOpenFrom (Text.width before) (Text.width before) rest := by
  rw [bodyOpen?, bodyOpenFrom_of_le rest (Nat.le_of_eq (Nat.zero_add _)), Nat.zero_add]

/-- The body that is found opens with a brace at or after the start. -/
theorem charAt?_bodyOpen? {masked : List Char} {start opening : Nat}
    (hs : Text.IsBoundary masked start) (h : bodyOpen? masked start = some opening) :
    Text.charAt? masked opening = some '\x7b' ∧ start ≤ opening := by
  obtain ⟨a, b, rfl, rfl⟩ := hs
  rw [bodyOpen?_width_append] at h
  obtain ⟨before, after, rfl, rfl⟩ := exists_of_bodyOpenFrom h
  refine ⟨Text.charAt?_eq_some_iff.mpr ⟨a ++ before, after, ?_, Text.width_append _ _⟩,
    Nat.le_add_right _ _⟩
  rw [List.append_assoc]

/-! ## Ends -/

theorem endFrom_eq (stop resume offset : Nat) (rest : List Char) :
    endFrom stop resume offset rest = stop ∨
      ∃ before c after, rest = before ++ c :: after ∧ c ≠ ' ' ∧
        endFrom stop resume offset rest = offset + Text.width before := by
  induction rest generalizing resume offset with
  | nil => exact Or.inl rfl
  | cons c rest ih =>
    have hlater : ∀ resume, endFrom stop resume (offset + c.utf8Size) rest = stop ∨
        ∃ before d after, c :: rest = before ++ d :: after ∧ d ≠ ' ' ∧
          endFrom stop resume (offset + c.utf8Size) rest = offset + Text.width before := by
      intro resume
      rcases ih resume (offset + c.utf8Size) with h | ⟨before, d, after, rfl, hd, h⟩
      · exact Or.inl h
      · exact Or.inr ⟨c :: before, d, after, rfl, hd, by rw [h, Text.width_cons, Nat.add_assoc]⟩
    rw [endFrom]
    split
    · exact hlater resume
    · split
      · next hc =>
        refine Or.inr ⟨[], c, rest, rfl, ?_, rfl⟩
        rcases hc with rfl | rfl <;> decide
      · split
        · split
          · next close _ => exact hlater (close + 1)
          · exact Or.inl rfl
        · exact hlater resume

theorem endAt_width_append (before rest : List Char) :
    endAt (before ++ rest) (Text.width before) =
      endFrom (Text.width (before ++ rest)) (Text.width before) (Text.width before) rest := by
  rw [endAt, endFrom_of_le _ rest (Nat.le_of_eq (Nat.zero_add _)), Nat.zero_add]

/-! ### What a statement goes on over -/

/-- No end of a statement lies in the first of two texts. -/
def GoesOver (a rest : List Char) : Prop :=
  ∀ stop resume offset, resume ≤ offset → ∃ resume', resume' ≤ offset + Text.width a ∧
    endFrom stop resume offset (a ++ rest) = endFrom stop resume' (offset + Text.width a) rest

theorem GoesOver.nil (rest : List Char) : GoesOver [] rest :=
  fun _ resume _ hle => ⟨resume, hle, rfl⟩

theorem GoesOver.append {a b rest : List Char} (ha : GoesOver a (b ++ rest))
    (hb : GoesOver b rest) : GoesOver (a ++ b) rest := by
  intro stop resume offset hle
  obtain ⟨resume₁, hle₁, heq₁⟩ := ha stop resume offset hle
  obtain ⟨resume₂, hle₂, heq₂⟩ := hb stop resume₁ (offset + Text.width a) hle₁
  refine ⟨resume₂, ?_, ?_⟩
  · rw [Text.width_append, ← Nat.add_assoc]
    exact hle₂
  · rw [List.append_assoc, heq₁, heq₂, Text.width_append, Nat.add_assoc]

/-- Whether a character neither ends a statement nor opens a group. -/
def isInert (c : Char) : Bool := !([';', '\x7d', '(', '\x7b', '['].contains c)

theorem goesOver_of_inert {a : List Char} (rest : List Char) (h : ∀ c ∈ a, isInert c = true) :
    GoesOver a rest := by
  induction a with
  | nil => exact .nil rest
  | cons c a ih =>
    refine GoesOver.append (a := [c]) ?_ (ih fun d hd => h d (List.mem_cons_of_mem c hd))
    intro stop resume offset hle
    have hc : isInert c = true := h c List.mem_cons_self
    simp only [isInert, List.contains_eq_mem, List.mem_cons, List.not_mem_nil, or_false,
      Bool.not_eq_true', decide_eq_false_iff_not, not_or] at hc
    refine ⟨resume, Nat.le_trans hle (Nat.le_add_right _ _), ?_⟩
    rw [List.singleton_append, endFrom, if_neg (by omega), if_neg (by simp [hc]),
      if_neg (by simp [hc]), Text.width_cons, Text.width_nil, Nat.add_zero]

theorem goesOver_group {inner rest : List Char} (h : Delimiter.balanced '(' ')' inner = true)
    (hbare : Text.isBare ('(' :: (inner ++ ')' :: rest)) = true) :
    GoesOver ('(' :: (inner ++ [')'])) rest := by
  intro stop resume offset hle
  have hwidth : Text.width ('(' :: (inner ++ [')'])) = 1 + Text.width inner + 1 := by
    rw [Text.width_cons, Text.width_append]
    exact (Nat.add_assoc _ _ _).symm
  have hsplit : '(' :: (inner ++ [')']) ++ rest = '(' :: (inner ++ ')' :: rest) := by simp
  refine ⟨offset + 1 + Text.width inner + 1, by omega, ?_⟩
  rw [hsplit, endFrom, if_neg (by omega), if_neg (by decide), if_pos (by decide),
    Delimiter.closeOf?_of_balanced rfl h (Text.isBare_group hbare)]
  show endFrom stop (offset + 1 + Text.width inner + 1) (offset + 1) (inner ++ ')' :: rest) = _
  have hreach : offset + 1 + Text.width (inner ++ [')']) ≤ offset + 1 + Text.width inner + 1 := by
    rw [Text.width_append]
    exact Nat.le_of_eq (Nat.add_assoc _ _ _).symm
  have hskip := endFrom_of_le stop rest hreach
  rw [List.append_assoc, List.singleton_append] at hskip
  have hwhole : Text.width ('(' :: (inner ++ [')'])) = 1 + Text.width (inner ++ [')']) := rfl
  rw [hskip, hwhole, ← Nat.add_assoc]

theorem endAt_of_goesOver {a before rest : List Char} (h : GoesOver a (';' :: rest)) :
    endAt (before ++ (a ++ ';' :: rest)) (Text.width before) = Text.width (before ++ a) := by
  rw [endAt_width_append]
  obtain ⟨resume, hle, heq⟩ := h _ (Text.width before) (Text.width before) (Nat.le_refl _)
  rw [heq, endFrom, if_neg (by omega), if_pos (.inl rfl), Text.width_append]

/-- A statement ends at or after its start, at the end of the text or before a
character that is no space. -/
theorem endAt_spec {masked : List Char} {start : Nat} (hs : Text.IsBoundary masked start) :
    start ≤ endAt masked start ∧ (endAt masked start = Text.width masked ∨
      ∃ c, Text.charAt? masked (endAt masked start) = some c ∧ c ≠ ' ') := by
  have hle := hs.le_width
  obtain ⟨a, b, rfl, rfl⟩ := hs
  rw [endAt_width_append]
  rcases endFrom_eq (Text.width (a ++ b)) (Text.width a) (Text.width a) b with
    h | ⟨before, c, after, rfl, hc, h⟩
  · exact ⟨by rw [h]; exact hle, Or.inl h⟩
  · refine ⟨by rw [h]; exact Nat.le_add_right _ _, Or.inr ⟨c, ?_, hc⟩⟩
    rw [h]
    exact Text.charAt?_eq_some_iff.mpr ⟨a ++ before, after, by rw [List.append_assoc],
      Text.width_append _ _⟩

/-- The end of a statement is a place to cut the text that was blanked. -/
theorem isBoundary_endAt {source masked : List Char} (hb : Blanks source masked) {start : Nat}
    (hs : Text.IsBoundary masked start) : Text.IsBoundary source (endAt masked start) := by
  rcases (endAt_spec hs).2 with h | ⟨c, hc, hne⟩
  · rw [h, hb.width_eq]
    exact Text.isBoundary_width source
  · exact (hb.isBoundary_of_charAt? hne hc).1

/-! ## Behind a given text -/

theorem startsAt_append (before rest : List Char) (labels : Bool) :
    startsAt (before ++ rest) (Text.width before) labels = .ok (startsAfter before labels) := by
  rw [startsAt, Text.width_append, Nat.min_eq_left (Nat.le_add_right _ _), SourceText.headTo,
    Text.takeWidth?_width_append]
  rfl

theorem startsAt_zero (masked : List Char) (labels : Bool) : startsAt masked 0 labels = .ok true :=
  startsAt_append [] masked labels

theorem dropWhile_reverse {last : Char} (hlast : Text.isBlank last = false) (before : List Char)
    {blanks : List Char} (hb : ∀ c ∈ blanks, Text.isBlank c = true) :
    (before ++ last :: blanks).reverse.dropWhile Text.isBlank = last :: before.reverse := by
  rw [List.append_cons, List.reverse_append, List.reverse_append,
    List.dropWhile_append_of_pos fun c hc => hb c (List.mem_reverse.mp hc)]
  exact List.dropWhile_cons_of_neg (by simp [hlast])

/-- The last character in front of the blanks says whether a declaration may start. -/
theorem startsAfter_last {last : Char} (hlast : Text.isBlank last = false) (before : List Char)
    {blanks : List Char} (hb : ∀ c ∈ blanks, Text.isBlank c = true) :
    startsAfter (before ++ last :: blanks) false =
      (last == '\x7b' || last == '\x7d' || last == ';') := by
  rw [startsAfter, dropWhile_reverse hlast before hb]
  split
  · next h => cases h
  · next h =>
    obtain ⟨rfl, -⟩ := List.cons.inj h
    rfl
  · next h =>
    obtain ⟨rfl, -⟩ := List.cons.inj h
    rfl

/-- Behind a character that is no blank it does not matter what stands in front of it. -/
theorem startsAfter_behind {text : List Char} {c : Char} (hmem : c ∈ text)
    (hc : Text.isBlank c = false) (before : List Char) :
    startsAfter (before ++ text) false = startsAfter text false := by
  obtain ⟨lead, last, blanks, rfl, hlast, hblanks⟩ := Text.exists_last hmem hc
  rw [startsAfter_last hlast lead hblanks, ← List.append_assoc, startsAfter_last hlast _ hblanks]

/-- Behind a text without marks no declaration may start. -/
theorem startsAfter_eq_false {text : List Char} {c : Char} (hmem : c ∈ text)
    (hc : Text.isBlank c = false) (hmarks : ∀ mark ∈ ['\x7b', '\x7d', ';'], mark ∉ text)
    (before : List Char) : startsAfter (before ++ text) false = false := by
  obtain ⟨lead, last, blanks, rfl, hlast, hblanks⟩ := Text.exists_last hmem hc
  have hne : ∀ mark ∈ ['\x7b', '\x7d', ';'], last ≠ mark := by
    rintro mark hmark rfl
    exact hmarks last hmark (by simp)
  rw [← List.append_assoc, startsAfter_last hlast _ hblanks]
  simp [hne]

/-- Behind a mark that ends statements or blocks, blanks aside, a declaration may start. -/
theorem startsAfter_of_mark {mark : Char} (hmark : mark ∈ ['\x7b', '\x7d', ';']) (before : List Char)
    {blanks : List Char} (hb : ∀ c ∈ blanks, Text.isBlank c = true) (labels : Bool) :
    startsAfter (before ++ mark :: blanks) labels = true := by
  have hblank : Text.isBlank mark = false := by
    simp only [List.mem_cons, List.not_mem_nil, or_false] at hmark
    rcases hmark with rfl | rfl | rfl <;> rfl
  rw [startsAfter, dropWhile_reverse hblank before hb]
  simp only [List.mem_cons, List.not_mem_nil, or_false] at hmark
  rcases hmark with rfl | rfl | rfl <;> rfl

/-- A declaration may only start behind such a mark, or behind nothing but blanks. -/
theorem exists_of_startsAfter {before : List Char} (h : startsAfter before false = true) :
    (∀ c ∈ before, Text.isBlank c = true) ∨ ∃ a mark b, before = a ++ mark :: b ∧
      mark ∈ ['\x7b', '\x7d', ';'] ∧ ∀ c ∈ b, Text.isBlank c = true := by
  have hsplit := List.takeWhile_append_dropWhile (p := Text.isBlank) (l := before.reverse)
  have hblank : ∀ c ∈ before.reverse.takeWhile Text.isBlank, Text.isBlank c = true :=
    fun c hc => List.all_eq_true.mp List.all_takeWhile c hc
  rw [startsAfter] at h
  split at h
  · next hnil =>
    rw [hnil, List.append_nil] at hsplit
    rw [hsplit] at hblank
    exact .inl fun c hc => hblank c (List.mem_reverse.mpr hc)
  · exact absurd h (by simp)
  · next mark rest _ hcons =>
    refine .inr ⟨rest.reverse, mark, (before.reverse.takeWhile Text.isBlank).reverse, ?_, ?_,
      fun c hc => hblank c (List.mem_reverse.mp hc)⟩
    · rw [hcons] at hsplit
      have hrev := congrArg List.reverse hsplit
      rw [List.reverse_reverse, List.reverse_append, List.reverse_cons] at hrev
      rw [List.append_assoc, List.singleton_append] at hrev
      exact hrev.symm
    · simpa only [Bool.or_eq_true, beq_iff_eq, List.mem_cons, List.not_mem_nil, or_false,
        or_assoc] using h

/-- A body opens behind what neither ends a statement nor opens a group. -/
theorem bodyOpen?_append (front gap rest : List Char)
    (hg : ∀ c ∈ gap, c ∉ ['\x7b', ';', '\x7d', '(']) :
    bodyOpen? (front ++ (gap ++ '\x7b' :: rest)) (Text.width front) =
      some (Text.width (front ++ gap)) := by
  have hfrom : ∀ resume offset, resume ≤ offset →
      bodyOpenFrom resume offset (gap ++ '\x7b' :: rest) = some (offset + Text.width gap) := by
    induction gap with
    | nil =>
      intro resume offset hle
      rw [List.nil_append, bodyOpenFrom, if_neg (by omega), if_pos rfl]
      rfl
    | cons c gap ih =>
      intro resume offset hle
      obtain ⟨hc, hgap⟩ := List.forall_mem_cons.mp hg
      simp only [List.mem_cons, List.not_mem_nil, or_false, not_or] at hc
      rw [List.cons_append, bodyOpenFrom, if_neg (by omega), if_neg hc.1,
        if_neg (not_or.mpr ⟨hc.2.1, hc.2.2.1⟩), if_neg hc.2.2.2, ih hgap _ _ (by omega),
        Text.width_cons, Nat.add_assoc]
  rw [bodyOpen?_width_append, hfrom _ _ (Nat.le_refl _), Text.width_append]

end Statement
end Outline
