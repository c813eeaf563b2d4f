import Outline.Extraction.Cpp.Trailer
import Outline.Proofs.Extraction.Agree
import Outline.Proofs.Extraction.Statement

/-!
# Reading the trailer of a function

The trailer is read over boundaries of the masked text only, so reading it never
gives the extraction up, and the offsets it answers with are those of characters
that no blanking has touched.
-/

namespace Outline
namespace Cpp

/-- Where an ending stands. -/
def Ending.offset : Ending → Nat
  | .body opening => opening
  | .bare stop | .pure stop | .defaulted stop => stop

/-- The ending stands at or after an offset, and a body opens with its brace. -/
def Ending.After (masked : List Char) (start : Nat) (ending : Ending) : Prop :=
  start ≤ ending.offset ∧ ∀ opening, ending = .body opening →
    Text.charAt? masked opening = some '\x7b'

/-- A range lies between two places of the text that was blanked. -/
def RangeIn (source : List Char) (range : Nat × Nat) : Prop :=
  range.1 ≤ range.2 ∧ Text.IsBoundary source range.1 ∧ Text.IsBoundary source range.2

theorem Ending.After.mono {masked : List Char} {start start' : Nat} {ending : Ending}
    (h : ending.After masked start') (hle : start ≤ start') : ending.After masked start :=
  ⟨Nat.le_trans hle h.1, h.2⟩

/-! ## The pieces of a trailer -/

theorem exists_of_constructorBodyFrom {previous : Option Char} {resume offset opening : Nat}
    {rest : List Char} (h : constructorBodyFrom previous resume offset rest = some opening) :
    ∃ before after, rest = before ++ '\x7b' :: after ∧ opening = offset + Text.width before := by
  induction rest generalizing previous resume offset with
  | nil => simp [constructorBodyFrom] at h
  | cons c rest ih =>
    have hlater : ∀ {previous resume},
        constructorBodyFrom previous resume (offset + c.utf8Size) rest = some opening →
        ∃ before after, c :: rest = before ++ '\x7b' :: after ∧
          opening = offset + Text.width before := by
      intro previous resume h
      obtain ⟨before, after, rfl, rfl⟩ := ih h
      exact ⟨c :: before, after, rfl, by rw [Text.width_cons, Nat.add_assoc]⟩
    rw [constructorBodyFrom] at h
    split at h
    · exact hlater h
    · split at h
      · split at h
        · exact hlater h
        · simp at h
      · split at h
        · next hc =>
          rw [Option.some.injEq] at h
          exact ⟨[], rest, by rw [hc]; rfl, h.symm⟩
        · split at h
          · simp at h
          · exact hlater h

theorem charAt?_constructorBody? {masked : List Char} {start opening : Nat}
    (hs : Text.IsBoundary masked start) (h : constructorBody? masked start = some opening) :
    Text.charAt? masked opening = some '\x7b' ∧ start ≤ opening := by
  obtain ⟨a, b, rfl, rfl⟩ := hs
  rw [constructorBody?, Text.suffixAt_width_append] at h
  obtain ⟨before, after, rfl, rfl⟩ := exists_of_constructorBodyFrom h
  refine ⟨Text.charAt?_eq_some_iff.mpr ⟨a ++ before, after, ?_, Text.width_append _ _⟩,
    Nat.le_add_right _ _⟩
  rw [List.append_assoc]

theorem after_of_assignedEnding? {masked rest : List Char} {offset : Nat} {ending : Ending}
    (h : assignedEnding? offset rest = some ending) : ending.After masked offset := by
  rw [assignedEnding?] at h
  obtain ⟨stop, hstop, h⟩ := Option.bind_eq_some_iff.mp h
  obtain ⟨n, _, rfl⟩ := Option.map_eq_some_iff.mp hstop
  have hle : offset ≤ offset + 1 + n := by omega
  dsimp only at h
  split at h
  · cases h
    exact ⟨hle, by simp⟩
  · split at h
    · cases h
      exact ⟨hle, by simp⟩
    · simp at h

theorem width_leadingWord (text : List Char) :
    Text.width (leadingWord text) = (leadingWord text).length :=
  Text.width_eq_length fun c hc =>
    Text.utf8Size_eq_one_of_plain (List.all_eq_true.mp List.all_takeWhile c hc)

/-! ## Rounds -/

/-- What a trailer read from an offset on must be: its ending comes after the
offset, and its return type is a range of the text that was blanked. -/
def Trailer.Good (source masked : List Char) (start : Nat) (trailer : Trailer) : Prop :=
  trailer.ending.After masked start ∧
    ∀ range, trailer.returnRange = some range → RangeIn source range

/-- The same of a round, which may go on at a later boundary. -/
def Round.Good (source masked : List Char) (start : Nat) : Round → Prop
  | .ends trailer => ∀ t, trailer = some t → t.Good source masked start
  | .goesOn returnRange next =>
    start ≤ next ∧ Text.IsBoundary masked next ∧
      ∀ range, returnRange = some range → RangeIn source range

section

variable {source masked : List Char} {returnRange : Option (Nat × Nat)}

theorem Trailer.Good.mono {start start' : Nat} {trailer : Trailer}
    (h : trailer.Good source masked start') (hle : start ≤ start') :
    trailer.Good source masked start :=
  ⟨h.1.mono hle, h.2⟩

/-- Going on after a text that was read at a boundary. -/
theorem Round.good_goesOn {before read after : List Char} (hm : masked = before ++ read ++ after)
    (hr : ∀ range, returnRange = some range → RangeIn source range) {next : Nat}
    (hn : next = Text.width before + Text.width read) :
    (Round.goesOn returnRange next).Good source masked (Text.width before) := by
  refine ⟨by omega, ⟨before ++ read, after, hm, ?_⟩, hr⟩
  rw [hn, Text.width_append]

/-- After an arrow the return type reaches up to the next brace, semicolon or
equals sign, which ends the round. -/
theorem Round.good_returnType (hb : Blanks source masked) {before rest : List Char}
    (hm : masked = before ++ '-' :: '>' :: rest) {n : Nat}
    (hn : Text.find? ['\x7b', ';', '='] rest = some n) :
    (Round.goesOn (some (Text.width before + 2, Text.width before + 2 + n))
      (Text.width before + 2 + n)).Good source masked (Text.width before) := by
  obtain ⟨type, c, after, rfl, hw, hc⟩ := Text.eq_append_of_find? hn
  have harrow : Text.charAt? masked (Text.width before + 1) = some '>' :=
    Text.charAt?_eq_some_iff.mpr ⟨before ++ ['-'], type ++ c :: after, by simp [hm],
      by rw [Text.width_append]; rfl⟩
  have hstop : Text.charAt? masked (Text.width before + 2 + n) = some c := by
    refine Text.charAt?_eq_some_iff.mpr ⟨before ++ '-' :: '>' :: type, after, by simp [hm], ?_⟩
    rw [Text.width_append, Text.width_cons, Text.width_cons, hw]
    simp only [show ('-' : Char).utf8Size = 1 from rfl, show ('>' : Char).utf8Size = 1 from rfl]
    omega
  have hne : c ≠ ' ' := by
    rintro rfl
    simp at hc
  refine ⟨by omega, ?_, ?_⟩
  · obtain ⟨a, b, h, hw'⟩ := Text.charAt?_eq_some_iff.mp hstop
    exact (Text.isBoundary_of_char h hw').1
  · rintro range hrange
    rw [Option.some.injEq] at hrange
    subst hrange
    exact ⟨Nat.le_add_right _ _, (hb.isBoundary_of_charAt? (by decide) harrow).2,
      (hb.isBoundary_of_charAt? hne hstop).1⟩

/-- One round, read at a boundary. -/
theorem roundAt_good (hb : Blanks source masked) {before rest : List Char}
    (hm : masked = before ++ rest)
    (hr : ∀ range, returnRange = some range → RangeIn source range) :
    (roundAt masked returnRange (Text.width before) rest).Good source masked
      (Text.width before) := by
  have hword : ∀ read after : List Char, rest = read ++ after → ∀ {next : Nat},
      next = Text.width before + Text.width read →
      (Round.goesOn returnRange next).Good source masked (Text.width before) := by
    intro read after h next hn
    exact Round.good_goesOn (by rw [hm, h, List.append_assoc]) hr hn
  unfold roundAt
  split
  · simp [Round.Good]
  · next rest =>
    rintro t ht
    cases ht
    refine ⟨⟨Nat.le_refl _, fun opening ho => ?_⟩, hr⟩
    cases ho
    exact Text.charAt?_eq_some_iff.mpr ⟨before, rest, hm, rfl⟩
  · rintro t ht
    cases ht
    exact ⟨⟨Nat.le_refl _, by simp⟩, hr⟩
  · rintro t ht
    obtain ⟨ending, he, rfl⟩ := Option.map_eq_some_iff.mp ht
    exact ⟨after_of_assignedEnding? he, hr⟩
  · simp [Round.Good]
  · next rest _ =>
    rintro t ht
    obtain ⟨opening, ho, rfl⟩ := Option.map_eq_some_iff.mp ht
    have hcolon : Text.IsBoundary masked (Text.width before + 1) :=
      (Text.isBoundary_of_char hm rfl).2
    obtain ⟨hc, hle⟩ := charAt?_constructorBody? hcolon ho
    refine ⟨⟨by show Text.width before ≤ opening; omega, fun o h => ?_⟩, hr⟩
    cases h
    exact hc
  · split
    · next n hn => exact Round.good_returnType hb hm hn
    · simp [Round.Good]
  · next rest => exact hword ['&', '&'] rest rfl rfl
  · next rest _ => exact hword ['&'] rest rfl rfl
  · next rest' _ _ _ _ _ _ _ _ _ =>
    have hlead : rest = leadingWord rest ++
        rest.dropWhile (fun c => c.isAlphanum || c == '_') :=
      List.takeWhile_append_dropWhile.symm
    dsimp only
    split
    · exact hword _ _ hlead (by rw [width_leadingWord])
    · split
      · have hafter : Text.IsBoundary masked (Text.width before + (leadingWord rest).length) := by
          refine ⟨before ++ leadingWord rest,
            rest.dropWhile (fun c => c.isAlphanum || c == '_'), ?_, ?_⟩
          · rw [List.append_assoc, ← hlead, hm]
          · rw [Text.width_append, width_leadingWord]
        have hskip := Text.isBoundary_skipBlanks (Or.inl hafter)
        have hle := Text.le_skipBlanks hafter.le_width
        split
        · next hparen =>
          refine ⟨?_, Delimiter.isBoundary_find_close_succ rfl hparen, hr⟩
          have := Delimiter.le_find_close rfl hparen
          omega
        · exact ⟨by omega, hskip, hr⟩
      · simp [Round.Good]

/-- Reading a trailer from a boundary succeeds, and what it answers with is good. -/
theorem trailerFrom_yields (hb : Blanks source masked) (fuel : Nat) {start : Nat}
    (hs : Text.IsBoundary masked start)
    (hr : ∀ range, returnRange = some range → RangeIn source range) :
    Yields (trailerFrom masked fuel returnRange start) fun trailer =>
      ∀ t, trailer = some t → t.Good source masked start := by
  induction fuel generalizing returnRange start with
  | zero => exact .ok (by simp)
  | succ fuel ih =>
    have hskip := Text.isBoundary_skipBlanks (Or.inl hs)
    have hle := Text.le_skipBlanks hs.le_width
    rw [trailerFrom]
    refine (SourceText.tailFrom_yields hskip).bind fun rest hrest => ?_
    obtain ⟨before, hm, hw⟩ := hrest
    have hgood := roundAt_good hb hm hr
    rw [hw] at hgood
    split
    · next trailer hround =>
      rw [hround] at hgood
      exact .ok fun t ht => (hgood t ht).mono hle
    · next range next hround =>
      rw [hround] at hgood
      refine (ih hgood.2.1 hgood.2.2).mono fun trailer hgood' t ht => ?_
      exact (hgood' t ht).mono (Nat.le_trans hle hgood.1)

theorem trailer?_yields (hb : Blanks source masked) {start : Nat}
    (hs : Text.IsBoundary masked start) :
    Yields (trailer? masked start) fun trailer =>
      ∀ t, trailer = some t → t.Good source masked start :=
  trailerFrom_yields hb _ hs (by simp)

end

end Cpp
end Outline

/-!
## Rounds of reading a trailer

Every round reads on, so that there are never more of them than characters left to
read: what a trailer is does not depend on how many rounds it may take.  So a trailer
is read further down as it is read where it stands, although the text is longer there.
-/

namespace Outline

/-! ### What is left to read -/

namespace Text

theorem length_suffixAt_le (text : List Char) (offset : Nat) :
    (suffixAt text offset).length ≤ text.length := by
  rw [suffixAt]
  cases hdrop : dropWidth? offset text with
  | none => exact Nat.zero_le _
  | some rest =>
    obtain ⟨before, rfl, -⟩ := eq_append_of_dropWidth? hdrop
    simp

/-- After a later offset there is less left of a text. -/
theorem length_suffixAt_lt {text rest : List Char} {offset next : Nat}
    (h : dropWidth? offset text = some rest) (hne : rest ≠ []) (hlt : offset < next) :
    (suffixAt text next).length < rest.length := by
  rw [suffixAt]
  cases hdrop : dropWidth? next text with
  | none => exact List.length_pos_iff.mpr hne
  | some later =>
    obtain ⟨before, htext, rfl⟩ := eq_append_of_dropWidth? h
    obtain ⟨before', htext', rfl⟩ := eq_append_of_dropWidth? hdrop
    obtain ⟨read, rfl, rfl⟩ := append_of_width_le (htext.symm.trans htext') (Nat.le_of_lt hlt)
    have hread : 0 < read.length := by
      refine List.length_pos_iff.mpr ?_
      rintro rfl
      simp at hlt
    simp only [Option.getD_some, List.length_append]
    omega

/-- Blanks are read on the way to what is left. -/
theorem length_le_of_skipBlanks {text rest : List Char} {start : Nat}
    (h : dropWidth? (skipBlanks text start) text = some rest) :
    rest.length ≤ (suffixAt text start).length := by
  rw [skipBlanks] at h
  rw [suffixAt]
  cases hdrop : dropWidth? start text with
  | none =>
    rw [hdrop] at h
    dsimp only at h
    rcases Nat.le_total start (width text) with hle | hle
    · rw [Nat.min_eq_left hle, hdrop] at h
      cases h
    · have hend : dropWidth? (width text) (text ++ []) = some [] := dropWidth?_width_append text []
      rw [List.append_nil] at hend
      rw [Nat.min_eq_right hle, hend, Option.some.injEq] at h
      subst h
      exact Nat.zero_le _
  | some left =>
    rw [hdrop] at h
    dsimp only at h
    obtain ⟨before, rfl, rfl⟩ := eq_append_of_dropWidth? hdrop
    rw [← width_append] at h
    have hleft : left.takeWhile isAsciiBlank ++ left.dropWhile isAsciiBlank = left :=
      List.takeWhile_append_dropWhile
    have hrest := dropWidth?_width_append (before ++ left.takeWhile isAsciiBlank)
      (left.dropWhile isAsciiBlank)
    rw [List.append_assoc, hleft, h, Option.some.injEq] at hrest
    rw [Option.getD_some, hrest, ← congrArg List.length hleft, List.length_append]
    exact Nat.le_add_left _ _

end Text

namespace Cpp

theorem length_leadingWord_pos {words : List String} {rest : List Char}
    (h : isWord words (leadingWord rest) = true) (hwords : "" ∉ words) :
    0 < (leadingWord rest).length := by
  refine List.length_pos_iff.mpr fun hnil => hwords ?_
  rw [hnil] at h
  simpa [isWord] using h

theorem length_leadingWord_le (rest : List Char) :
    (leadingWord rest).length ≤ Text.width rest := by
  have hlead : leadingWord rest ++ rest.dropWhile (fun c => c.isAlphanum || c == '_') = rest :=
    List.takeWhile_append_dropWhile
  have hwidth := congrArg Text.width hlead
  rw [Text.width_append, width_leadingWord] at hwidth
  omega

/-- A round that goes on has read something. -/
theorem lt_of_roundAt_eq_goesOn {masked rest : List Char} {range range' : Option (Nat × Nat)}
    {offset next : Nat} (hrest : Text.dropWidth? offset masked = some rest)
    (h : roundAt masked range offset rest = .goesOn range' next) : offset < next := by
  obtain ⟨before, rfl, rfl⟩ := Text.eq_append_of_dropWidth? hrest
  unfold roundAt at h
  split at h
  · cases h
  · cases h
  · cases h
  · cases h
  · cases h
  · cases h
  · split at h
    · cases h
      omega
    · cases h
  · cases h
    omega
  · cases h
    omega
  · dsimp only at h
    split at h
    · next hw =>
      have hpos := length_leadingWord_pos hw (by decide)
      cases h
      omega
    · split at h
      · next hw =>
        have hpos := length_leadingWord_pos hw (by decide)
        have hle : Text.width before + (leadingWord rest).length ≤ Text.width (before ++ rest) := by
          rw [Text.width_append]
          exact Nat.add_le_add_left (length_leadingWord_le rest) _
        have hskip := Text.le_skipBlanks hle
        split at h
        · next hparen =>
          have hclose := Delimiter.le_find_close (d := ')') rfl hparen
          cases h
          omega
        · cases h
          omega
      · cases h

/-- More rounds than there are characters left to read change nothing. -/
theorem trailerFrom_add {masked : List Char} (more : Nat) {fuel start : Nat}
    (h : (Text.suffixAt masked start).length < fuel) (range : Option (Nat × Nat)) :
    trailerFrom masked (fuel + more) range start = trailerFrom masked fuel range start := by
  induction fuel generalizing start range with
  | zero => exact absurd h (Nat.not_lt_zero _)
  | succ fuel ih =>
    rw [Nat.succ_add, trailerFrom, trailerFrom, SourceText.tailFrom]
    cases hdrop : Text.dropWidth? (Text.skipBlanks masked start) masked with
    | none => rfl
    | some rest =>
      dsimp only [bind, Except.bind]
      cases hround : roundAt masked range (Text.skipBlanks masked start) rest with
      | ends trailer => rfl
      | goesOn range' next =>
        have hne : rest ≠ [] := by
          rintro rfl
          cases hround
        have hlt := Text.length_suffixAt_lt hdrop hne (lt_of_roundAt_eq_goesOn hdrop hround)
        have hle := Text.length_le_of_skipBlanks hdrop
        exact ih (by omega) range'

/-! ### Further down -/

def Ending.down (n : Nat) : Ending → Ending
  | .body opening => .body (opening + n)
  | .bare stop => .bare (stop + n)
  | .pure stop => .pure (stop + n)
  | .defaulted stop => .defaulted (stop + n)

/-- A trailer so many bytes further down. -/
def Trailer.down (n : Nat) (trailer : Trailer) : Trailer :=
  ⟨trailer.ending.down n, trailer.returnRange.map (downRange n)⟩

def Round.down (n : Nat) : Round → Round
  | .ends trailer => .ends (trailer.map (Trailer.down n))
  | .goesOn returnRange next => .goesOn (returnRange.map (downRange n)) (next + n)

theorem constructorBodyFrom_add {n offset resume resume' : Nat}
    (h : Statement.ResumesAt n offset resume resume') (previous : Option Char) (text : List Char) :
    constructorBodyFrom previous resume' (offset + n) text =
      (constructorBodyFrom previous resume offset text).map (· + n) := by
  induction text generalizing previous offset resume resume' with
  | nil => rfl
  | cons c text ih =>
    have hrest := ih (h.later c.utf8Size)
    rw [constructorBodyFrom, constructorBodyFrom, Nat.add_right_comm offset n,
      Delimiter.closeOf?_add]
    simp only [h offset (Nat.le_refl _), hrest]
    split
    · rfl
    · split
      · cases Delimiter.closeOf? offset (c :: text) with
        | none => rfl
        | some close => exact ih (.after n _ close) _
      · split
        · rfl
        · split <;> rfl

section

variable (n : Nat) (masked : List Char)

theorem constructorBody?_lower (start : Nat) :
    constructorBody? (Text.lower n masked) (start + n) =
      (constructorBody? masked start).map (· + n) := by
  have hfeeds : (List.replicate n '\n').find? (fun c => !Text.isBlank c) = none := by
    rw [List.find?_eq_none]
    intro c hc
    rw [(List.mem_replicate.mp hc).2]
    decide
  rw [constructorBody?, constructorBody?, Text.suffixAt_lower, Text.before_lower,
    Text.reverse_lower, List.find?_append, hfeeds, Option.or_none]
  exact constructorBodyFrom_add (.zero _ _) _ _

theorem assignedEnding?_add (offset : Nat) (rest : List Char) :
    assignedEnding? (offset + n) rest = (assignedEnding? offset rest).map (Ending.down n) := by
  rw [assignedEnding?, assignedEnding?]
  cases Text.find? [';'] rest with
  | none => rfl
  | some width =>
    have hstop : offset + n + 1 + width = offset + 1 + width + n := by omega
    show (if _ then some (Ending.pure (offset + n + 1 + width)) else
      if _ then some (Ending.defaulted (offset + n + 1 + width)) else none) = _
    rw [hstop]
    show _ = Option.map (Ending.down n) (if _ then some (Ending.pure (offset + 1 + width)) else
      if _ then some (Ending.defaulted (offset + 1 + width)) else none)
    split
    · rfl
    · split <;> rfl

theorem roundAt_lower {masked : List Char} (h : masked ≠ []) (range : Option (Nat × Nat))
    (offset : Nat) (rest : List Char) :
    roundAt (Text.lower n masked) (range.map (downRange n)) (offset + n) rest =
      (roundAt masked range offset rest).down n := by
  unfold roundAt
  split
  · rfl
  · rfl
  · rfl
  · rw [assignedEnding?_add, Round.down, Option.map_map, Option.map_map]
    rfl
  · rfl
  · rw [Nat.add_right_comm offset, constructorBody?_lower, Round.down, Option.map_map,
      Option.map_map]
    rfl
  · next rest =>
    cases Text.find? ['\x7b', ';', '='] rest with
    | none => rfl
    | some width =>
      simp only [Round.down, Option.map_some, downRange, Nat.add_right_comm offset n,
        Nat.add_right_comm (offset + 2) n]
  · rw [Round.down, Nat.add_right_comm]
  · rw [Round.down, Nat.add_right_comm]
  · dsimp only
    rw [Nat.add_right_comm offset n, Text.skipBlanks_lower, Text.charAt?_lower,
      Delimiter.find_lower n h, Delimiter.Match.close_down, Nat.add_right_comm _ n 1]
    split
    · rfl
    · split
      · split <;> rfl
      · rfl

theorem trailerFrom_lower {masked : List Char} (h : masked ≠ []) (fuel : Nat)
    (range : Option (Nat × Nat)) (start : Nat) :
    Agree n (fun x y => y = x.map (Trailer.down n)) (trailerFrom masked fuel range start)
      (trailerFrom (Text.lower n masked) fuel (range.map (downRange n)) (start + n)) := by
  induction fuel generalizing range start with
  | zero => exact .ok rfl
  | succ fuel ih =>
    rw [trailerFrom, trailerFrom, Text.skipBlanks_lower]
    refine (SourceText.tailFrom_lower n masked _).bind_eq fun rest => ?_
    rw [roundAt_lower n h]
    cases roundAt masked range (Text.skipBlanks masked start) rest with
    | ends trailer => exact .ok rfl
    | goesOn range' next => exact ih range' next

theorem trailer?_lower {masked : List Char} (h : masked ≠ []) (start : Nat) :
    Agree n (fun x y => y = x.map (Trailer.down n)) (trailer? masked start)
      (trailer? (Text.lower n masked) (start + n)) := by
  have hfuel : (Text.lower n masked).length + 1 = masked.length + 1 + n := by
    rw [Text.lower, List.length_append, List.length_replicate]
    omega
  have hle := Text.length_suffixAt_le masked start
  -- The longer text allows more rounds, which the shorter one has no use for.
  rw [trailer?, trailer?, hfuel, ← trailerFrom_add n (Nat.lt_succ_of_le hle)]
  exact trailerFrom_lower n h _ none start

end

end Cpp
end Outline
