import Outline.Proofs.Declaration.DocBlock
import Outline.Proofs.Declaration.Paired
import Outline.Proofs.Source.CommentText

/-!
# Documentation that is no code

The walk up from a declaration collects lines, and of the line where a block opens the part
from the mark on.  Between two of these parts there are only blanks, so all of them are hidden
in the view without comments exactly when one run of comments, begun in code, covers them.  A
line like `/* a */ int x; /* b */` starts and ends like a comment without being part of one.
-/

namespace Outline

/-! ## Lines from below -/

namespace Text

/-- A text that ends with a line, and its lines, the last one first. -/
inductive Lined : List (List Char) → List Char → Prop
  | nil : Lined [] []
  | cons {above : List (List Char)} {front raw ending : List Char} (habove : Lined above front)
      (hstart : startsLine front = true) (hcount : front.count '\n' = above.length)
      (hending : ∀ c ∈ ending, isBlank c = true) : Lined (raw :: above) (front ++ (raw ++ ending))

/-- One more line in front of all. -/
theorem Lined.under {above : List (List Char)} {front line : List Char} (h : Lined above front)
    (hline : '\n' ∉ line) : Lined (above ++ [chopReturn line]) (line ++ '\n' :: front) := by
  induction h with
  | nil =>
    rcases chopReturn_cases line with hchop | hchop
    · have hlined : Lined [chopReturn line] ([] ++ (chopReturn line ++ ['\n'])) :=
        .cons .nil rfl rfl (by decide)
      rw [hchop] at hlined ⊢
      exact hlined
    · have hlined : Lined [chopReturn line] ([] ++ (chopReturn line ++ ['\r', '\n'])) :=
        .cons .nil rfl rfl (by decide)
      have htext : line ++ ['\n'] = [] ++ (chopReturn line ++ ['\r', '\n']) := by
        conv_lhs => rw [hchop]
        simp
      rw [htext]
      exact hlined
  | @cons above front raw ending _ hstart hcount hending ih =>
    have hlined : Lined (raw :: (above ++ [chopReturn line]))
        ((line ++ '\n' :: front) ++ (raw ++ ending)) := by
      refine .cons ih ?_ ?_ hending
      · rwa [startsLine_append_feed]
      · rw [List.count_append, List.count_cons_self, List.count_eq_zero_of_not_mem hline, hcount,
          List.length_append, List.length_singleton, Nat.zero_add]
    rwa [List.append_assoc, List.cons_append] at hlined

/-- The first lines of a text take up what is in front of the others. -/
theorem exists_lined (source : List Char) (n : Nat) :
    ∃ front rest, source = front ++ rest ∧ Lined ((lines source).take n).reverse front ∧
      (startsLine front = true ∨ rest = []) := by
  induction source using induction_lines generalizing n with
  | last line hline =>
    rw [lines_of_not_mem hline]
    cases n with
    | zero => exact ⟨[], line, rfl, .nil, .inl rfl⟩
    | succ n =>
      cases line with
      | nil => exact ⟨[], [], rfl, .nil, .inr rfl⟩
      | cons c line =>
        refine ⟨[] ++ ((c :: line) ++ []), [], by simp, ?_, .inr rfl⟩
        have hlines : ([c :: line].take (n + 1)).reverse = [c :: line] := by simp
        rw [if_neg (by simp), hlines]
        exact .cons .nil rfl rfl (by simp)
  | feed line rest hline ih =>
    cases n with
    | zero => exact ⟨[], _, rfl, by simpa using Lined.nil, .inl rfl⟩
    | succ n =>
      obtain ⟨front, behind, rfl, hlined, hends⟩ := ih n
      refine ⟨line ++ '\n' :: front, behind, by simp, ?_, ?_⟩
      · rw [lines_append_feed hline, List.take_succ_cons, List.reverse_cons]
        exact hlined.under hline
      · rwa [startsLine_append_feed]

/-- Behind blanks and in front of blanks a line is what is left when it is trimmed. -/
theorem exists_trim_eq (line : List Char) :
    ∃ lead trail, line = lead ++ (trim line ++ trail) ∧ (∀ c ∈ lead, isBlank c = true) ∧
      (∀ c ∈ trail, isBlank c = true) ∧
      (∀ c, (trim line).getLast? = some c → isBlank c = false) ∧ (trim line = [] → lead = []) := by
  obtain ⟨trail, htrail, hblank, hlast⟩ := exists_eq_trimEnd_append (trimStart line)
  have hlead : ∀ c ∈ line.takeWhile isBlank, isBlank c = true :=
    fun c hc => List.all_eq_true.mp List.all_takeWhile c hc
  have hline : line = line.takeWhile isBlank ++ (trim line ++ trail) := by
    rw [trim, ← htrail, trimStart, List.takeWhile_append_dropWhile]
  by_cases hnil : trim line = []
  · rw [hnil, List.nil_append] at hline
    refine ⟨[], line, by rw [hnil]; rfl, by simp, ?_, hlast, fun _ => rfl⟩
    rw [hline]
    exact List.forall_mem_append.mpr ⟨hlead, hblank⟩
  · exact ⟨_, trail, hline, hlead, hblank, hlast, fun h => absurd h hnil⟩

end Text

/-- A line starts behind as many line feeds as there are lines above it. -/
theorem LineIndex.lineStart_of_startsLine {front : List Char} (h : Text.startsLine front = true)
    (rest : List Char) :
    (ofText (front ++ rest)).lineStart (front.count '\n' + 1) = Text.width front := by
  rw [lineStart, ofText, Nat.add_sub_cancel]
  rcases List.eq_nil_or_concat front with rfl | ⟨lead, last, rfl⟩
  · rfl
  · rw [List.concat_eq_append] at h ⊢
    obtain rfl : last = '\n' := by simpa [Text.startsLine] using h
    have hlength : (Text.startsAfterFeeds 0 lead).length = lead.count '\n' :=
      Text.length_startsAfterFeeds 0 lead
    rw [List.count_append, List.count_singleton_self, List.append_assoc, List.singleton_append,
      Text.startsAfterFeeds_append, ← hlength, List.getElem?_cons_succ,
      List.getElem?_append_right (Nat.le_refl _), Nat.sub_self, Text.startsAfterFeeds, if_pos rfl,
      List.getElem?_cons_zero, Option.getD_some, Text.width_append, Nat.zero_add]
    rfl

namespace Docstring

/-! ## What the documentation is made of -/

/-- A line of documentation, with its number in the source and what stands in front of it
there. -/
structure Part where
  line : Nat
  front : List Char
  text : List Char
  deriving DecidableEq, Repr

/-- The part of a line that ends with its last character that is not blank. -/
def partOf (above : List (List Char)) (raw text : List Char) : Part where
  line := above.length + 1
  front := (Text.trimEnd raw).take ((Text.trimEnd raw).length - text.length)
  text := text

/-- `block` with the places of the lines. -/
def blockParts (collected : List Part) : List (List Char) → List Part
  | [] => []
  | raw :: above =>
    match Text.fromWord? ['/', '*'] (Text.trim raw) with
    | some comment => partOf above raw comment :: collected
    | none => blockParts (partOf above raw (Text.trim raw) :: collected) above

/-- `commentLines` with the places of the lines. -/
def parts (skipped : List String) (collected : List Part) : List (List Char) → List Part
  | [] => collected
  | raw :: above =>
    let line := Text.trim raw
    if line.isEmpty then parts skipped collected above
    else if collected.isEmpty && skipped.any (fun word => Text.startsWith line word.toList) then
      parts skipped collected above
    else if Text.startsWith line ['/', '/'] then
      parts skipped (partOf above raw line :: collected) above
    else if Text.endsWith line ['*', '/'] then
      if Text.startsWith line ['/', '*'] then partOf above raw line :: collected
      else if Text.contains line ['/', '*'] then collected
      else blockParts (partOf above raw line :: collected) above
    else collected

/-- The parts of a source that document the declaration on a line. -/
def documenting (source : List Char) (line : Nat) (skipped : List String) : List Part :=
  parts skipped [] ((Text.lines source).take (line - 1)).reverse

theorem map_text_blockParts (collected : List Part) (above : List (List Char)) :
    (blockParts collected above).map Part.text = block (collected.map Part.text) above := by
  induction above generalizing collected with
  | nil => rfl
  | cons raw above ih =>
    rw [blockParts, block]
    cases Text.fromWord? ['/', '*'] (Text.trim raw) with
    | some comment => rfl
    | none => exact ih _

theorem map_text_parts (skipped : List String) (collected : List Part)
    (above : List (List Char)) :
    (parts skipped collected above).map Part.text =
      commentLines skipped (collected.map Part.text) above := by
  induction above generalizing collected with
  | nil => rfl
  | cons raw above ih =>
    have hempty : (collected.map Part.text).isEmpty = collected.isEmpty := by simp
    rw [parts, commentLines, hempty]
    split
    · exact ih collected
    split
    · exact ih collected
    split
    · exact ih _
    split
    · split
      · rfl
      split
      · rfl
      · exact map_text_blockParts _ above
    · rfl

/-- The documentation is read off these parts. -/
theorem find_eq_parts (source : List Char) (line : Nat) (skipped : List String) :
    find (Text.lines source) line skipped =
      Text.trim (Text.join ['\n'] ((documenting source line skipped).map (unmark ·.text))) := by
  have hparts := map_text_parts skipped [] ((Text.lines source).take (line - 1)).reverse
  rw [List.map_nil] at hparts
  rw [find, ← hparts, List.map_map, documenting]
  rfl

namespace Part

variable (part : Part) (source : List Char)

/-- Where a part starts in the source. -/
def start : Nat :=
  (LineIndex.ofText source).lineStart part.line + Text.width part.front

/-- Where a part ends in the source. -/
def stop : Nat := part.start source + Text.width part.text

/-- Whether the view without comments has only blanks where the part stands. -/
def hidden (rules : MaskRules) : Bool :=
  (Text.slice? (Mask.stripped rules source) (part.start source) (part.stop source)).any
    (·.all Text.isBlank)

end Part

open Mask Java

variable {source : List Char}

theorem Part.hidden_iff {rules : MaskRules} {before word behind : Tinted} {part : Part}
    (h : tinted rules source = before ++ (word ++ behind))
    (hstart : part.start source = Text.width (wordOf before)) (htext : wordOf word = part.text) :
    part.hidden source rules = true ↔ Unseen word := by
  have hslice : Text.slice? (stripped rules source) (part.start source) (part.stop source) =
      some (view (· == .comment) word) := by
    rw [stripped, ← view_tinted, h, view_append, view_append, ← List.append_assoc]
    refine Text.slice?_eq_some_iff.mpr ⟨_, _, rfl, ?_, ?_⟩
    · rw [width_view, hstart]
    · rw [Text.width_append, width_view, width_view, Part.stop, hstart, htext]
  rw [Part.hidden, hslice, Option.any_some, List.all_eq_true, unseen_iff_view]

/-! ## Parts with blanks between them -/

/-- Parts of a source one behind the other, with only blanks between them, from behind a front
on, and what they take up together. -/
inductive Adjoin (source : List Char) : List Part → List Char → List Char → Prop
  | last {part : Part} {front : List Char} (hstart : part.start source = Text.width front) :
    Adjoin source [part] front part.text
  | cons {part : Part} {parts : List Part} {front gap region : List Char}
      (hstart : part.start source = Text.width front)
      (hgap : ∀ c ∈ gap, Text.isBlank c = true)
      (hparts : Adjoin source parts (front ++ (part.text ++ gap)) region) :
    Adjoin source (part :: parts) front (part.text ++ (gap ++ region))

/-- Each part stands where it says. -/
theorem Adjoin.exists_eq {parts : List Part} {front region : List Char}
    (h : Adjoin source parts front region) {part : Part} (hpart : part ∈ parts) :
    ∃ lead more, region = lead ++ (part.text ++ more) ∧
      part.start source = Text.width (front ++ lead) := by
  induction h with
  | last hstart =>
    obtain rfl := List.mem_singleton.mp hpart
    exact ⟨[], [], by simp, by rw [hstart, List.append_nil]⟩
  | @cons first parts front gap region hstart _ _ ih =>
    rcases List.mem_cons.mp hpart with rfl | hpart
    · exact ⟨[], gap ++ region, rfl, by rw [hstart, List.append_nil]⟩
    · obtain ⟨lead, more, rfl, hpartStart⟩ := ih hpart
      exact ⟨first.text ++ (gap ++ lead), more, by simp, by rw [hpartStart]; simp⟩

/-- Where all parts are hidden, so is what they take up together. -/
theorem Adjoin.unseen {rules : MaskRules} {parts : List Part} {front region : List Char}
    (h : Adjoin source parts front region) {before word behind : Tinted}
    (htinted : tinted rules source = before ++ (word ++ behind)) (hbefore : wordOf before = front)
    (hword : wordOf word = region) (hhidden : ∀ part ∈ parts, part.hidden source rules = true) :
    Unseen word := by
  induction h generalizing before word with
  | last hstart =>
    exact (Part.hidden_iff htinted (hbefore ▸ hstart) hword).mp (hhidden _ List.mem_cons_self)
  | @cons part parts front gap region hstart hgap _ ih =>
    obtain ⟨text, rest, rfl, htext, hrest⟩ := List.map_eq_append_iff.mp hword
    obtain ⟨blanks, more, rfl, hblanks, hmore⟩ := List.map_eq_append_iff.mp hrest
    have hgap : Unseen blanks := fun x hx =>
      .inr (hgap x.2 (hblanks ▸ List.mem_map_of_mem hx))
    have hfirst : tinted rules source = before ++ (text ++ (blanks ++ (more ++ behind))) := by
      rw [htinted]
      simp
    have hlater : tinted rules source = (before ++ (text ++ blanks)) ++ (more ++ behind) := by
      rw [htinted]
      simp
    have hfront : wordOf (before ++ (text ++ blanks)) = front ++ (part.text ++ gap) := by
      rw [wordOf_append, wordOf_append, hbefore]
      exact congrArg _ (congrArg₂ _ htext hblanks)
    have hpart : Unseen text :=
      (Part.hidden_iff hfirst (hbefore ▸ hstart) htext).mp (hhidden part List.mem_cons_self)
    exact unseen_append.mpr ⟨hpart, unseen_append.mpr ⟨hgap,
      ih hlater hfront hmore fun x hx => hhidden x (List.mem_cons_of_mem _ hx)⟩⟩

/-! ## The walk -/

/-- What has been collected behind the lines that are still to be walked: nothing, or parts
with only blanks in front of them. -/
inductive Kept (source front : List Char) : List Part → Prop
  | nothing {rest : List Char} (hsource : source = front ++ rest)
      (hends : Text.startsLine front = true ∨ rest = []) : Kept source front []
  | behind {parts : List Part} {gap region rear : List Char}
      (hsource : source = front ++ (gap ++ (region ++ rear)))
      (hgap : ∀ c ∈ gap, Text.isBlank c = true)
      (hparts : Adjoin source parts (front ++ gap) region)
      (hrear : rear.head?.all Text.isBlank = true) : Kept source front parts

/-- Parts of a source that stand together, the first of which starts with a character that is
not blank, in front of a blank or the end. -/
structure Located (source : List Char) (parts : List Part) (front region rear : List Char) :
    Prop where
  eq : source = front ++ (region ++ rear)
  adjoin : Adjoin source parts front region
  head : region.head?.any (!Text.isBlank ·) = true
  rear : rear.head?.all Text.isBlank = true

section Walk

variable {above : List (List Char)} {front raw ending lead text trail : List Char}
  {collected : List Part}

theorem partOf_front (hraw : raw = lead ++ (text ++ trail))
    (htrail : ∀ c ∈ trail, Text.isBlank c = true) (hlead : text = [] → lead = [])
    (hlast : ∀ c, text.getLast? = some c → Text.isBlank c = false) :
    (partOf above raw text).front = lead := by
  have htrim : Text.trimEnd raw = lead ++ text := by
    rw [hraw, ← List.append_assoc]
    refine Text.trimEnd_append_blanks htrail fun c hc => ?_
    by_cases htext : text = []
    · rw [htext, hlead htext] at hc
      cases hc
    · rw [List.getLast?_append_of_ne_nil lead htext] at hc
      exact hlast c hc
  rw [partOf, htrim, List.length_append, Nat.add_sub_cancel, List.take_left]

theorem Kept.exists_eq (h : Kept source front collected) : ∃ rest, source = front ++ rest := by
  cases h with
  | nothing hsource _ => exact ⟨_, hsource⟩
  | behind hsource _ _ _ => exact ⟨_, hsource⟩

/-- Behind the last character of a line that is not blank comes a blank or the end. -/
theorem all_head?_behind {rest : List Char} (htext : text ≠ [])
    (hlast : ∀ c, text.getLast? = some c → Text.isBlank c = false)
    (htrail : ∀ c ∈ trail, Text.isBlank c = true)
    (hends : Text.startsLine (front ++ (text ++ trail)) = true ∨ rest = []) :
    (trail ++ rest).head?.all Text.isBlank = true := by
  cases trail with
  | cons c trail => exact htrail c List.mem_cons_self
  | nil =>
    rcases hends with hends | rfl
    · obtain ⟨init, c, rfl⟩ := (List.eq_nil_or_concat text).resolve_left htext
      rw [List.append_nil, List.concat_eq_append, ← List.append_assoc] at hends
      obtain rfl : c = '\n' := by simpa [Text.startsLine] using hends
      have hfeed := hlast '\n' (by simp)
      cases hfeed
    · rfl

/-- One more line is collected, from some place of it on. -/
theorem Kept.collect (h : Kept source (front ++ (raw ++ ending)) collected)
    (hstart : Text.startsLine front = true) (hcount : front.count '\n' = above.length)
    (hending : ∀ c ∈ ending, Text.isBlank c = true) (hraw : raw = lead ++ (text ++ trail))
    (htrail : ∀ c ∈ trail, Text.isBlank c = true) (hlead : text = [] → lead = [])
    (hlast : ∀ c, text.getLast? = some c → Text.isBlank c = false)
    (hfirst : collected = [] → text ≠ []) :
    ∃ more rear, source = front ++ (lead ++ ((text ++ more) ++ rear)) ∧
      Adjoin source (partOf above raw text :: collected) (front ++ lead) (text ++ more) ∧
      rear.head?.all Text.isBlank = true := by
  have hfront : (partOf above raw text).front = lead := partOf_front hraw htrail hlead hlast
  have hbehind : ∀ c ∈ trail ++ ending, Text.isBlank c = true :=
    List.forall_mem_append.mpr ⟨htrail, hending⟩
  have hpart : (partOf above raw text).start source = Text.width (front ++ lead) := by
    obtain ⟨rest, hrest⟩ := h.exists_eq
    rw [List.append_assoc] at hrest
    have hline := LineIndex.lineStart_of_startsLine hstart ((raw ++ ending) ++ rest)
    rw [← hrest, hcount] at hline
    rw [Part.start, hfront, Text.width_append]
    exact congrArg (· + _) hline
  cases h with
  | @nothing rest hsource hends =>
    refine ⟨[], (trail ++ ending) ++ rest, ?_, ?_, ?_⟩
    · rw [hsource, hraw]
      simp
    · rw [List.append_nil]
      exact .last hpart
    · have hlined : front ++ (raw ++ ending) = front ++ lead ++ (text ++ (trail ++ ending)) := by
        rw [hraw]
        simp
      rw [hlined] at hends
      exact all_head?_behind (hfirst rfl) hlast hbehind hends
  | @behind _ gap region rear hsource hgap hparts hrear =>
    refine ⟨(trail ++ ending ++ gap) ++ region, rear, ?_, ?_, hrear⟩
    · rw [hsource, hraw]
      simp
    · refine .cons hpart (List.forall_mem_append.mpr ⟨hbehind, hgap⟩) ?_
      have htext : front ++ (raw ++ ending) ++ gap =
          front ++ lead ++ (text ++ (trail ++ ending ++ gap)) := by
        rw [hraw]
        simp
      rwa [htext] at hparts

/-- A line is passed over when it is blank or nothing has been collected. -/
theorem Kept.pass (h : Kept source (front ++ (raw ++ ending)) collected)
    (hstart : Text.startsLine front = true) (hending : ∀ c ∈ ending, Text.isBlank c = true)
    (hraw : collected = [] ∨ ∀ c ∈ raw, Text.isBlank c = true) : Kept source front collected := by
  cases h with
  | nothing hsource hends => exact .nothing (hsource.trans (List.append_assoc _ _ _)) (.inl hstart)
  | @behind _ gap region rear hsource hgap hparts hrear =>
    have hraw : ∀ c ∈ raw, Text.isBlank c = true := by
      refine hraw.resolve_left ?_
      rintro rfl
      cases hparts
    have hblank : ∀ c ∈ (raw ++ ending) ++ gap, Text.isBlank c = true :=
      List.forall_mem_append.mpr ⟨List.forall_mem_append.mpr ⟨hraw, hending⟩, hgap⟩
    rw [List.append_assoc] at hsource hparts
    exact .behind (hsource.trans (by simp)) hblank hparts hrear

/-- The parts that the walk ends with stand together. -/
def IsLocated (source : List Char) (parts : List Part) : Prop :=
  parts = [] ∨ ∃ front region rear, Located source parts front region rear

/-- A part that starts with a character that is not blank. -/
def Part.Opens (part : Part) : Prop := part.text.head?.any (!Text.isBlank ·) = true

/-- What parts take up starts with the first of them. -/
theorem Adjoin.exists_head {parts : List Part} {region : List Char}
    (h : Adjoin source parts front region) :
    ∃ part more, parts.head? = some part ∧ region = part.text ++ more := by
  cases h with
  | @last part _ _ => exact ⟨part, [], rfl, by simp⟩
  | @cons part _ _ gap region _ _ _ => exact ⟨part, gap ++ region, rfl, rfl⟩

theorem Kept.isLocated (h : Kept source front collected)
    (hopens : ∀ part, collected.head? = some part → part.Opens) : IsLocated source collected := by
  cases h with
  | nothing => exact .inl rfl
  | @behind _ gap region rear hsource hgap hparts hrear =>
    obtain ⟨part, more, hpart, rfl⟩ := hparts.exists_head
    have hhead : (part.text ++ more).head?.any (!Text.isBlank ·) = true := by
      have hopens : part.text.head?.any (!Text.isBlank ·) = true := hopens part hpart
      cases htext : part.text with
      | nil => simp [htext] at hopens
      | cons c text => simpa [htext] using hopens
    rw [← List.append_assoc front] at hsource
    exact .inr ⟨front ++ gap, _, rear, hsource, hparts, hhead, hrear⟩

theorem isLocated_blockParts (hlined : Text.Lined above front) (h : Kept source front collected)
    (hne : collected ≠ []) : IsLocated source (blockParts collected above) := by
  induction hlined generalizing collected with
  | nil => exact .inl rfl
  | @cons above front raw ending habove hstart hcount hending ih =>
    obtain ⟨lead, trail, hraw, hlead, htrail, hlast, hnil⟩ := Text.exists_trim_eq raw
    rw [blockParts]
    cases hfrom : Text.fromWord? ['/', '*'] (Text.trim raw) with
    | none =>
      obtain ⟨more, rear, hsource, hadjoin, hrear⟩ :=
        h.collect hstart hcount hending hraw htrail hnil hlast fun hc => absurd hc hne
      exact ih (.behind hsource hlead hadjoin hrear) (List.cons_ne_nil _ _)
    | some comment =>
      obtain ⟨⟨skip, hskip⟩, rest, rfl⟩ := Text.exists_of_fromWord? hfrom
      have hopen : raw = (lead ++ skip) ++ ((['/', '*'] ++ rest) ++ trail) := by
        conv_lhs => rw [hraw, hskip]
        simp
      have hlast : ∀ c, (['/', '*'] ++ rest).getLast? = some c → Text.isBlank c = false := by
        intro c hc
        have hend := List.getLast?_append_of_ne_nil skip
          (List.cons_ne_nil '/' (['*'] ++ rest))
        rw [hskip] at hlast
        exact hlast c (hend.trans hc)
      obtain ⟨more, rear, hsource, hadjoin, hrear⟩ :=
        h.collect hstart hcount hending hopen htrail nofun hlast fun _ => List.cons_ne_nil _ _
      rw [← List.append_assoc front] at hsource
      exact .inr ⟨_, _, rear, hsource, hadjoin, rfl, hrear⟩

theorem isLocated_parts (skipped : List String) (hlined : Text.Lined above front)
    (h : Kept source front collected)
    (hopens : ∀ part, collected.head? = some part → part.Opens) :
    IsLocated source (parts skipped collected above) := by
  induction hlined generalizing collected with
  | nil => exact h.isLocated hopens
  | @cons above front raw ending habove hstart hcount hending ih =>
    obtain ⟨lead, trail, hraw, hlead, htrail, hlast, hnil⟩ := Text.exists_trim_eq raw
    rw [parts]
    split
    · next hempty =>
      have hblank : ∀ c ∈ raw, Text.isBlank c = true := by
        rw [List.isEmpty_iff.mp hempty, List.nil_append] at hraw
        rw [hraw]
        exact List.forall_mem_append.mpr ⟨hlead, htrail⟩
      exact ih (h.pass hstart hending (.inr hblank)) hopens
    next hempty =>
    split
    · next hskip =>
      rw [Bool.and_eq_true, List.isEmpty_iff] at hskip
      exact ih (h.pass hstart hending (.inl hskip.1)) hopens
    have hne : Text.trim raw ≠ [] := fun hc => hempty (by rw [hc]; rfl)
    obtain ⟨more, rear, hsource, hadjoin, hrear⟩ :=
      h.collect hstart hcount hending hraw htrail hnil hlast fun _ => hne
    have hkept := Kept.behind hsource hlead hadjoin hrear
    have hpartOpens : ∀ d, Text.startsWith (Text.trim raw) ['/', d] = true →
        ∀ part, (partOf above raw (Text.trim raw) :: collected).head? = some part →
          part.Opens := by
      rintro d hslash part hpart
      obtain ⟨rest, hrest⟩ := Text.startsWith_iff.mp hslash
      obtain rfl : partOf above raw (Text.trim raw) = part := Option.some.inj hpart
      rw [Part.Opens, partOf, hrest]
      rfl
    split
    · next hslash => exact ih hkept (hpartOpens '/' hslash)
    split
    · split
      · next hslash => exact hkept.isLocated (hpartOpens '*' hslash)
      split
      · exact (h.isLocated hopens)
      · exact isLocated_blockParts habove hkept (List.cons_ne_nil _ _)
    · exact h.isLocated hopens

end Walk

theorem isLocated_documenting (source : List Char) (line : Nat) (skipped : List String) :
    IsLocated source (documenting source line skipped) := by
  obtain ⟨front, rest, hsource, hlined, hends⟩ := Text.exists_lined source (line - 1)
  exact isLocated_parts skipped hlined (.nothing hsource hends) nofun

/-! ## Hidden documentation -/

/-- Hidden parts that stand together are covered by one run of comments. -/
theorem Located.exists_commentRun {found : List Part} {front region rear : List Char}
    (h : Located source found front region rear)
    (hhidden : ∀ part ∈ found, part.hidden source .java = true) :
    ∃ before lead, front = before ++ lead ∧ CommentRun before (lead ++ region) rear := by
  have hword : wordOf (tinted .java source) = front ++ (region ++ rear) := by
    rw [wordOf_tinted, h.eq]
  obtain ⟨before, rest, htinted, rfl, hrest⟩ := List.map_eq_append_iff.mp hword
  obtain ⟨word, behind, rfl, rfl, rfl⟩ := List.map_eq_append_iff.mp hrest
  have hunseen : Unseen word := h.adjoin.unseen htinted rfl rfl hhidden
  obtain ⟨c, text, htext, hc⟩ : ∃ c text, wordOf word = c :: text ∧ Text.isBlank c = false := by
    have hhead := h.head
    cases hcases : word.map Prod.snd with
    | nil => simp [hcases] at hhead
    | cons c text => exact ⟨c, text, hcases, by simpa [hcases] using hhead⟩
  exact Java.exists_commentRun htinted htext hc h.rear hunseen

/-- A part that a run of comments covers is hidden. -/
theorem Part.hidden_of_commentRun {part : Part} {front comment rear lead more : List Char}
    (h : CommentRun front comment rear) (hsource : source = front ++ (comment ++ rear))
    (hpart : source = lead ++ (part.text ++ more))
    (hlead : part.start source = Text.width lead) (hstart : Text.width front ≤ part.start source)
    (hstop : part.stop source ≤ Text.width (front ++ comment)) :
    part.hidden source .java = true := by
  obtain ⟨skip, rfl, hskip⟩ := Text.append_of_width_le (hsource.symm.trans hpart) (hlead ▸ hstart)
  rw [← List.append_assoc] at hskip
  obtain ⟨rest, rfl, -⟩ := Text.append_of_width_le hskip.symm (by
    rw [Part.stop, hlead, Text.width_append, Text.width_append] at hstop
    rw [Text.width_append]
    omega)
  obtain ⟨before, run, behind, htinted, rfl, hrun, hunseen⟩ := h.exists_tinted
  obtain ⟨run, tail, rfl, hcovered, -⟩ := List.map_eq_append_iff.mp hrun
  obtain ⟨gap, word, rfl, rfl, hword⟩ := List.map_eq_append_iff.mp hcovered
  have hpartTinted : tinted .java source = (before ++ gap) ++ (word ++ (tail ++ behind)) := by
    rw [hsource, htinted]
    simp
  rw [Part.hidden_iff hpartTinted (by rw [hlead, wordOf_append]; rfl) hword]
  exact (unseen_append.mp (unseen_append.mp hunseen).1).2

/-- All parts of the documentation are hidden in the view without comments exactly when one run of
comments, from a place in code on, covers them. -/
theorem hidden_documenting_iff (source : List Char) (line : Nat) (skipped : List String) :
    (∀ part ∈ documenting source line skipped, part.hidden source .java = true) ↔
      ∃ front comment rear, source = front ++ (comment ++ rear) ∧
        CommentRun front comment rear ∧
        ∀ part ∈ documenting source line skipped,
          Text.width front ≤ part.start source ∧
            part.stop source ≤ Text.width (front ++ comment) := by
  constructor
  · intro hhidden
    rcases isLocated_documenting source line skipped with hnil | ⟨front, region, rear, h⟩
    · rw [hnil]
      exact ⟨[], [], source, rfl, ⟨⟨[], rfl, .nil⟩, .nil⟩, by simp⟩
    · obtain ⟨before, lead, rfl, hrun⟩ := h.exists_commentRun hhidden
      refine ⟨before, lead ++ region, rear, by rw [h.eq]; simp, hrun, fun part hpart => ?_⟩
      obtain ⟨skip, more, rfl, hstart⟩ := h.adjoin.exists_eq hpart
      rw [Part.stop, hstart]
      simp only [Text.width_append]
      omega
  · rintro ⟨front, comment, rear, hsource, hrun, hcovers⟩ part hpart
    rcases isLocated_documenting source line skipped with hnil | ⟨before, region, behind, h⟩
    · rw [hnil] at hpart
      cases hpart
    · obtain ⟨skip, more, rfl, hstart⟩ := h.adjoin.exists_eq hpart
      have hwhere : source = (before ++ skip) ++ (part.text ++ (more ++ behind)) := by
        rw [h.eq]
        simp
      exact Part.hidden_of_commentRun hrun hsource hwhere hstart (hcovers part hpart).1
        (hcovers part hpart).2

end Docstring
end Outline
