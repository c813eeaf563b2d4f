import Outline.Extraction.Declarator
import Outline.Proofs.Declaration.Parameter
import Outline.Proofs.Extraction.Subject
import Outline.Proofs.Source.Blanking
import Outline.Proofs.Text.Line

/-!
# Where declarators stand

A property is given the line of a place in front of its name: of the name itself, or of the
bracket or comma that the name comes after.  Such places are the same in all views.

Every piece of a list of declarators is read by itself, from a comma on.  The first one starts
with the name that the field was found by, and so it stands exactly where it says; the others
stand behind their commas.
-/

namespace Outline

/-! ## Rows -/

namespace Text

/-- What has no line feed stands in one row of a text. -/
theorem exists_row (before after : List Char) {name : List Char} (hn : '\n' ∉ name) :
    ∃ row, (splitAt '\n' (before ++ (name ++ after)))[before.count '\n']? = some row ∧
      name <:+: row := by
  induction before with
  | nil =>
    obtain ⟨pieces, hpieces⟩ := splitAt_eq_cons '\n' (name ++ after)
    refine ⟨(name ++ after).takeWhile (· != '\n'), by rw [List.nil_append, hpieces]; rfl, ?_⟩
    rw [List.takeWhile_append_of_pos fun c hc => ?_]
    · exact (List.prefix_append _ _).isInfix
    · exact bne_iff_ne.mpr fun heq => hn (heq ▸ hc)
  | cons c before ih =>
    obtain ⟨row, hrow, hi⟩ := ih
    by_cases hc : c = '\n'
    · subst hc
      refine ⟨row, ?_, hi⟩
      rw [List.cons_append, splitAt, if_pos rfl, List.count_cons_self]
      exact hrow
    · obtain ⟨pieces, hpieces⟩ := splitAt_eq_cons '\n' (before ++ (name ++ after))
      rw [List.cons_append, splitAt, if_neg hc, List.count_cons_of_ne hc, hpieces]
      rw [hpieces] at hrow
      cases hcount : before.count '\n' with
      | zero =>
        rw [hcount] at hrow
        obtain rfl := Option.some.inj hrow
        exact ⟨_, rfl, hi.trans (List.suffix_cons _ _).isInfix⟩
      | succ n =>
        rw [hcount] at hrow
        exact ⟨row, hrow, hi⟩

end Text

/-! ## Names in views -/

open Parameter (Unbroken)

theorem Blanks.exists_append_of_not_mem (a : List Char) {s name b : List Char}
    (h : Blanks s (a ++ (name ++ b))) (hne : name ≠ []) (hn : ' ' ∉ name) :
    ∃ a₀ b₀, s = a₀ ++ (name ++ b₀) ∧ Blanks a₀ a ∧ Blanks b₀ b := by
  induction name generalizing s a with
  | nil => exact absurd rfl hne
  | cons c name ih =>
    rw [List.mem_cons, not_or] at hn
    obtain ⟨a₀, b₀, rfl, ha, hb⟩ := h.exists_append_cons (Ne.symm hn.1) rfl
    cases name with
    | nil => exact ⟨a₀, b₀, rfl, ha, hb⟩
    | cons d name =>
      obtain ⟨a₁, b₁, rfl, hempty, hrest⟩ := ih [] hb (List.cons_ne_nil _ _) hn.2
      obtain rfl := hempty.eq_nil
      exact ⟨a₀, b₁, rfl, ha, hrest⟩

/-- The characters that a list of names opens with or goes on with. -/
def listMarks : List Char := ['(', ',']

/-- A name stands at an offset of a text, or in the list that opens or goes on in front of the
offset. -/
structure StandsFrom (text : List Char) (offset : Nat) (name : List Char) : Prop where
  ne_nil : name ≠ []
  unbroken : Unbroken name
  place : ∃ before gap after, text = before ++ (gap ++ (name ++ after)) ∧
    Text.width before = offset ∧ (gap = [] ∨ ∃ mark ∈ listMarks, before.getLast? = some mark)

namespace StandsFrom

variable {s t name : List Char} {offset : Nat}

/-- What is read off a view stands in the text. -/
theorem of_blanks (h : Blanks s t) (k : StandsFrom t offset name) : StandsFrom s offset name := by
  obtain ⟨hne, hn, before, gap, after, rfl, hw, hgap⟩ := k
  refine ⟨hne, hn, ?_⟩
  rcases hgap with rfl | ⟨mark, hmark, hlast⟩
  · rw [List.nil_append] at h
    obtain ⟨a, b, rfl, ha, -⟩ := h.exists_append_of_not_mem before hne hn.1
    exact ⟨a, [], b, rfl, ha.width_eq.symm.trans hw, .inl rfl⟩
  · obtain ⟨front, rfl⟩ := List.getLast?_eq_some_iff.mp hlast
    have hspace : mark ≠ ' ' := by
      rintro rfl
      exact absurd hmark (by decide)
    rw [List.append_assoc] at h
    obtain ⟨a, b, rfl, ha, hb⟩ := h.exists_append_cons hspace rfl
    obtain ⟨g, b, rfl, -, -⟩ := hb.exists_append_of_not_mem gap hne hn.1
    refine ⟨a ++ [mark], g, b, by simp, ?_, .inr ⟨mark, hmark, List.getLast?_concat⟩⟩
    rw [← hw, Text.width_append, Text.width_append, ha.width_eq]

/-- The character in front of a place is the last one of what comes before the place. -/
theorem getLast?_of_charAt? {before after : List Char} {mark : Char}
    (h : Text.charAt? (before ++ after) offset = some mark)
    (hw : Text.width before = offset + mark.utf8Size) : before.getLast? = some mark := by
  obtain ⟨x, y, hxy, hx⟩ := Text.charAt?_eq_some_iff.mp h
  have heq : before ++ after = (x ++ [mark]) ++ y := by rw [hxy, List.append_assoc]; rfl
  obtain ⟨rfl, -⟩ := Text.append_inj_of_width heq (by rw [hw, Text.width_append, hx]; rfl)
  exact List.getLast?_concat

/-- The row of the name comes as many rows behind that of the offset as line feeds stand between
the two. -/
theorem exists_row (k : StandsFrom t offset name) :
    ∃ before gap after, t = before ++ (gap ++ (name ++ after)) ∧
      (LineIndex.ofText t).lineOf offset = before.count '\n' + 1 ∧
      (gap = [] ∨ ∃ mark ∈ listMarks, before.getLast? = some mark) ∧
      ∃ row, (Text.splitAt '\n' t)[before.count '\n' + gap.count '\n']? = some row ∧
        name <:+: row := by
  obtain ⟨-, hn, before, gap, after, rfl, rfl, hgap⟩ := k
  have hrow := Text.exists_row (before ++ gap) after hn.2
  rw [List.count_append, List.append_assoc] at hrow
  exact ⟨before, gap, after, rfl, LineIndex.lineOf_width _ _, hgap, hrow⟩

end StandsFrom

open Parameter (isDollarStart isDollarChar NameOf nameOf)
open Pattern (Matches)

/-! ## The name of a declarator -/

/-- A pattern whose matches lead with a name, behind nothing that a name could start with. -/
def LeadsWithName (leading : Pattern) : Prop :=
  ∀ text name, (leading.find? text).bind (·.part? .name) = some name →
    ∃ gap after, text = gap ++ (name.text ++ after) ∧ name.text ≠ [] ∧ Unbroken name.text ∧
      ∀ c, gap.head? = some c → isDollarStart c = false

/-- The name that a pattern ends with comes behind what it reads first. -/
theorem exists_reads_name {front name : Pattern} {text : List Char} {capture : Capture}
    (h : ((front ++ .part .name name).find? text).bind (·.part? .name) = some capture) :
    ∃ before rest d e ms ns, text = before ++ rest ∧
      Matches front ⟨before.getLast?, 0, rest⟩ d ms ∧ Matches name d e ns ∧
        d.Reads capture.text e := by
  obtain ⟨found, hfound, hpart⟩ := Option.bind_eq_some_iff.mp h
  obtain ⟨before, rest, e, ms, htext, hm, rfl⟩ := Pattern.foundIn_of_findFrom [] hfound
  obtain ⟨d, ms₁, ms₂, hfront, hname, rfl⟩ := hm.of_seq
  obtain ⟨ns, hbody, rfl⟩ := hname.of_part
  obtain ⟨read, hread⟩ := hbody.reads
  refine ⟨before, rest, d, e, _, ns, htext, hfront, hbody, ?_⟩
  rw [Match.part?_ofMarks, List.cons_append, latest_cons_self ⟨.name, d, e.offset⟩,
    Option.map_some, Option.some.injEq] at hpart
  rw [← hpart, hread.capture_eq]
  exact hread

/-- What stands in front of the name is only matched at the start of a text, and there reads
nothing that a name could start with. -/
theorem leadsWithName_of_front {front : Pattern} {first test : Char → Bool}
    (hsub : ∀ c, first c = true → test c = true) (htest : (test ' ' || test '\n') = false)
    (hfront : ∀ previous rest d ms, Matches front ⟨previous, 0, rest⟩ d ms → previous = none ∧
      ∃ gap, (Cursor.mk previous 0 rest).Reads gap d ∧
        ∀ c, gap.head? = some c → isDollarStart c = false) :
    LeadsWithName (front ++ .part .name (nameOf first test)) := by
  intro text name h
  obtain ⟨before, rest, d, e, ms, ns, rfl, hm, hname, hread⟩ := exists_reads_name h
  obtain ⟨hnone, gap, hgap, hhead⟩ := hfront _ _ _ _ hm
  obtain rfl : before = [] := List.getLast?_eq_none_iff.mp hnone
  obtain ⟨read, hr, hof⟩ := Parameter.reads_nameOf hsub hname
  have hsame : name.text = read := List.append_cancel_right (hread.1.symm.trans hr.1)
  have hnot : ∀ c, test c = false → c ∉ name.text := by
    intro c hc hmem
    rw [hof.all c (hsame ▸ hmem)] at hc
    exact nomatch hc
  obtain ⟨hspace, hfeed⟩ := Bool.or_eq_false_iff.mp htest
  refine ⟨gap, e.rest, (hgap.trans hread).1.trans (List.append_assoc _ _ _), ?_,
    ⟨hnot _ hspace, hnot _ hfeed⟩, hhead⟩
  obtain ⟨⟨c, hc, -⟩, -⟩ := hof
  rw [hsame]
  rintro rfl
  exact nomatch hc

/-- The name that a part of a list leads with, behind what its declaration starts with. -/
theorem LeadsWithName.exists_part {leading : Pattern} (hl : LeadsWithName leading)
    {part : List Char} {name : Capture}
    (h : (leading.find? (splitDefault part).1).bind (·.part? .name) = some name) :
    ∃ gap after, part = gap ++ (name.text ++ after) ∧ name.text ≠ [] ∧ Unbroken name.text ∧
      ∀ c, gap.head? = some c → isDollarStart c = false := by
  obtain ⟨gap, after, hdeclaration, hne, hn, hgap⟩ := hl _ _ h
  obtain ⟨lead, trail, hpart, hblank⟩ := Parameter.exists_eq_splitDefault part
  refine ⟨lead ++ gap, after ++ trail, ?_, hne, hn, fun c hc => ?_⟩
  · rw [hdeclaration] at hpart
    simpa only [List.append_assoc] using hpart
  · cases lead with
    | nil => exact hgap c hc
    | cons a lead =>
      obtain rfl : a = c := Option.some.inj hc
      exact Parameter.isDollarStart_of_isBlank (hblank a List.mem_cons_self)

/-- The first character of a name stands where the part of its match starts. -/
theorem Pattern.FoundIn.charAt?_name {p : Pattern} {text : List Char} {found : Match}
    {name : Capture} {first test : Char → Bool} (h : p.FoundIn text found)
    (hp : p.bodies .name = [nameOf first test]) (hsub : ∀ c, first c = true → test c = true)
    (hname : found.part? .name = some name) :
    ∃ c, Text.charAt? text name.start = some c ∧ first c = true := by
  obtain ⟨q, hq, c, d, ns, hm, hread⟩ := h.exists_body hname
  rw [hp, List.mem_singleton] at hq
  subst hq
  obtain ⟨read, hr, ⟨a, ha, hfirst⟩, -⟩ := Parameter.reads_nameOf hsub hm
  obtain ⟨before, after, htext, hw⟩ := (h.part_at hname).1
  have hsame : name.text = read := List.append_cancel_right (hread.1.symm.trans hr.1)
  refine ⟨a, ?_, hfirst⟩
  rw [htext, List.append_assoc, ← hw, Text.charAt?_width_append, hsame]
  cases read with
  | nil => exact nomatch ha
  | cons b read => exact ha

/-! ## Lists of declarators -/

theorem SourceText.part_allows (view : List Char) (start stop : Nat) :
    Allows (SourceText.part view start stop) fun part =>
      ∃ before after, view = before ++ (part ++ after) ∧ Text.width before = start := by
  intro part hp
  rw [SourceText.part] at hp
  split at hp
  · next hslice =>
    cases hp
    obtain ⟨before, after, h, hw, -⟩ := Text.slice?_eq_some_iff.mp hslice
    exact ⟨before, after, by rw [h, List.append_assoc], hw⟩
  · cases hp

namespace Subject

variable {text : List Char} {subject : Subject} {leading : Pattern}

/-- A declarator at the start of a name, or behind a comma. -/
theorem Of.declarator_stands (h : subject.Of text) (hl : LeadsWithName leading)
    {front part back : List Char} {name : Capture}
    (hstripped : subject.source.stripped = front ++ (part ++ back))
    (hfront : ∃ c, (isDollarStart c = true ∧
        Text.charAt? subject.masked (Text.width front) = some c) ∨
      (c ∈ listMarks ∧ ∃ offset, Text.charAt? subject.masked offset = some c ∧
        Text.width front = offset + c.utf8Size))
    (hname : (leading.find? (splitDefault part).1).bind (·.part? .name) = some name) :
    StandsFrom text (Text.width front) name.text := by
  obtain ⟨gap, after, rfl, hne, hn, hgap⟩ := hl.exists_part hname
  refine StandsFrom.of_blanks h.stripped ⟨hne, hn, front, gap, after ++ back, ?_, rfl, ?_⟩
  · rw [hstripped]
    simp only [List.append_assoc]
  obtain ⟨c, ⟨hstart, hc⟩ | ⟨hmark, offset, hc, hw⟩⟩ := hfront
  · left
    have hspace : c ≠ ' ' := by
      rintro rfl
      exact absurd hstart (by decide)
    have hhead := h.masked.charAt? hspace hc
    rw [hstripped, Text.charAt?_width_append] at hhead
    cases gap with
    | nil => rfl
    | cons a gap =>
      obtain rfl : a = c := Option.some.inj hhead
      exact absurd (hgap a rfl) (by simp [hstart])
  · have hspace : c ≠ ' ' := by
      rintro rfl
      exact absurd hmark (by decide)
    have hbefore := h.masked.charAt? hspace hc
    rw [hstripped] at hbefore
    exact .inr ⟨c, hmark, StandsFrom.getLast?_of_charAt? hbefore hw⟩

/-- Every declarator of a list that starts with a name stands where it says. -/
theorem Of.declarators_stand (h : subject.Of text) (hl : LeadsWithName leading) {start : Nat}
    {c : Char} (hname : isDollarStart c = true) (hc : Text.charAt? subject.masked start = some c) :
    Allows (subject.declarators leading start) fun fields =>
      ∀ field ∈ fields, StandsFrom text field.1 field.2.1 := by
  rw [Subject.declarators]
  refine (SourceText.part_allows _ _ _).bind fun list hlist => ?_
  obtain ⟨before, after, hmasked, rfl⟩ := hlist
  refine Allows.bind (Allows.mapM (P := fun result => ∀ field, result = some field →
    StandsFrom text field.1 field.2.1) fun entry hentry => ?_) fun results hresults => .ok ?_
  · obtain ⟨offset, piece⟩ := entry
    refine (SourceText.part_allows _ _ _).bind fun part hpart => .ok fun field hfield => ?_
    obtain ⟨name, hfound, rfl⟩ := Option.map_eq_some_iff.mp hfield
    obtain ⟨front, back, hstripped, rfl⟩ := hpart
    refine h.declarator_stands hl hstripped ?_ hfound
    obtain ⟨front', back', hlist, hwidth, hfront, -⟩ := mem_piecesWithOffsets before hentry
    rw [join_splitTopLevel] at hlist
    rw [← hwidth]
    rcases hfront with rfl | ⟨lead, rfl⟩
    · exact ⟨c, .inl ⟨hname, hc⟩⟩
    · have hcomma : Text.charAt? subject.masked (Text.width lead) = some ',' := by
        rw [Subject.masked, hmasked, ← List.append_assoc, hlist]
        simp only [List.append_assoc]
        exact Text.charAt?_width_append lead _
      exact ⟨',', .inr ⟨by decide, Text.width lead, hcomma, Text.width_append _ _⟩⟩
  · intro field hfield
    obtain ⟨result, hresult, hsome⟩ := List.mem_filterMap.mp hfield
    exact hresults result hresult field hsome

end Subject
end Outline
