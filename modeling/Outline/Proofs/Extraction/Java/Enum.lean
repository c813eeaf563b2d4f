import Mathlib.Data.List.Basic
import Outline.Proofs.Extraction.Growth
import Outline.Proofs.Extraction.Java.Constant
import Outline.Proofs.Extraction.Java.Rule
import Outline.Proofs.Extraction.Kind
import Outline.Proofs.Extraction.Registry
import Outline.Proofs.Pattern.Found
import Outline.Proofs.Source.Brace

/-!
# An enum with its constants

The text of an enum gives one class, and the properties of the class are the constants in
front of which no angle bracket is open.  Declarations may start in two places of the text
only, at its start and at the first constant, and no field starts at the latter.
-/

namespace Outline

namespace Java

open Parameter (IsIdent isIdentChar isDollarStart isDollarChar)
open Pattern (Matches)

/-! ## No field starts at a constant -/

/-- What comes behind the name of a constant and blanks. -/
def nameStops : List Char := ['(', ',', ';']

/-- A text goes on with blanks and with a character that stops the name of a constant. -/
def Stuck (text : List Char) : Prop :=
  ∃ gap stop rest, text = gap ++ stop :: rest ∧ (∀ c ∈ gap, Text.isBlank c = true) ∧
    stop ∈ nameStops

/-- A text goes on with the rest of the name of a constant. -/
def InName (text : List Char) : Prop :=
  ∃ word rest, text = word ++ rest ∧ (∀ c ∈ word, isIdentChar c = true) ∧ Stuck rest

theorem Stuck.inName {text : List Char} (h : Stuck text) : InName text :=
  ⟨[], text, rfl, nofun, h⟩

theorem Stuck.head {text : List Char} (h : Stuck text) :
    ∃ c rest, text = c :: rest ∧ (Text.isBlank c = true ∧ Stuck rest ∨ c ∈ nameStops) := by
  obtain ⟨gap, stop, rest, rfl, hgap, hstop⟩ := h
  cases gap with
  | nil => exact ⟨stop, rest, rfl, .inr hstop⟩
  | cons c gap =>
    exact ⟨c, gap ++ stop :: rest, rfl, .inl ⟨hgap c List.mem_cons_self, gap, stop, rest, rfl,
      fun d hd => hgap d (List.mem_cons_of_mem c hd), hstop⟩⟩

theorem InName.head {text : List Char} (h : InName text) : ∃ c rest, text = c :: rest ∧
    (isIdentChar c = true ∧ InName rest ∨ Text.isBlank c = true ∧ Stuck rest ∨ c ∈ nameStops) := by
  obtain ⟨word, rest, rfl, hword, hrest⟩ := h
  cases word with
  | nil =>
    obtain ⟨c, more, rfl, h⟩ := hrest.head
    exact ⟨c, more, rfl, .inr h⟩
  | cons c word =>
    exact ⟨c, word ++ rest, rfl, .inl ⟨hword c List.mem_cons_self, word, rest, rfl,
      fun d hd => hword d (List.mem_cons_of_mem c hd), hrest⟩⟩

/-- Whether a character is no blank and does not stop a name. -/
def staysInName (c : Char) : Bool := !Text.isBlank c && !nameStops.contains c

theorem InName.read {word text : List Char} (h : InName (word ++ text))
    (hw : ∀ c ∈ word, staysInName c = true) : InName text := by
  induction word with
  | nil => exact h
  | cons c word ih =>
    obtain ⟨d, rest, heq, hcases⟩ := h.head
    obtain ⟨rfl, rfl⟩ := List.cons.inj heq
    have hc : staysInName c = true := hw c List.mem_cons_self
    rw [staysInName, Bool.and_eq_true, Bool.not_eq_true', Bool.not_eq_true'] at hc
    rcases hcases with ⟨-, hin⟩ | ⟨hblank, -⟩ | hstop
    · exact ih hin fun d hd => hw d (List.mem_cons_of_mem c hd)
    · rw [hblank] at hc
      exact absurd hc.1 (by decide)
    · rw [List.contains_iff_mem.mpr hstop] at hc
      exact absurd hc.2 (by decide)

theorem isBlank_of_mem_nameStops {c : Char} (h : c ∈ nameStops) : Text.isBlank c = false := by
  have hall : ∀ c ∈ nameStops, Text.isBlank c = false := by decide
  exact hall c h

theorem Stuck.read {gap text : List Char} (h : Stuck (gap ++ text))
    (hgap : ∀ c ∈ gap, Text.isBlank c = true) : Stuck text := by
  induction gap with
  | nil => exact h
  | cons c gap ih =>
    obtain ⟨d, rest, heq, hcases⟩ := h.head
    obtain ⟨rfl, rfl⟩ := List.cons.inj heq
    rcases hcases with ⟨-, hrest⟩ | hstop
    · exact ih hrest fun d hd => hgap d (List.mem_cons_of_mem c hd)
    · have hblank := hgap c List.mem_cons_self
      rw [isBlank_of_mem_nameStops hstop] at hblank
      exact absurd hblank (by decide)

/-- Behind a blank no more of the name is left. -/
theorem InName.stuck {text : List Char} {c : Char} (h : InName (c :: text))
    (hc : Text.isBlank c = true) : Stuck text := by
  obtain ⟨d, rest, heq, hcases⟩ := h.head
  obtain ⟨rfl, rfl⟩ := List.cons.inj heq
  rcases hcases with ⟨hident, -⟩ | ⟨-, hrest⟩ | hstop
  · rw [Parameter.isBlank_of_isIdentChar hident] at hc
    exact absurd hc (by decide)
  · exact hrest
  · rw [isBlank_of_mem_nameStops hstop] at hc
    exact absurd hc (by decide)

section

variable {c d : Cursor} {ms : List Mark}

theorem InName.of_blanks1 (h : InName c.rest) (hm : Matches .blanks1 c d ms) : Stuck d.rest := by
  obtain ⟨e, _, _, hchar, hrun, -⟩ := hm.of_seq
  obtain ⟨a, ha, hread⟩ := hchar.of_char
  obtain ⟨gap, hgap, hread'⟩ := hrun.of_run
  rw [hread.1] at h
  have hstuck : Stuck e.rest := h.stuck ha
  rw [hread'.1] at hstuck
  exact hstuck.read hgap

theorem InName.of_blanks (h : InName c.rest) (hm : Matches .blanks c d ms) : InName d.rest := by
  obtain ⟨gap, hgap, hread⟩ := hm.of_run
  rw [hread.1] at h
  cases gap with
  | nil => exact h
  | cons a gap =>
    have hstuck : Stuck (gap ++ d.rest) := h.stuck (hgap a List.mem_cons_self)
    exact (hstuck.read fun b hb => hgap b (List.mem_cons_of_mem a hb)).inName

theorem InName.of_reads (h : InName c.rest) {a : Char} {word : List Char}
    (hread : c.Reads (a :: word) d) :
    isIdentChar a = true ∨ Text.isBlank a = true ∨ a ∈ nameStops := by
  obtain ⟨b, rest, heq, hcases⟩ := h.head
  rw [hread.1] at heq
  obtain ⟨rfl, -⟩ := List.cons.inj heq
  exact hcases.imp And.left (Or.imp And.left id)

theorem Stuck.of_reads (h : Stuck c.rest) {a : Char} {word : List Char}
    (hread : c.Reads (a :: word) d) : staysInName a = false := by
  obtain ⟨b, rest, heq, hcases⟩ := h.head
  rw [hread.1] at heq
  obtain ⟨rfl, -⟩ := List.cons.inj heq
  rw [staysInName]
  rcases hcases with ⟨hblank, -⟩ | hstop
  · rw [hblank]
    rfl
  · rw [List.contains_iff_mem.mpr hstop]
    exact Bool.and_false _

theorem staysInName_of_test {test : Char → Bool} {a : Char} (ha : test a = true)
    (hblank : ∀ b, Text.isBlank b = true → test b = false)
    (hstops : ∀ b ∈ nameStops, test b = false) : staysInName a = true := by
  rw [staysInName, Bool.and_eq_true, Bool.not_eq_true', Bool.not_eq_true']
  constructor
  · refine Bool.eq_false_iff.mpr fun h => ?_
    exact Bool.false_ne_true ((hblank a h).symm.trans ha)
  · refine Bool.eq_false_iff.mpr fun h => ?_
    exact Bool.false_ne_true ((hstops a (List.contains_iff_mem.mp h)).symm.trans ha)

theorem staysInName_of_isPathChar {a : Char} (ha : isPathChar a = true) :
    staysInName a = true := by
  refine staysInName_of_test ha (fun b hb => ?_) (by decide)
  have hdollar : b ≠ '$' := fun h => absurd (h ▸ hb) (by decide)
  have hdot : b ≠ '.' := fun h => absurd (h ▸ hb) (by decide)
  simp [isPathChar, Text.isWordChar_eq_false_of_isBlank hb, hdollar, hdot]

theorem staysInName_of_isDollarStart {a : Char} (ha : isDollarStart a = true) :
    staysInName a = true := by
  have hchar : isDollarChar a = true → staysInName a = true := fun h =>
    staysInName_of_test h (fun b => isDollarChar_of_isBlank) (by decide)
  refine hchar ?_
  rcases Bool.or_eq_true_iff.mp ha with h | h
  · exact Bool.or_eq_true_iff.mpr (.inl (Parameter.isWordChar_of_isNameStart h))
  · exact Bool.or_eq_true_iff.mpr (.inr h)

/-- In a name no annotation starts. -/
theorem InName.of_annotations (h : InName c.rest) (hm : Matches annotations c d ms) : d = c := by
  rcases hm.of_star with rfl | ⟨e, _, _, hround, -⟩
  · rfl
  · obtain ⟨_, _, _, hannotation, -, -⟩ := hround.of_seq
    obtain ⟨_, _, _, hmarked, -, -⟩ := hannotation.of_seq
    obtain ⟨_, _, _, hat, -, -⟩ := hmarked.of_seq
    obtain ⟨a, ha, hread⟩ := hat.of_char
    obtain rfl : a = '@' := beq_iff_eq.mp ha
    exact absurd (h.of_reads hread) (by decide)

/-- Modifiers are followed by blanks, so behind them no more of a name is left. -/
theorem InName.of_modifiers {words : List String} (h : InName c.rest)
    (hwords : ∀ word ∈ words, word.toList ≠ [] ∧ ∀ a ∈ word.toList, staysInName a = true)
    (hm : Matches (modifiers words) c d ms) : d = c ∨ Stuck d.rest := by
  obtain ⟨_, hstar, -⟩ := hm.of_part
  rcases hstar.of_star with rfl | ⟨e, _, _, hround, hmore⟩
  · exact .inl rfl
  obtain ⟨f, _, _, hword, hgap, -⟩ := hround.of_seq
  obtain ⟨word, hmem, hread⟩ := hword.of_oneOf
  rw [hread.1] at h
  have hin : InName f.rest := h.read (hwords word hmem).2
  have hstuck : Stuck e.rest := hin.of_blanks1 hgap
  rcases hmore.of_star with rfl | ⟨_, _, _, hround', -⟩
  · exact .inr hstuck
  obtain ⟨_, _, _, hword', -, -⟩ := hround'.of_seq
  obtain ⟨word', hmem', hread'⟩ := hword'.of_oneOf
  obtain ⟨hne, hstays⟩ := hwords word' hmem'
  obtain ⟨a, more, hcons⟩ := List.exists_cons_of_ne_nil hne
  rw [hcons] at hread'
  have hfalse := hstuck.of_reads hread'
  rw [hstays a (by rw [hcons]; exact List.mem_cons_self)] at hfalse
  exact absurd hfalse (by decide)

theorem InName.of_typeName (h : InName c.rest) (hm : Matches typeName c d ms) : InName d.rest := by
  obtain ⟨_, hm, -⟩ := hm.of_part
  obtain ⟨e, _, _, hm, harrays, -⟩ := hm.of_seq
  obtain ⟨f, _, _, hpath, harguments, -⟩ := hm.of_seq
  obtain ⟨g, _, _, hchar, hrun, -⟩ := hpath.of_seq
  obtain ⟨a, ha, hread⟩ := hchar.of_char
  obtain ⟨word, hword, hread'⟩ := hrun.of_run
  have hf : InName f.rest := by
    rw [(hread.trans hread').1] at h
    refine h.read fun b hb => ?_
    rcases List.mem_append.mp hb with hb | hb
    · exact staysInName_of_isPathChar (List.mem_singleton.mp hb ▸ ha)
    · exact staysInName_of_isPathChar (hword b hb)
  -- Neither type arguments nor array brackets start in a name or behind it.
  have he : InName e.rest := by
    cases harguments with
    | altLeft _ hm =>
      obtain ⟨_, _, _, hgap, hm, -⟩ := hm.of_seq
      obtain ⟨_, _, _, hm, -, -⟩ := hm.of_seq
      obtain ⟨_, _, _, hopen, -, -⟩ := hm.of_seq
      exact absurd ((hf.of_blanks hgap).of_reads hopen.of_word) (by decide)
    | altRight _ hm =>
      cases hm
      exact hf
  rcases harrays.of_star with rfl | ⟨_, _, _, hround, -⟩
  · exact he
  · obtain ⟨_, _, _, hm, -, -⟩ := hround.of_seq
    obtain ⟨_, _, _, hm, -, -⟩ := hm.of_seq
    obtain ⟨_, _, _, hgap, hopen, -⟩ := hm.of_seq
    exact absurd ((he.of_blanks hgap).of_reads hopen.of_word) (by decide)

/-- No field starts with the name of a constant. -/
theorem InName.not_field (h : InName c.rest) : ¬ Matches fieldPattern c d ms := by
  intro hm
  obtain ⟨_, _, _, hm, -, -⟩ := hm.of_seq
  obtain ⟨_, _, _, hm, -, -⟩ := hm.of_seq
  obtain ⟨_, _, _, hm, -, -⟩ := hm.of_seq
  obtain ⟨e, _, _, hannotations, hdeclaration, -⟩ := hm.of_seq
  have he : InName e.rest := h.of_annotations hannotations ▸ h
  obtain ⟨_, hm, -⟩ := hdeclaration.of_part
  obtain ⟨e₃, _, _, hm, hname, -⟩ := hm.of_seq
  obtain ⟨e₂, _, _, hm, hgap, -⟩ := hm.of_seq
  obtain ⟨e₁, _, _, hmodifiers, htype, -⟩ := hm.of_seq
  have hwords : ∀ word ∈ ["public", "protected", "private", "static", "final", "transient",
      "volatile"], word.toList ≠ [] ∧ ∀ a ∈ word.toList, staysInName a = true := by decide
  rcases he.of_modifiers hwords hmodifiers with heq | hstuck
  · have hin : InName e₁.rest := heq ▸ he
    have hstuck : Stuck e₃.rest := (hin.of_typeName htype).of_blanks1 hgap
    obtain ⟨_, hname, -⟩ := hname.of_part
    obtain ⟨_, _, _, hstart, -, -⟩ := hname.of_seq
    obtain ⟨a, ha, hread⟩ := hstart.of_char
    have hfalse := hstuck.of_reads hread
    rw [staysInName_of_isDollarStart ha] at hfalse
    exact absurd hfalse (by decide)
  · obtain ⟨_, hm, -⟩ := htype.of_part
    obtain ⟨_, _, _, hm, -, -⟩ := hm.of_seq
    obtain ⟨_, _, _, hm, -, -⟩ := hm.of_seq
    obtain ⟨_, _, _, hchar, -, -⟩ := hm.of_seq
    obtain ⟨a, ha, hread⟩ := hchar.of_char
    have hfalse := hstuck.of_reads hread
    rw [staysInName_of_isPathChar ha] at hfalse
    exact absurd hfalse (by decide)

end

/-! ## The text of an enum -/

/-- An enum with its constants, the blanks behind the last one, and no further members. -/
def enumText (enumName : List Char) (constants : List EnumConstant) (gap : List Char) :
    List Char :=
  "enum ".toList ++ enumName ++ " \x7b ".toList
    ++ Text.join [',', ' '] (constants.map EnumConstant.text) ++ gap ++ "; \x7d".toList

/-- What stands in front of the brace. -/
def enumHead (enumName : List Char) : List Char := "enum ".toList ++ enumName ++ [' ']

theorem enumHead_eq (enumName : List Char) :
    enumHead enumName = "enum ".toList ++ enumName ++ [' '] := rfl

/-- What stands between the space behind the brace and the semicolon. -/
def enumList (first : EnumConstant) (constants : List EnumConstant) (gap : List Char) :
    List Char := first.text ++ (following constants ++ gap)

theorem enumText_cons (enumName : List Char) (first : EnumConstant)
    (constants : List EnumConstant) (gap : List Char) :
    enumText enumName (first :: constants) gap = enumHead enumName ++ '\x7b' ::
      (([' '] ++ enumList first constants gap) ++ ';' :: [' ', '\x7d']) := by
  have hjoin : Text.join [',', ' '] ((first :: constants).map EnumConstant.text) =
      first.text ++ following constants := by
    rw [List.map_cons, Parameter.join_comma_cons, List.flatMap_map]
    rfl
  show ['e', 'n', 'u', 'm', ' '] ++ enumName ++ [' ', '\x7b', ' ']
    ++ Text.join [',', ' '] ((first :: constants).map EnumConstant.text) ++ gap
    ++ [';', ' ', '\x7d'] = ['e', 'n', 'u', 'm', ' '] ++ enumName ++ [' '] ++ _
  rw [hjoin, enumList]
  simp only [List.append_assoc, List.cons_append, List.nil_append]

/-- Whether a character neither ends nor begins a block or a statement. -/
def isFree (c : Char) : Bool := !([';', '\x7b', '\x7d'].contains c)

theorem isFree_iff {c : Char} : isFree c = true ↔ c ≠ ';' ∧ c ≠ '\x7b' ∧ c ≠ '\x7d' := by
  simp [isFree]

theorem isFree_of_isIdentChar {c : Char} (h : isIdentChar c = true) : isFree c = true := by
  refine isFree_iff.mpr ⟨?_, ?_, ?_⟩ <;> (rintro rfl; exact absurd h (by decide))

theorem isFree_of_isBlank {c : Char} (h : Text.isBlank c = true) : isFree c = true := by
  refine isFree_iff.mpr ⟨?_, ?_, ?_⟩ <;> (rintro rfl; exact absurd h (by decide))

theorem EnumConstant.isFree_text (constant : EnumConstant) :
    ∀ c ∈ constant.text, isFree c = true := by
  refine List.forall_mem_append.mpr
    ⟨fun c hc => isFree_of_isIdentChar (constant.ident.all c hc), ?_⟩
  unfold trail
  split
  · exact nofun
  · next arguments harguments =>
    intro c hc
    simp only [List.mem_cons, List.mem_append, List.not_mem_nil, or_false] at hc
    rcases hc with rfl | hc | rfl
    · rfl
    · exact isFree_iff.mpr ((constant.argued arguments harguments).free c hc)
    · rfl

theorem isFree_following (constants : List EnumConstant) :
    ∀ c ∈ following constants, isFree c = true := by
  intro c hc
  obtain ⟨constant, -, hc⟩ := List.mem_flatMap.mp hc
  rcases List.mem_append.mp hc with hc | hc
  · have hall : ∀ c ∈ [',', ' '], isFree c = true := by decide
    exact hall c hc
  · exact constant.isFree_text c hc

section

variable {enumName gap : List Char} {first : EnumConstant} {constants : List EnumConstant}

theorem isFree_enumHead (hn : IsIdent enumName) : ∀ c ∈ enumHead enumName, isFree c = true := by
  have hword : ∀ c ∈ "enum ".toList, isFree c = true := by decide
  refine List.forall_mem_append.mpr ⟨List.forall_mem_append.mpr ⟨hword, ?_⟩, by decide⟩
  exact fun c hc => isFree_of_isIdentChar (hn.all c hc)

theorem isFree_enumList (hgap : ∀ c ∈ gap, Text.isBlank c = true) :
    ∀ c ∈ [' '] ++ enumList first constants gap, isFree c = true := by
  refine List.forall_mem_append.mpr ⟨by decide, List.forall_mem_append.mpr
    ⟨first.isFree_text, List.forall_mem_append.mpr ⟨isFree_following constants, ?_⟩⟩⟩
  exact fun c hc => isFree_of_isBlank (hgap c hc)

theorem not_mem_of_isFree {c : Char} {text : List Char} (h : ∀ c ∈ text, isFree c = true)
    (hc : isFree c = false) : c ∉ text := by
  intro hmem
  rw [h c hmem] at hc
  exact absurd hc (by decide)

/-! ### Quotes and comments -/

theorem isBare_ident_append {name rest : List Char} (h : IsIdent name)
    (hr : Text.isBare rest = true) : Text.isBare (name ++ rest) = true := by
  refine Text.isBare_append_of_forall (fun c hc => ?_) hr
  have hident := h.all c hc
  refine ⟨?_, ?_, ?_⟩ <;> (rintro rfl; exact absurd hident (by decide))

theorem EnumConstant.isBare_text_append (constant : EnumConstant) {rest : List Char}
    (h : Text.isBare rest = true) : Text.isBare (constant.text ++ rest) = true := by
  rw [text, List.append_assoc]
  refine isBare_ident_append constant.ident ?_
  unfold trail
  split
  · exact h
  · next arguments harguments =>
    have hclose : Text.isBare (')' :: rest) = true :=
      Text.isBare_append_of_forall (a := [')']) (by decide) h
    have hinner := Text.isBare_append_cons (constant.argued arguments harguments).bare hclose
      (by decide) (by decide)
    rw [List.cons_append, List.append_assoc, List.singleton_append]
    exact Text.isBare_append_of_forall (a := ['(']) (by decide) hinner

theorem isBare_following_append (constants : List EnumConstant) {rest : List Char}
    (h : Text.isBare rest = true) : Text.isBare (following constants ++ rest) = true := by
  induction constants with
  | nil => exact h
  | cons constant constants ih =>
    rw [following, List.flatMap_cons, ← following, List.append_assoc, List.append_assoc]
    exact Text.isBare_append_of_forall (by decide) (constant.isBare_text_append ih)

theorem isBare_enumText (hn : IsIdent enumName) (hgap : ∀ c ∈ gap, Text.isBlank c = true) :
    Text.isBare (enumText enumName (first :: constants) gap) = true := by
  have hblank : ∀ c ∈ gap, c ≠ '"' ∧ c ≠ '\'' ∧ c ≠ '/' := by
    intro c hc
    have hc' := hgap c hc
    refine ⟨?_, ?_, ?_⟩ <;> (rintro rfl; exact absurd hc' (by decide))
  have hend : Text.isBare (gap ++ ';' :: [' ', '\x7d']) = true :=
    Text.isBare_append_of_forall hblank (by decide)
  have hlist := first.isBare_text_append (isBare_following_append constants hend)
  rw [enumText_cons, enumHead_eq, enumList, List.append_assoc, List.append_assoc]
  refine Text.isBare_append_of_forall (by decide) (isBare_ident_append hn ?_)
  rw [List.append_assoc, List.append_assoc, List.append_assoc]
  exact Text.isBare_append_of_forall (a := [' ', '\x7b', ' ']) (by decide) hlist

/-! ### Where declarations may start -/

/-- Behind the brace, blanks aside, the first constant follows. -/
theorem starts_behind_brace (hn : IsIdent enumName) (hgap : ∀ c ∈ gap, Text.isBlank c = true)
    {x b rest : List Char} {a : Char} (hb : ∀ d ∈ b, Text.isBlank d = true)
    (ht : enumHead enumName ++ '\x7b' ::
      (([' '] ++ enumList first constants gap) ++ ';' :: [' ', '\x7d']) = x ++ '\x7b' :: (b ++ rest))
    (ha : rest.head? = some a) (hspace : a ≠ ' ') :
    x = enumHead enumName ∧ b = [' '] ∧
      rest = enumList first constants gap ++ ';' :: [' ', '\x7d'] := by
  have hlist : ∀ c ∈ [' '] ++ enumList first constants gap, isFree c = true :=
    isFree_enumList hgap
  have hbehind : '\x7b' ∉ ([' '] ++ enumList first constants gap) ++ ';' :: [' ', '\x7d'] := by
    rw [List.mem_append]
    rintro (h | h)
    · exact not_mem_of_isFree hlist rfl h
    · exact absurd h (by decide)
  obtain ⟨rfl, -, hrest⟩ := (List.append_cons_inj_of_notMem
    (not_mem_of_isFree (isFree_enumHead hn) rfl) hbehind).mp ht
  rw [List.append_assoc, List.singleton_append] at hrest
  cases b with
  | nil =>
    have hrest' : rest = ' ' :: _ := hrest.symm
    rw [hrest'] at ha
    exact absurd (Option.some.inj ha).symm hspace
  | cons d b =>
    obtain ⟨rfl, htail⟩ := List.cons.inj hrest
    cases b with
    | nil => exact ⟨rfl, rfl, htail.symm⟩
    | cons e b =>
      -- The first constant starts with no blank.
      obtain ⟨n, name, hname, -⟩ := first.ident.exists_cons
      have hident := first.ident.all n (by rw [hname]; exact List.mem_cons_self)
      rw [enumList, EnumConstant.text, hname] at htail
      obtain ⟨rfl, -⟩ := List.cons.inj htail
      have hblank := hb n (by simp)
      rw [Parameter.isBlank_of_isIdentChar hident] at hblank
      exact absurd hblank (by decide)

/-- Behind the list of constants only a space and the closing brace are left. -/
theorem starts_behind_list (hn : IsIdent enumName) (hgap : ∀ c ∈ gap, Text.isBlank c = true)
    {x b rest : List Char} {a c : Char} (hc : c = ';' ∨ c = '\x7d')
    (ht : enumHead enumName ++ '\x7b' ::
      (([' '] ++ enumList first constants gap) ++ ';' :: [' ', '\x7d']) = x ++ c :: (b ++ rest))
    (ha : rest.head? = some a) : a = ' ' ∨ a = '\x7d' := by
  have hhead := isFree_enumHead hn
  have hlist : ∀ c ∈ [' '] ++ enumList first constants gap, isFree c = true :=
    isFree_enumList hgap
  have hfront : ∀ c, isFree c = false → c ≠ '\x7b' →
      c ∉ enumHead enumName ++ '\x7b' :: ([' '] ++ enumList first constants gap) := by
    intro c hfree hne hmem
    rcases List.mem_append.mp hmem with h | h
    · exact not_mem_of_isFree hhead hfree h
    · rcases List.mem_cons.mp h with h | h
      · exact hne h
      · exact not_mem_of_isFree hlist hfree h
  have hmem : a ∈ b ++ rest := List.mem_append_right b (List.mem_of_head? ha)
  rcases hc with rfl | rfl
  · have hsplit : (enumHead enumName ++ '\x7b' :: ([' '] ++ enumList first constants gap)) ++
        ';' :: [' ', '\x7d'] = x ++ ';' :: (b ++ rest) := by
      rw [← ht, List.append_assoc]
      rfl
    obtain ⟨-, -, hrest⟩ := (List.append_cons_inj_of_notMem
      (hfront ';' rfl (by decide)) (by decide)).mp hsplit
    rw [← hrest] at hmem
    simpa using hmem
  · have hsplit : (enumHead enumName ++ '\x7b' :: ([' '] ++ enumList first constants gap) ++
        [';', ' ']) ++ '\x7d' :: [] = x ++ '\x7d' :: (b ++ rest) := by
      rw [← ht, List.append_assoc, List.append_assoc]
      rfl
    have hfront' : '\x7d' ∉ enumHead enumName ++ '\x7b' :: ([' '] ++ enumList first constants gap) ++
        [';', ' '] := by
      rw [List.mem_append]
      rintro (h | h)
      · exact hfront '\x7d' rfl (by decide) h
      · exact absurd h (by decide)
    obtain ⟨-, -, hrest⟩ := (List.append_cons_inj_of_notMem hfront' (by decide)).mp hsplit
    rw [← hrest] at hmem
    exact absurd hmem List.not_mem_nil

/-- Where a declaration may start in the text of an enum, unless with a space, a closing brace
or nothing. -/
theorem starts_enumText (hn : IsIdent enumName) (hgap : ∀ c ∈ gap, Text.isBlank c = true)
    {before rest : List Char} {a : Char}
    (ht : enumText enumName (first :: constants) gap = before ++ rest)
    (hs : Statement.startsAfter before false = true) (ha : rest.head? = some a) (hspace : a ≠ ' ')
    (hclose : a ≠ '\x7d') :
    before = [] ∨ before = enumHead enumName ++ ['\x7b', ' '] ∧
      rest = enumList first constants gap ++ ';' :: [' ', '\x7d'] := by
  rw [enumText_cons] at ht
  rcases Statement.exists_of_startsAfter hs with hblank | ⟨x, c, b, rfl, hc, hb⟩
  · -- The text starts with a letter, so only nothing is blank in front.
    left
    cases before with
    | nil => rfl
    | cons d before =>
      obtain ⟨rfl, -⟩ := List.cons.inj ht
      exact absurd (hblank 'e' List.mem_cons_self) (by decide)
  · have ht' := ht.trans (List.append_assoc x (c :: b) rest)
    have hc' : c = ';' ∨ c = '\x7b' ∨ c = '\x7d' := by
      simp only [List.mem_cons, List.not_mem_nil, or_false] at hc
      rcases hc with rfl | rfl | rfl <;> simp
    rcases hc' with rfl | rfl | rfl
    · rcases starts_behind_list hn hgap (.inl rfl) ht' ha with h | h
      · exact absurd h hspace
      · exact absurd h hclose
    · obtain ⟨rfl, rfl, hrest⟩ := starts_behind_brace hn hgap hb ht' ha hspace
      exact .inr ⟨rfl, hrest⟩
    · rcases starts_behind_list hn hgap (.inr rfl) ht' ha with h | h
      · exact absurd h hspace
      · exact absurd h hclose

end

end Java
end Outline
