import Outline.Proofs.Source.Blanking
import Outline.Proofs.Text.Utf8

/-!
# Masking byte by byte

The masking pass can be run over the bytes of a text instead of its characters:
each byte is read as a character of its own, tokens are passed over by their
number of bytes, and an escape covers a single byte.  Of a wide character the
pass then sees only bytes that are no delimiters, and the result is that of the
pass over characters.
-/

namespace Outline
namespace Mask

open Utf8 (unitsOf units units_cons units_cons_of_ascii)

/-! ## The pass over bytes -/

/-- The step of the pass for one byte.  An escape covers one byte and leaves the
rest of a wide character to the literal around it. -/
def stepByte (rules : MaskRules) (mode : Mode) (fresh : Bool) (previous : Option Char) (c : Char)
    (rest : List Char) : Shade × Mode × Bool :=
  match mode with
  | .escape back => (.literal, back, fresh)
  | mode => step rules mode fresh previous c rest

/-- The shades of bytes, one for each. -/
def byteShadesFrom (rules : MaskRules) : Mode → Bool → Option Char → List Char → List Shade
  | _, _, _, [] => []
  | mode, fresh, previous, c :: rest =>
    let (shade, next, fresh) := stepByte rules mode fresh previous c rest
    shade :: byteShadesFrom rules next fresh (some c) rest

/-- Bytes in which those whose shade is hidden are spaces; line feeds stay. -/
def paintBytes (hidden : Shade → Bool) : List Shade → List UInt8 → List UInt8
  | shade :: shades, byte :: rest =>
    (if hidden shade && byte != 10 then 32 else byte) :: paintBytes hidden shades rest
  | _, rest => rest

/-- The two views of bytes, if both of them are texts. -/
def ofBytes? (rules : MaskRules) (bytes : List UInt8) : Option (List Char × List Char) := do
  let shades := byteShadesFrom rules .code true none (bytes.map Utf8.charOfByte)
  let stripped ← Utf8.decode? (paintBytes (· == .comment) shades bytes)
  let masked ← Utf8.decode? (paintBytes (· != .plain) shades bytes)
  return (stripped, masked)

/-! ## Modes between tokens -/

/-- The shade of a character that ends nothing and starts nothing. -/
def Mode.shade : Mode → Shade
  | .code => .plain
  | .lineComment | .blockComment | .directive => .comment
  | _ => .literal

/-- The modes that are not inside of a token.  What ends a literal begins with an
ASCII character. -/
def Mode.IsBase : Mode → Prop
  | .quoted quote => quote.toNat < 128
  | .raw close => ∃ rest, close = ')' :: rest
  | .escape _ | .pass _ _ _ => False
  | _ => True

/-- Inside of a token the pass is on its way to a mode between tokens; only
literals have escapes. -/
def Mode.Valid : Mode → Prop
  | .escape back => back.IsBase ∧ back.shade = .literal
  | .pass _ _ next => next.IsBase
  | mode => mode.IsBase

theorem Mode.IsBase.valid {mode : Mode} (h : mode.IsBase) : mode.Valid := by
  cases mode <;> first | exact h | exact h.elim

theorem Mode.valid_passing {next : Mode} (h : next.IsBase) (n : Nat) (shade : Shade) :
    (Mode.passing n shade next).Valid := by
  cases n with
  | zero => exact h.valid
  | succ n => exact h

theorem Mode.Valid.cases {mode : Mode} (h : mode.Valid) :
    mode.IsBase ∨ (∃ back, mode = .escape back ∧ back.IsBase ∧ back.shade = .literal) ∨
      ∃ more shade next, mode = .pass more shade next ∧ next.IsBase := by
  cases mode with
  | escape back => exact Or.inr (Or.inl ⟨back, rfl, h⟩)
  | pass more shade next => exact Or.inr (Or.inr ⟨more, shade, next, rfl, h⟩)
  | _ => exact Or.inl h

theorem step_valid {mode : Mode} (hm : mode.Valid) (rules : MaskRules) (fresh : Bool)
    (previous : Option Char) (c : Char) (rest : List Char) :
    (step rules mode fresh previous c rest).2.1.Valid := by
  cases mode with
  | code =>
    have hraw : Mode.IsBase (.raw (')' :: rest.tail.takeWhile (· != '(') ++ ['"'])) := ⟨_, rfl⟩
    have hquote : Mode.Valid (.quoted '"') := show ('"' : Char).toNat < 128 by decide
    have hchar : Mode.Valid (.quoted '\'') := show ('\'' : Char).toNat < 128 by decide
    simp only [step]
    split
    · trivial
    split
    · trivial
    split
    · trivial
    split
    · trivial
    split
    · exact hraw
    split
    · exact hquote
    split
    · exact hchar
    · trivial
  | lineComment => simp only [step]; split <;> trivial
  | blockComment => simp only [step]; split <;> trivial
  | directive =>
    simp only [step]
    split
    · trivial
    split
    · trivial
    · trivial
  | quoted quote =>
    simp only [step]
    split
    · exact ⟨hm, rfl⟩
    split
    · trivial
    · exact hm
  | textBlock =>
    simp only [step]
    split
    · trivial
    split
    · exact ⟨trivial, rfl⟩
    · trivial
  | raw close =>
    simp only [step]
    split
    · exact @Mode.valid_passing .code trivial _ _
    · exact hm
  | escape back => exact hm.1.valid
  | pass more shade next => exact Mode.valid_passing hm _ _

/-- A character out of ASCII changes no mode between tokens. -/
theorem step_wide {mode : Mode} (hm : mode.IsBase) {c : Char} (hc : 128 ≤ c.toNat)
    (rules : MaskRules) (fresh : Bool) (previous : Option Char) (rest : List Char) :
    step rules mode fresh previous c rest = (mode.shade, mode, false) := by
  have hne : ∀ x : Char, x.toNat < 128 → c ≠ x := by
    rintro x hx rfl
    omega
  have hfresh : freshAfter fresh c = false := by
    have h12 : c.toNat ≠ 12 := by omega
    simp [freshAfter, Text.isAsciiBlank, hne '\n' (by decide), hne ' ' (by decide),
      hne '\t' (by decide), hne '\r' (by decide), h12]
  cases mode with
  | code =>
    simp [step, Mode.shade, hfresh, hne '/' (by decide), hne '#' (by decide), hne '"' (by decide),
      hne 'R' (by decide), hne '\'' (by decide)]
  | lineComment => simp [step, Mode.shade, hfresh, hne '\n' (by decide)]
  | blockComment => simp [step, Mode.shade, hfresh, hne '*' (by decide)]
  | directive =>
    simp [step, Mode.shade, hfresh, hne '\\' (by decide), hne '\n' (by decide)]
  | quoted quote =>
    simp [step, Mode.shade, hfresh, hne '\\' (by decide), hne quote hm, hne '\n' (by decide)]
  | textBlock =>
    simp [step, Mode.shade, hfresh, hne '"' (by decide), hne '\\' (by decide)]
  | raw close =>
    obtain ⟨tail, rfl⟩ := hm
    have hstart : Text.startsWith (c :: rest) (')' :: tail) = false := by
      rw [Text.startsWith, Text.dropLead?, if_neg (Ne.symm (hne ')' (by decide)))]
      rfl
    simp [step, Mode.shade, hfresh, hstart]
  | escape back => exact hm.elim
  | pass more shade next => exact hm.elim

/-! ## Modes over bytes -/

/-- A mode between tokens as the pass over bytes has it. -/
def Mode.inBytes : Mode → Mode
  | .raw close => .raw (units close)
  | mode => mode

/-- A mode in front of a text as the pass over bytes has it: what is left of a
token is counted in bytes. -/
def Mode.before (rest : List Char) : Mode → Mode
  | .escape back => .escape back.inBytes
  | .pass more shade next =>
    .passing (Text.width (rest.take (more + 1))) shade next.inBytes
  | mode => mode.inBytes

theorem Mode.IsBase.before_eq {mode : Mode} (h : mode.IsBase) (rest : List Char) :
    mode.before rest = mode.inBytes := by
  cases mode <;> first | rfl | exact h.elim

theorem Mode.IsBase.inBytes {mode : Mode} (h : mode.IsBase) : mode.inBytes.IsBase := by
  cases mode with
  | raw close =>
    obtain ⟨tail, rfl⟩ := h
    exact ⟨units tail, units_cons_of_ascii (by decide) tail⟩
  | _ => exact h

theorem Mode.shade_inBytes (mode : Mode) : mode.inBytes.shade = mode.shade := by
  cases mode <;> rfl

theorem Mode.before_passing {next : Mode} (h : next.IsBase) (n : Nat) (shade : Shade)
    (rest : List Char) :
    (Mode.passing n shade next).before rest =
      .passing (Text.width (rest.take n)) shade next.inBytes := by
  cases n with
  | zero => exact h.before_eq rest
  | succ n => rfl

/-- Whether two last characters agree in what the pass asks of them. -/
def SameEnd (a b : Option Char) : Prop :=
  endsName a = endsName b ∧ a.any isHexDigit = b.any isHexDigit

theorem isHexDigit_eq_false {c : Char} (h : 128 ≤ c.toNat) : isHexDigit c = false := by
  have hle : ∀ x : Char, x.toNat < 128 → ¬ c.val ≤ x.val := by
    intro x hx hcx
    have hn : c.toNat ≤ x.toNat := UInt32.le_iff_toNat_le.mp hcx
    omega
  have hdigit : c.isDigit = false := by
    simp only [Char.isDigit, Bool.and_eq_false_iff, decide_eq_false_iff_not]
    exact Or.inr (hle '9' (by decide))
  have hlow : decide (c ≤ 'f') = false := decide_eq_false (hle 'f' (by decide))
  have hhigh : decide (c ≤ 'F') = false := decide_eq_false (hle 'F' (by decide))
  rw [isHexDigit, hdigit, hlow, hhigh]
  simp

theorem endsName_eq_false {c : Char} (h : 128 ≤ c.toNat) : endsName (some c) = false := by
  rw [endsName, ← Bool.not_eq_true]
  intro hplain
  have hle := Char.utf8Size_eq_one_iff.mp (Text.utf8Size_eq_one_of_plain hplain)
  have hn : c.toNat ≤ 127 := UInt32.le_iff_toNat_le.mp hle
  omega

/-- The width of a token that comes next. -/
theorem width_take_length {rest word : List Char} (h : Text.startsWith rest word = true) :
    Text.width (rest.take word.length) = Text.width word := by
  obtain ⟨after, rfl⟩ := Text.startsWith_iff.mp h
  rw [List.take_left']
  rfl

theorem width_take_one {rest : List Char} {x : Char} (h : rest.head? = some x) :
    Text.width (rest.take 1) = x.utf8Size := by
  obtain ⟨after, rfl⟩ := List.head?_eq_some_iff.mp h
  rfl

/-- Code is left alike by both passes: what they look ahead for is ASCII. -/
theorem step_inBytes_code (rules : MaskRules) (fresh : Bool) {previous previous' : Option Char}
    (hp : SameEnd previous previous') (c : Char) (rest : List Char) :
    step rules .code fresh previous' c (units rest) =
      ((step rules .code fresh previous c rest).1,
        (step rules .code fresh previous c rest).2.1.before rest,
        (step rules .code fresh previous c rest).2.2) := by
  have hhead : ∀ x : Char, x.toNat < 128 → ((units rest).head? = some x ↔ rest.head? = some x) :=
    fun x hx => Utf8.head?_units_eq_some hx rest
  have hquotes : Text.startsWith (units rest) ['"', '"'] = Text.startsWith rest ['"', '"'] :=
    Utf8.startsWith_units rest ['"', '"']
  have hdigits : separatesDigits previous' (units rest) = separatesDigits previous rest := by
    rw [separatesDigits, separatesDigits, hp.2,
      Utf8.any_head?_units isHexDigit (fun _ h => isHexDigit_eq_false h)]
  have hraw : rest.head? = some '"' → (units rest).tail = units rest.tail := by
    intro h
    obtain ⟨after, rfl⟩ := List.head?_eq_some_iff.mp h
    rw [units_cons_of_ascii (by decide)]
    rfl
  simp only [step, hhead '/' (by decide), hhead '*' (by decide), hhead '"' (by decide), hquotes,
    hdigits, ← hp.1]
  by_cases hline : c = '/' ∧ rest.head? = some '/'
  · simp only [if_pos hline, Mode.before, width_take_one hline.2]
    rfl
  by_cases hblock : c = '/' ∧ rest.head? = some '*'
  · simp only [if_neg hline, if_pos hblock, Mode.before, width_take_one hblock.2]
    rfl
  by_cases hdirective : rules.directives = true ∧ fresh = true ∧ c = '#'
  · simp only [if_neg hline, if_neg hblock, if_pos hdirective]
    rfl
  by_cases htriple : rules.textBlocks = true ∧ c = '"' ∧ Text.startsWith rest ['"', '"'] = true
  · have hw := width_take_length htriple.2.2
    simp only [if_neg hline, if_neg hblock, if_neg hdirective, if_pos htriple, Mode.before]
    rw [show 1 + 1 = (['"', '"'] : List Char).length from rfl, hw]
    rfl
  simp only [if_neg hline, if_neg hblock, if_neg hdirective, if_neg htriple]
  by_cases hopens : rules.rawStrings = true ∧ c = 'R' ∧ rest.head? = some '"' ∧
      endsName previous = false ∧ '(' ∈ rest.tail
  · have htail := hraw hopens.2.2.1
    have hopen : '(' ∈ (units rest).tail := by
      rw [htail, Utf8.mem_units (by decide)]
      exact hopens.2.2.2.2
    obtain ⟨after, rfl⟩ := List.head?_eq_some_iff.mp hopens.2.2.1
    obtain ⟨more, hmore⟩ := Text.exists_takeWhile_append hopens.2.2.2.2
    have htoken : Text.startsWith ('"' :: after)
        ('"' :: after.takeWhile (· != '(') ++ ['(']) = true := by
      refine Text.startsWith_iff.mpr ⟨more, ?_⟩
      rw [List.cons_append, List.cons_append, List.append_assoc]
      exact congrArg ('"' :: ·) hmore
    have hw := width_take_length htoken
    have hboth : rules.rawStrings = true ∧ c = 'R' ∧ ('"' :: after).head? = some '"' ∧
        endsName previous = false ∧ '(' ∈ (units ('"' :: after)).tail :=
      ⟨hopens.1, hopens.2.1, hopens.2.2.1, hopens.2.2.2.1, hopen⟩
    rw [if_pos hboth, if_pos hopens, htail, List.tail_cons,
      Utf8.takeWhile_units (show ('(' : Char).toNat < 128 by decide)]
    generalize after.takeWhile (· != '(') = delimiter at hw
    have hlen : ('"' :: delimiter ++ ['(']).length = delimiter.length + 1 + 1 := by simp
    have hwidth : Text.width ('"' :: delimiter ++ ['(']) = Text.width delimiter + 1 + 1 := by
      rw [Text.width_append, Text.width_cons, show ('"' : Char).utf8Size = 1 from rfl,
        show Text.width ['('] = 1 from rfl]
      omega
    have hclose : units (')' :: delimiter ++ ['"']) = ')' :: units delimiter ++ ['"'] := by
      rw [Utf8.units_append, units_cons_of_ascii (by decide)]
      rfl
    dsimp only
    rw [Mode.before, ← hlen, hw, hwidth, Mode.inBytes, hclose, Utf8.length_units]
    rfl
  · have hclosed : ¬ (rules.rawStrings = true ∧ c = 'R' ∧ rest.head? = some '"' ∧
        endsName previous = false ∧ '(' ∈ (units rest).tail) := by
      rintro ⟨hrules, hR, hquote, hname, hopen⟩
      rw [hraw hquote, Utf8.mem_units (by decide)] at hopen
      exact hopens ⟨hrules, hR, hquote, hname, hopen⟩
    simp only [if_neg hopens, if_neg hclosed]
    split
    · rfl
    · split <;> rfl

/-- An ASCII character between tokens has the same effect in both passes. -/
theorem step_inBytes {mode : Mode} (hm : mode.IsBase) {c : Char} (hc : c.toNat < 128)
    (rules : MaskRules) (fresh : Bool) {previous previous' : Option Char}
    (hp : SameEnd previous previous') (rest : List Char) :
    step rules mode.inBytes fresh previous' c (units rest) =
      ((step rules mode fresh previous c rest).1,
        (step rules mode fresh previous c rest).2.1.before rest,
        (step rules mode fresh previous c rest).2.2) := by
  have hhead : ∀ x : Char, x.toNat < 128 → ((units rest).head? = some x ↔ rest.head? = some x) :=
    fun x hx => Utf8.head?_units_eq_some hx rest
  cases mode with
  | code => exact step_inBytes_code rules fresh hp c rest
  | lineComment =>
    simp only [step, Mode.inBytes]
    split <;> rfl
  | blockComment =>
    simp only [step, Mode.inBytes, hhead '/' (by decide)]
    split
    · next h =>
      simp only [Mode.before, width_take_one h.2]
      rfl
    · rfl
  | directive =>
    simp only [step, Mode.inBytes, hhead '\n' (by decide)]
    split
    · next h =>
      simp only [Mode.before, width_take_one h.2]
      rfl
    · split <;> rfl
  | quoted quote =>
    simp only [step, Mode.inBytes]
    split
    · rfl
    split
    · rfl
    · rfl
  | textBlock =>
    have hquotes : Text.startsWith (units rest) ['"', '"'] = Text.startsWith rest ['"', '"'] :=
      Utf8.startsWith_units rest ['"', '"']
    simp only [step, Mode.inBytes, hquotes]
    split
    · next h =>
      have hw := width_take_length h.2
      simp only [Mode.before]
      rw [show 1 + 1 = (['"', '"'] : List Char).length from rfl, hw]
      rfl
    · split <;> rfl
  | raw close =>
    have hstart : Text.startsWith (c :: units rest) (units close) =
        Text.startsWith (c :: rest) close := by
      rw [← units_cons_of_ascii hc, Utf8.startsWith_units]
    simp only [step, Mode.inBytes, hstart]
    split
    · next h =>
      obtain ⟨tail, rfl⟩ := hm
      obtain ⟨after, hafter⟩ := Text.startsWith_iff.mp h
      obtain ⟨rfl, hrest⟩ := List.cons.inj hafter
      have hw := width_take_length (Text.startsWith_iff.mpr ⟨after, hrest⟩)
      rw [@Mode.before_passing .code trivial, units_cons_of_ascii (by decide), List.length_cons,
        List.length_cons, Nat.add_sub_cancel, Nat.add_sub_cancel, hw, Utf8.length_units]
      rfl
    · rfl
  | escape back => exact hm.elim
  | pass more shade next => exact hm.elim

/-! ## The whole pass -/

/-- The shades of a text, each repeated for every byte of its character. -/
def spread : List Shade → List Char → List Shade
  | shade :: shades, c :: rest => List.replicate c.utf8Size shade ++ spread shades rest
  | _, _ => []

theorem sameEnd_wide {a b : Char} (ha : 128 ≤ a.toNat) (hb : 128 ≤ b.toNat) :
    SameEnd (some a) (some b) := by
  refine ⟨?_, ?_⟩
  · rw [endsName_eq_false ha, endsName_eq_false hb]
  · rw [Option.any_some, Option.any_some, isHexDigit_eq_false ha, isHexDigit_eq_false hb]

/-- A character and its last byte agree in what the pass asks of them. -/
theorem sameEnd_unitsOf (c : Char) (previous : Option Char) :
    SameEnd (some c) ((unitsOf c).getLast?.or previous) := by
  by_cases hc : c.toNat < 128
  · rw [Utf8.unitsOf_of_ascii hc]
    exact ⟨rfl, rfl⟩
  · cases hl : (unitsOf c).getLast? with
    | none => exact absurd (List.getLast?_eq_none_iff.mp hl) (Utf8.unitsOf_ne_nil c)
    | some u =>
      rw [Option.some_or]
      exact sameEnd_wide (by omega) (Utf8.le_of_mem_unitsOf (by omega) u (List.mem_of_getLast? hl))

theorem stepByte_of_isBase {mode : Mode} (hm : mode.IsBase) (rules : MaskRules) (fresh : Bool)
    (previous : Option Char) (c : Char) (rest : List Char) :
    stepByte rules mode fresh previous c rest = step rules mode fresh previous c rest := by
  cases mode <;> first | rfl | exact hm.elim

/-- Bytes out of ASCII are all shaded alike between tokens. -/
theorem byteShadesFrom_wide {mode : Mode} (hm : mode.IsBase) (rules : MaskRules)
    {us : List Char} (hu : ∀ u ∈ us, 128 ≤ u.toNat) (fresh : Bool) (previous : Option Char)
    (rest : List Char) :
    byteShadesFrom rules mode fresh previous (us ++ rest) =
      List.replicate us.length mode.shade ++
        byteShadesFrom rules mode (fresh && us.isEmpty) (us.getLast?.or previous) rest := by
  induction us generalizing fresh previous with
  | nil => simp
  | cons u us ih =>
    have h := ih (fun x hx => hu x (List.mem_cons_of_mem u hx)) false (some u)
    rw [List.cons_append, byteShadesFrom, stepByte_of_isBase hm,
      step_wide hm (hu u List.mem_cons_self)]
    simp only
    rw [h, List.length_cons, List.replicate_succ, List.cons_append, Bool.false_and,
      List.isEmpty_cons, Bool.and_false, List.getLast?_cons, Option.some_or, Option.or_some]

/-- The bytes of a token are passed over. -/
theorem byteShadesFrom_passing (rules : MaskRules) (us : List Char) (n : Nat) (shade : Shade)
    (next : Mode) (fresh : Bool) (previous : Option Char) (rest : List Char) :
    byteShadesFrom rules (.passing (us.length + n) shade next) fresh previous (us ++ rest) =
      List.replicate us.length shade ++
        byteShadesFrom rules (.passing n shade next) fresh (us.getLast?.or previous) rest := by
  induction us generalizing previous with
  | nil => simp
  | cons u us ih =>
    have h := ih (some u)
    have hpass : Mode.passing ((u :: us).length + n) shade next =
        .pass (us.length + n) shade next := by
      rw [List.length_cons, Nat.add_right_comm]
      rfl
    rw [hpass, List.cons_append, byteShadesFrom]
    simp only [stepByte, step]
    rw [h, List.length_cons, List.replicate_succ, List.cons_append, List.getLast?_cons,
      Option.some_or, Option.or_some]

/-- The pass over bytes gives each byte the shade of its character. -/
theorem byteShadesFrom_units (rules : MaskRules) {mode : Mode} (hm : mode.Valid) (fresh : Bool)
    {previous previous' : Option Char} (hp : SameEnd previous previous') (text : List Char) :
    byteShadesFrom rules (mode.before text) fresh previous' (units text) =
      spread (shadesFrom rules mode fresh previous text) text := by
  induction text generalizing mode fresh previous previous' with
  | nil => rfl
  | cons c rest ih =>
    have hnext := step_valid hm rules fresh previous c rest
    have hend := sameEnd_unitsOf c previous'
    rw [shadesFrom, units_cons]
    simp only [spread]
    rcases hm.cases with hbase | ⟨back, rfl, hback, hliteral⟩ | ⟨more, shade, next, rfl, hbase⟩
    · rw [hbase.before_eq]
      by_cases hc : c.toNat < 128
      · have hsize : c.utf8Size = 1 := by
          rw [← Utf8.length_unitsOf, Utf8.unitsOf_of_ascii hc, List.length_singleton]
        rw [Utf8.unitsOf_of_ascii hc, List.singleton_append, byteShadesFrom,
          stepByte_of_isBase hbase.inBytes, step_inBytes hbase hc rules fresh hp rest]
        simp only
        rw [ih hnext _ ⟨rfl, rfl⟩, hsize]
        rfl
      · have hwide : 128 ≤ c.toNat := by omega
        rw [step_wide hbase hwide] at hnext ⊢
        have hne : (unitsOf c).isEmpty = false := by
          simpa using Utf8.unitsOf_ne_nil c
        have h := ih hnext false hend
        rw [byteShadesFrom_wide hbase.inBytes rules (Utf8.le_of_mem_unitsOf hwide), hne,
          Bool.and_false, Mode.shade_inBytes, Utf8.length_unitsOf]
        rw [hbase.before_eq] at h
        rw [h]
    · obtain ⟨u, us, hu⟩ := List.exists_cons_of_ne_nil (Utf8.unitsOf_ne_nil c)
      have hlen := Utf8.length_unitsOf c
      have hwide : ∀ x ∈ us, 128 ≤ x.toNat := by
        intro x hx
        by_cases hc : c.toNat < 128
        · rw [Utf8.unitsOf_of_ascii hc] at hu
          cases hu
          simp at hx
        · exact @Utf8.le_of_mem_unitsOf c (by omega) x (by rw [hu]; exact List.mem_cons_of_mem u hx)
      have hfresh : (fresh && us.isEmpty) = (fresh && c.utf8Size == 1) := by
        rw [← hlen, hu]
        cases us <;> simp
      have hstep : step rules (.escape back) fresh previous c rest =
          (.literal, back, fresh && c.utf8Size == 1) := rfl
      have h := ih hback.valid (fresh && c.utf8Size == 1) hend
      rw [hu] at h hlen
      rw [List.getLast?_cons, Option.some_or, ← Option.or_some, hback.before_eq] at h
      rw [hstep, hu, Mode.before, List.cons_append, byteShadesFrom]
      simp only [stepByte]
      rw [byteShadesFrom_wide hback.inBytes rules hwide, hfresh, Mode.shade_inBytes, hliteral, h,
        ← hlen, List.length_cons, List.replicate_succ, List.cons_append]
    · have hstep : step rules (.pass more shade next) fresh previous c rest =
          (shade, .passing more shade next, fresh) := rfl
      have h := ih (Mode.valid_passing hbase more shade) fresh hend
      rw [Mode.before_passing hbase] at h
      rw [hstep, Mode.before, List.take_succ_cons, Text.width_cons, ← Utf8.length_unitsOf,
        byteShadesFrom_passing, h]

/-! ## The views as bytes -/

theorem paintBytes_append (hidden : Shade → Bool) (shade : Shade) (shades : List Shade)
    (bytes rest : List UInt8) :
    paintBytes hidden (List.replicate bytes.length shade ++ shades) (bytes ++ rest) =
      bytes.map (fun byte => if hidden shade && byte != 10 then 32 else byte) ++
        paintBytes hidden shades rest := by
  induction bytes with
  | nil => rfl
  | cons byte bytes ih =>
    rw [List.length_cons, List.replicate_succ, List.cons_append, List.cons_append, paintBytes, ih,
      List.map_cons, List.cons_append]

theorem encode_replicate_space (n : Nat) :
    Utf8.encode (List.replicate n ' ') = List.replicate n 32 := by
  induction n with
  | zero => rfl
  | succ n ih =>
    rw [List.replicate_succ, Utf8.encode_cons, ih, Utf8.utf8EncodeChar_of_ascii (by decide)]
    rfl

/-- A line feed has the byte 10, and no other character has it. -/
theorem mem_feed_utf8EncodeChar {c : Char} : 10 ∈ String.utf8EncodeChar c ↔ c = '\n' := by
  constructor
  · intro h
    by_cases hc : c.toNat < 128
    · rw [Utf8.utf8EncodeChar_of_ascii hc, List.mem_singleton] at h
      have hn := congrArg UInt8.toNat h
      rw [Utf8.toNat_ofNat (by omega)] at hn
      rw [← Char.ofNat_toNat c, ← hn]
      rfl
    · have hle := Utf8.le_of_mem_utf8EncodeChar (by omega) 10 h
      exact absurd hle (by decide)
  · rintro rfl
    rw [Utf8.utf8EncodeChar_of_ascii (by decide)]
    exact List.mem_singleton.mpr rfl

/-- Blanking a character blanks its bytes. -/
theorem map_blank_utf8EncodeChar (c : Char) :
    (String.utf8EncodeChar c).map (fun byte => if byte != 10 then 32 else byte) =
      Utf8.encode (blank c) := by
  by_cases hc : c = '\n'
  · subst hc
    rfl
  · have hall : ∀ byte ∈ String.utf8EncodeChar c, (if byte != 10 then 32 else byte) = 32 := by
      intro byte hb
      have hne : byte ≠ 10 := by
        rintro rfl
        exact hc (mem_feed_utf8EncodeChar.mp hb)
      rw [if_pos (by simpa using hne)]
    rw [List.map_congr_left hall, List.map_const', String.length_utf8EncodeChar, blank, if_neg hc,
      encode_replicate_space]

theorem paintBytes_encode (hidden : Shade → Bool) (shades : List Shade) (text : List Char) :
    paintBytes hidden (spread shades text) (Utf8.encode text) =
      Utf8.encode (paint hidden shades text) := by
  induction text generalizing shades with
  | nil => cases shades <;> rfl
  | cons c rest ih =>
    cases shades with
    | nil => rfl
    | cons shade shades =>
      rw [spread, Utf8.encode_cons, ← String.length_utf8EncodeChar, paintBytes_append, ih, paint,
        Utf8.encode_append]
      cases hidden shade with
      | false => simp [Utf8.encode]
      | true =>
        rw [if_pos rfl, ← map_blank_utf8EncodeChar]
        simp

/-- The pass over the bytes of a text has a result, and it is that of the pass over
its characters. -/
theorem ofBytes?_encode (rules : MaskRules) (text : List Char) :
    ofBytes? rules (Utf8.encode text) = some (stripped rules text, masked rules text) := by
  have hshades := @byteShadesFrom_units rules .code trivial true none none ⟨rfl, rfl⟩ text
  rw [ofBytes?, Utf8.map_charOfByte_encode]
  simp only [Mode.before, Mode.inBytes] at hshades
  simp only [hshades, paintBytes_encode, Utf8.decode?_encode]
  rfl

end Mask

/-! ## Blanked bytes -/

/-- The bytes of a text and of a blanking of it.  All that is left to a byte is to
stay or to become a space, line feeds stay where they are, and the bytes of one
character stay together or go together. -/
structure BlanksBytes (s t : List Char) : Prop where
  length_eq : (Utf8.encode t).length = (Utf8.encode s).length
  keeps_or_space : ∀ (i : Nat) (byte : UInt8), (Utf8.encode t)[i]? = some byte →
    (Utf8.encode s)[i]? = some byte ∨ byte = 32
  feed_iff : ∀ i : Nat, (Utf8.encode t)[i]? = some 10 ↔ (Utf8.encode s)[i]? = some 10
  char_whole : ∀ before c after, s = before ++ c :: after →
    ((Utf8.encode t).drop (Text.width before)).take c.utf8Size = String.utf8EncodeChar c ∨
    ((Utf8.encode t).drop (Text.width before)).take c.utf8Size = List.replicate c.utf8Size 32
  boundary : ∀ offset, Text.IsBoundary s offset → Text.IsBoundary t offset

namespace Blanks

/-- The bytes of a blanked text, one place at a time. -/
theorem getElem?_encode {s t : List Char} (h : Blanks s t) (i : Nat) :
    (Utf8.encode t)[i]? = (Utf8.encode s)[i]? ∨
      (Utf8.encode t)[i]? = some 32 ∧ (Utf8.encode s)[i]? ≠ some 10 := by
  induction h generalizing i with
  | nil => exact Or.inl rfl
  | keep c _ ih =>
    rw [Utf8.encode_cons, Utf8.encode_cons]
    by_cases hi : i < (String.utf8EncodeChar c).length
    · rw [List.getElem?_append_left hi, List.getElem?_append_left hi]
      exact Or.inl rfl
    · rw [List.getElem?_append_right (by omega), List.getElem?_append_right (by omega)]
      exact ih _
  | @blank _ _ c hc _ ih =>
    have hlen := String.length_utf8EncodeChar c
    rw [Utf8.encode_append, Utf8.encode_cons, Mask.encode_replicate_space]
    by_cases hi : i < c.utf8Size
    · rw [List.getElem?_append_left (by simpa using hi), List.getElem?_append_left (by omega),
        List.getElem?_replicate_of_lt hi]
      refine Or.inr ⟨rfl, fun hfeed => hc ?_⟩
      exact Mask.mem_feed_utf8EncodeChar.mp (List.mem_of_getElem? hfeed)
    · rw [List.getElem?_append_right (by simpa using hi), List.getElem?_append_right (by omega),
        List.length_replicate, hlen]
      exact ih _

/-- The bytes of one character are those of the character or spaces. -/
theorem take_drop_encode {before after t : List Char} {c : Char}
    (h : Blanks (before ++ c :: after) t) :
    ((Utf8.encode t).drop (Text.width before)).take c.utf8Size = String.utf8EncodeChar c ∨
    ((Utf8.encode t).drop (Text.width before)).take c.utf8Size = List.replicate c.utf8Size 32 := by
  obtain ⟨before', rest, rfl, hbefore, hrest⟩ := h.exists_append
  have hdrop : (Utf8.encode (before' ++ rest)).drop (Text.width before) = Utf8.encode rest := by
    rw [Utf8.encode_append, ← hbefore.width_eq, ← Utf8.length_encode, List.drop_left]
  rw [hdrop]
  cases hrest with
  | keep _ _ =>
    rw [Utf8.encode_cons, ← String.length_utf8EncodeChar, List.take_left]
    exact Or.inl rfl
  | blank _ _ =>
    rw [Utf8.encode_append, Mask.encode_replicate_space, List.take_left' List.length_replicate]
    exact Or.inr rfl

theorem blanksBytes {s t : List Char} (h : Blanks s t) : BlanksBytes s t where
  length_eq := by rw [Utf8.length_encode, Utf8.length_encode, h.width_eq]
  keeps_or_space := by
    intro i byte hbyte
    rcases h.getElem?_encode i with heq | ⟨hspace, _⟩
    · exact Or.inl (heq ▸ hbyte)
    · exact Or.inr (Option.some.inj (hbyte.symm.trans hspace))
  feed_iff := by
    intro i
    rcases h.getElem?_encode i with heq | ⟨hspace, hfeed⟩
    · rw [heq]
    · rw [hspace]
      exact ⟨fun hten => absurd hten (by decide), fun hten => absurd hten hfeed⟩
  char_whole := by
    rintro before c after rfl
    exact h.take_drop_encode
  boundary := fun _ ho => h.isBoundary ho

end Blanks

/-- Masking the bytes of a text gives two texts, whatever the rules are: the views
of the text, each a blanking of it byte for byte, and the view without literals a
blanking of the one with them. -/
theorem Mask.ofBytes?_blanksBytes (rules : MaskRules) (text : List Char) :
    ofBytes? rules (Utf8.encode text) = some (stripped rules text, masked rules text) ∧
      BlanksBytes text (stripped rules text) ∧
      BlanksBytes (stripped rules text) (masked rules text) ∧
      BlanksBytes text (masked rules text) :=
  ⟨ofBytes?_encode rules text, (blanks_stripped rules text).blanksBytes,
    (blanks_stripped_masked rules text).blanksBytes, (blanks_masked rules text).blanksBytes⟩

end Outline
