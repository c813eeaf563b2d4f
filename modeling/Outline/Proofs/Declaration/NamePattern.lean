import Outline.Declaration.Parameter
import Outline.Proofs.Pattern.Replaced
import Outline.Proofs.Text.Word

/-!
# Names and annotations in a declaration

What the patterns of a declaration match, told by the text alone: the name in the
parentheses of a function pointer, the name at the end, and an annotation with its
arguments.
-/

namespace Outline

/-- A run of characters is told by the character that ends it. -/
theorem Text.run_unique {test : Char → Bool} {a b s t : List Char} (h : a ++ s = b ++ t)
    (ha : ∀ c ∈ a, test c = true) (hb : ∀ c ∈ b, test c = true)
    (hs : ∀ c, s.head? = some c → test c = false) (ht : ∀ c, t.head? = some c → test c = false) :
    a = b ∧ s = t := by
  have hstop : ∀ {u : List Char}, (∀ c, u.head? = some c → test c = false) →
      u.takeWhile test = [] := by
    intro u hu
    cases u with
    | nil => rfl
    | cons c u => simp [hu c rfl]
  have htake := congrArg (List.takeWhile test) h
  rw [List.takeWhile_append_of_pos ha, List.takeWhile_append_of_pos hb, hstop hs, hstop ht,
    List.append_nil, List.append_nil] at htake
  rw [htake] at h
  exact ⟨htake, List.append_cancel_left h⟩

namespace Parameter

/-! ## Names -/

/-- A word that starts with a character of one kind and goes on with those of another. -/
structure NameOf (first test : Char → Bool) (name : List Char) : Prop where
  head : ∃ c, name.head? = some c ∧ first c = true
  all : ∀ c ∈ name, test c = true

def nameOf (first test : Char → Bool) : Pattern := .char first ++ .run0 test

theorem NameOf.leaves {first test : Char → Bool} {name : List Char} (h : NameOf first test name)
    (rest : List Char) : (nameOf first test).Leaves (name ++ rest) rest := by
  obtain ⟨⟨c, hc, hfirst⟩, hall⟩ := h
  cases name with
  | nil => exact nomatch hc
  | cons a name =>
    obtain rfl : a = c := Option.some.inj hc
    exact ⟨name ++ rest, ⟨a, hfirst, rfl⟩, name, rfl,
      fun d hd => hall d (List.mem_cons_of_mem a hd)⟩

theorem reads_nameOf {first test : Char → Bool} (hsub : ∀ c, first c = true → test c = true)
    {c d : Cursor} {ms : List Mark} (h : (nameOf first test).Matches c d ms) :
    ∃ name, c.Reads name d ∧ NameOf first test name := by
  obtain ⟨_, _, _, hhead, hrun, -⟩ := h.of_seq
  obtain ⟨a, ha, hread⟩ := hhead.of_char
  obtain ⟨w, hw, hrest⟩ := hrun.of_run
  exact ⟨[a] ++ w, hread.trans hrest, ⟨a, rfl, ha⟩, by simpa [hsub a ha] using hw⟩

theorem isWordChar_of_plain {c : Char} (h : (c.isAlphanum || c == '_') = true) :
    Text.isWordChar c = true := by
  have hle : c.val ≤ 127 := Char.utf8Size_eq_one_iff.mp (Text.utf8Size_eq_one_of_plain h)
  have hascii : Text.isAscii c = true :=
    decide_eq_true (Nat.lt_succ_of_le (UInt32.le_iff_toNat_le.mp hle))
  rw [Text.isWordChar, if_pos hascii, h]

theorem isWordChar_of_isNameStart {c : Char} (h : Pattern.isNameStart c = true) :
    Text.isWordChar c = true := by
  refine isWordChar_of_plain ?_
  rw [Pattern.isNameStart, Bool.or_eq_true] at h
  rcases h with halpha | hmark
  · have halphanum : c.isAlphanum = true := Bool.or_eq_true_iff.mpr (.inl halpha)
    rw [halphanum, Bool.true_or]
  · rw [hmark, Bool.or_true]

/-! ## The name of a function pointer -/

def isPointerMark (c : Char) : Bool := c == '*' || c == '&' || c == '^'

/-- The stretches that make up the name of a function pointer between its
parentheses. -/
structure Pointer (gap : List Char) (mark : Char) (gap' name gap'' : List Char) : Prop where
  gap : ∀ c ∈ gap, Text.isBlank c = true
  mark : isPointerMark mark = true
  gap' : ∀ c ∈ gap', Text.isBlank c = true
  name : NameOf Pattern.isNameStart Text.isWordChar name
  gap'' : ∀ c ∈ gap'', Text.isBlank c = true

def pointerText (gap : List Char) (mark : Char) (gap' name gap'' rest : List Char) : List Char :=
  '(' :: (gap ++ mark :: (gap' ++ (name ++ (gap'' ++ ')' :: rest))))

theorem pointerName_matchAt {cursor : Cursor} {found : Match}
    (h : pointerName.matchAt cursor = some found) :
    ∃ gap mark gap' name gap'' rest, cursor.rest = pointerText gap mark gap' name gap'' rest ∧
      Pointer gap mark gap' name gap'' ∧
      found.part? .name =
        some ⟨cursor.offset + Text.width ('(' :: (gap ++ mark :: gap')), name⟩ := by
  obtain ⟨d, ms, h₀, rfl⟩ := Pattern.exists_of_matchAt h
  obtain ⟨_, ns₆, ms₇, h₆, hclose, rfl⟩ := h₀.of_seq
  obtain ⟨_, ns₅, ms₆, h₅, hgap''₀, rfl⟩ := h₆.of_seq
  obtain ⟨_, ns₄, ms₅, h₄, hpart, rfl⟩ := h₅.of_seq
  obtain ⟨_, ns₃, ms₄, h₃, hgap', rfl⟩ := h₄.of_seq
  obtain ⟨_, ns₂, ms₃, h₂, hmark, rfl⟩ := h₃.of_seq
  obtain ⟨_, ns₁, ms₂, hopen, hgap, rfl⟩ := h₂.of_seq
  have hopen := hopen.of_word
  obtain ⟨gap, hgap, hread₂⟩ := hgap.of_run
  obtain ⟨mark, hmark, hread₃⟩ := hmark.of_char
  obtain ⟨gap', hgap', hread₄⟩ := hgap'.of_run
  obtain ⟨gap'', hgap'', hread₆⟩ := hgap''₀.of_run
  have hread₇ := hclose.of_word
  obtain ⟨_, hname, rfl⟩ := hpart.of_part
  obtain ⟨name, hread₅, hname⟩ := reads_nameOf (fun c => isWordChar_of_isNameStart) hname
  have hlead := ((hopen.trans hread₂).trans hread₃).trans hread₄
  refine ⟨gap, mark, gap', name, gap'', d.rest, ?_, ⟨hgap, hmark, hgap', hname, hgap''⟩, ?_⟩
  · have hall := (((hlead.trans hread₅).trans hread₆).trans hread₇).1
    simpa [pointerText, Cursor.asOrigin] using hall
  · rw [Match.part?_ofMarks, latest_append, hclose.latest_eq_none rfl, latest_append,
      hgap''₀.latest_eq_none rfl, latest_append, latest_cons_self ⟨.name, _, _⟩]
    have hstart := hlead.2
    simp only [Option.none_or, Option.some_or, Option.map_some, hread₅.capture_eq, hstart]
    simp [Cursor.asOrigin]

theorem Pointer.starts {gap : List Char} {mark : Char} {gap' name gap'' : List Char}
    (h : Pointer gap mark gap' name gap'') (rest : List Char) :
    pointerName.Starts (pointerText gap mark gap' name gap'' rest) := by
  refine ⟨rest, _,
    ⟨_, ⟨_, ⟨_, ⟨_, ⟨_, rfl, gap, rfl, h.gap⟩, mark, h.mark, rfl⟩, gap', rfl, h.gap'⟩,
      h.name.leaves _⟩, gap'', rfl, h.gap''⟩, rfl⟩

theorem NameOf.isBlank_head {first test : Char → Bool} {name rest : List Char}
    (h : NameOf first test name) (hblank : ∀ c, first c = true → Text.isBlank c = false) :
    ∀ c, (name ++ rest).head? = some c → Text.isBlank c = false := by
  obtain ⟨⟨a, ha, hfirst⟩, -⟩ := h
  intro c hc
  cases name with
  | nil => exact nomatch ha
  | cons b name =>
    obtain rfl : b = a := Option.some.inj ha
    obtain rfl : b = c := Option.some.inj hc
    exact hblank b hfirst

theorem isBlank_of_isNameStart {c : Char} (h : Pattern.isNameStart c = true) :
    Text.isBlank c = false := by
  refine Bool.eq_false_iff.mpr fun hblank => ?_
  have hword := isWordChar_of_isNameStart h
  rw [Text.isWordChar_eq_false_of_isBlank hblank] at hword
  exact Bool.false_ne_true hword

theorem isBlank_of_isPointerMark {c : Char} (h : isPointerMark c = true) :
    Text.isBlank c = false := by
  simp only [isPointerMark, Bool.or_eq_true, beq_iff_eq] at h
  rcases h with (rfl | rfl) | rfl <;> rfl

theorem isWordChar_head_blanks {gap rest : List Char} (h : ∀ c ∈ gap, Text.isBlank c = true)
    (hrest : ∀ c, rest.head? = some c → Text.isWordChar c = false) :
    ∀ c, (gap ++ rest).head? = some c → Text.isWordChar c = false := by
  intro c hc
  cases gap with
  | nil => exact hrest c hc
  | cons a gap =>
    obtain rfl : a = c := Option.some.inj hc
    exact Text.isWordChar_eq_false_of_isBlank (h a List.mem_cons_self)

/-- Two ways to read a function pointer from one place are one. -/
theorem Pointer.unique {gap gap' name gap'' gap₁ gap₁' name₁ gap₁'' : List Char} {mark mark₁ : Char}
    {rest rest₁ : List Char} (h : Pointer gap mark gap' name gap'')
    (k : Pointer gap₁ mark₁ gap₁' name₁ gap₁'')
    (heq : pointerText gap mark gap' name gap'' rest =
      pointerText gap₁ mark₁ gap₁' name₁ gap₁'' rest₁) :
    gap = gap₁ ∧ mark = mark₁ ∧ gap' = gap₁' ∧ name = name₁ ∧ gap'' = gap₁'' ∧ rest = rest₁ := by
  have hmark : ∀ {m : Char} {u : List Char}, isPointerMark m = true →
      ∀ c, (m :: u).head? = some c → Text.isBlank c = false := by
    intro m u hm c hc
    obtain rfl : m = c := Option.some.inj hc
    exact isBlank_of_isPointerMark hm
  have hclose : ∀ {u : List Char}, ∀ c, (')' :: u).head? = some c →
      Text.isWordChar c = false ∧ Text.isBlank c = false := by
    intro u c hc
    obtain rfl : ')' = c := Option.some.inj hc
    exact ⟨rfl, rfl⟩
  obtain ⟨rfl, hmarked⟩ :=
    Text.run_unique (List.cons.inj heq).2 h.gap k.gap (hmark h.mark) (hmark k.mark)
  obtain ⟨rfl, hspaced⟩ := List.cons.inj hmarked
  obtain ⟨rfl, hnamed⟩ := Text.run_unique hspaced h.gap' k.gap'
    (h.name.isBlank_head fun _ => isBlank_of_isNameStart)
    (k.name.isBlank_head fun _ => isBlank_of_isNameStart)
  obtain ⟨rfl, hclosed⟩ := Text.run_unique hnamed h.name.all k.name.all
    (isWordChar_head_blanks h.gap'' fun c hc => (hclose c hc).1)
    (isWordChar_head_blanks k.gap'' fun c hc => (hclose c hc).1)
  obtain ⟨rfl, hrest⟩ := Text.run_unique hclosed h.gap'' k.gap'' (fun c hc => (hclose c hc).2)
    fun c hc => (hclose c hc).2
  exact ⟨rfl, rfl, rfl, rfl, rfl, (List.cons.inj hrest).2⟩

theorem pointerName_find?_of_nowhere {text : List Char}
    (h : Pattern.Nowhere pointerName.Starts text) :
    (pointerName.find? text).bind (·.part? .name) = none := by
  rw [Pattern.find?_of_nowhere rfl h]
  rfl

theorem pointerName_find?_of_first {text a b : List Char}
    (h : Pattern.First pointerName.Starts text a b) :
    ∃ gap mark gap' name gap'' rest, Pointer gap mark gap' name gap'' ∧
      b = pointerText gap mark gap' name gap'' rest ∧
      (pointerName.find? text).bind (·.part? .name) =
        some ⟨Text.width (a ++ '(' :: (gap ++ mark :: gap')), name⟩ := by
  obtain ⟨found, previous, hfound, hmatch⟩ := Pattern.find?_of_first rfl h
  obtain ⟨gap, mark, gap', name, gap'', rest, hb, hp, hpart⟩ := pointerName_matchAt hmatch
  refine ⟨gap, mark, gap', name, gap'', rest, hp, hb, ?_⟩
  rw [hfound, Option.bind_some, hpart, Text.width_append]

/-! ## The name at the end -/

def isDollarStart (c : Char) : Bool := Pattern.isNameStart c || c == '$'

def isDollarChar (c : Char) : Bool := Text.isWordChar c || c == '$'

theorem isDollarChar_of_isDollarStart {c : Char} (h : isDollarStart c = true) :
    isDollarChar c = true := by
  rcases Bool.or_eq_true_iff.mp h with h | h
  · exact Bool.or_eq_true_iff.mpr (.inl (isWordChar_of_isNameStart h))
  · exact Bool.or_eq_true_iff.mpr (.inr h)

theorem isDollarStart_of_isBlank {c : Char} (h : Text.isBlank c = true) :
    isDollarStart c = false := by
  refine Bool.eq_false_iff.mpr fun hstart => ?_
  rcases Bool.or_eq_true_iff.mp hstart with hname | hdollar
  · exact absurd (isBlank_of_isNameStart hname) (by simp [h])
  · rw [beq_iff_eq.mp hdollar] at h
    exact absurd h (by decide)

/-- A name and the blanks behind it, up to the end of a text. -/
structure Trailing (name gap : List Char) : Prop where
  name : NameOf isDollarStart isDollarChar name
  gap : ∀ c ∈ gap, Text.isBlank c = true

theorem trailingName_matchAt {cursor : Cursor} {found : Match}
    (h : trailingName.matchAt cursor = some found) :
    ∃ name gap, cursor.rest = name ++ gap ∧ Trailing name gap ∧
      found.part? .name = some ⟨cursor.offset, name⟩ := by
  obtain ⟨d, ms, h₀, rfl⟩ := Pattern.exists_of_matchAt h
  obtain ⟨_, ns₂, ms₃, h₂, hend, rfl⟩ := h₀.of_seq
  obtain ⟨_, ns₁, ms₂, hpart, hgap₀, rfl⟩ := h₂.of_seq
  obtain ⟨gap, hgap, hread₂⟩ := hgap₀.of_run
  obtain ⟨_, hname, rfl⟩ := hpart.of_part
  obtain ⟨name, hread₁, hname⟩ := reads_nameOf (fun c => isDollarChar_of_isDollarStart) hname
  have hnil : d.rest = [] := (hend.leaves rfl).2
  refine ⟨name, gap, ?_, ⟨hname, hgap⟩, ?_⟩
  · have hall := (hread₁.trans hread₂).1
    have hlast : _ = d.rest := hend.leaves rfl |>.1.trans hnil.symm
    simpa [hlast, hnil, Cursor.asOrigin] using hall
  · rw [Match.part?_ofMarks, latest_append, hend.latest_eq_none rfl, latest_append,
      hgap₀.latest_eq_none rfl, latest_cons_self ⟨.name, _, _⟩]
    simp only [Option.none_or, Option.map_some, hread₁.capture_eq]
    simp [Cursor.asOrigin]

theorem Trailing.starts {name gap : List Char} (h : Trailing name gap) :
    trailingName.Starts (name ++ gap) :=
  ⟨[], [], ⟨gap, h.name.leaves gap, gap, (List.append_nil gap).symm, h.gap⟩, rfl, rfl⟩

theorem Trailing.unique {name gap name₁ gap₁ : List Char} (h : Trailing name gap)
    (k : Trailing name₁ gap₁) (heq : name ++ gap = name₁ ++ gap₁) : name = name₁ := by
  have hgap : ∀ {gap : List Char}, (∀ c ∈ gap, Text.isBlank c = true) →
      ∀ c, gap.head? = some c → isDollarChar c = false := by
    intro gap hall c hc
    have hblank := hall c (List.mem_of_head? hc)
    have hdollar : c ≠ '$' := fun h => absurd (h ▸ hblank) (by decide)
    simp [isDollarChar, Text.isWordChar_eq_false_of_isBlank hblank, hdollar]
  exact (Text.run_unique heq h.name.all k.name.all (hgap h.gap) (hgap k.gap)).1

theorem trailingName_find?_of_nowhere {text : List Char}
    (h : Pattern.Nowhere trailingName.Starts text) :
    (trailingName.find? text).bind (·.part? .name) = none := by
  rw [Pattern.find?_of_nowhere rfl h]
  rfl

theorem trailingName_find?_of_first {text a b : List Char}
    (h : Pattern.First trailingName.Starts text a b) :
    ∃ name gap, Trailing name gap ∧ b = name ++ gap ∧
      (trailingName.find? text).bind (·.part? .name) = some ⟨Text.width a, name⟩ := by
  obtain ⟨found, previous, hfound, hmatch⟩ := Pattern.find?_of_first rfl h
  obtain ⟨name, gap, hb, ht, hpart⟩ := trailingName_matchAt hmatch
  exact ⟨name, gap, ht, hb, by rw [hfound, Option.bind_some, hpart]⟩

/-! ## Annotations -/

def isAnnotationChar (c : Char) : Bool := Text.isWordChar c || c == '.'

/-- What is left behind arguments in parentheses. -/
def argumentsRest? (text : List Char) : Option (List Char) :=
  match text.dropWhile Text.isBlank with
  | '(' :: inner =>
    match inner.dropWhile (· != ')') with
    | [] => none
    | _ :: rest => some rest
  | _ => none

/-- What is left behind an annotation. -/
def annotationRest? : List Char → Option (List Char)
  | '@' :: c :: text =>
    if isAnnotationChar c then
      let rest := text.dropWhile isAnnotationChar
      some ((argumentsRest? rest).getD rest)
    else none
  | _ => none

def arguments : Pattern := .blanks ++ .lit "(" ++ .run0 (· != ')') ++ .lit ")"

theorem dropWhile_ne_eq_cons {stop c : Char} {inner rest : List Char}
    (h : inner.dropWhile (· != stop) = c :: rest) : c = stop := by
  have hhead := List.head?_dropWhile_not (· != stop) inner
  rw [h] at hhead
  simpa using hhead

theorem argumentsRest?_eq_some_iff {s rest : List Char} :
    argumentsRest? s = some rest ↔
      ∃ gap inner, s = gap ++ '(' :: (inner ++ ')' :: rest) ∧
        (∀ c ∈ gap, Text.isBlank c = true) ∧ ∀ c ∈ inner, (c != ')') = true := by
  constructor
  · intro h
    rw [argumentsRest?] at h
    split at h
    · next inner hopen =>
      split at h
      · exact absurd h (by simp)
      · next c after hclose =>
        obtain rfl := Option.some.inj h
        obtain rfl := dropWhile_ne_eq_cons hclose
        refine ⟨s.takeWhile Text.isBlank, inner.takeWhile (· != ')'), ?_, ?_, ?_⟩
        · rw [← hclose, List.takeWhile_append_dropWhile, ← hopen, List.takeWhile_append_dropWhile]
        · exact fun c hc => List.all_eq_true.mp List.all_takeWhile c hc
        · exact fun c hc => List.all_eq_true.mp (List.all_takeWhile (p := (· != ')'))) c hc
    · exact absurd h (by simp)
  · rintro ⟨gap, inner, rfl, hgap, hinner⟩
    have hopen : (gap ++ '(' :: (inner ++ ')' :: rest)).dropWhile Text.isBlank =
        '(' :: (inner ++ ')' :: rest) := by
      rw [List.dropWhile_append_of_pos hgap]
      rfl
    have hclose : (inner ++ ')' :: rest).dropWhile (· != ')') = ')' :: rest := by
      rw [List.dropWhile_append_of_pos hinner]
      rfl
    simp only [argumentsRest?, hopen, hclose]

theorem arguments_leaves_iff {s rest : List Char} :
    arguments.Leaves s rest ↔ argumentsRest? s = some rest := by
  rw [argumentsRest?_eq_some_iff]
  constructor
  · rintro ⟨_, ⟨_, ⟨_, ⟨gap, rfl, hgap⟩, rfl⟩, inner, rfl, hinner⟩, rfl⟩
    exact ⟨gap, inner, rfl, hgap, hinner⟩
  · rintro ⟨gap, inner, rfl, hgap, hinner⟩
    exact ⟨_, ⟨_, ⟨_, ⟨gap, rfl, hgap⟩, rfl⟩, inner, rfl, hinner⟩, rfl⟩

theorem annotationRest?_eq_some {s rest : List Char} (h : annotationRest? s = some rest) :
    ∃ c word more, s = '@' :: c :: (word ++ more) ∧
      (∀ d ∈ c :: word, isAnnotationChar d = true) ∧
      (∀ d, more.head? = some d → isAnnotationChar d = false) ∧
      rest = (argumentsRest? more).getD more := by
  unfold annotationRest? at h
  split at h
  · next c text =>
    split at h
    · next hc =>
      refine ⟨c, text.takeWhile isAnnotationChar, text.dropWhile isAnnotationChar, ?_, ?_, ?_,
        (Option.some.inj h).symm⟩
      · rw [List.takeWhile_append_dropWhile]
      · intro d hd
        rcases List.mem_cons.mp hd with rfl | hd
        · exact hc
        · exact List.all_eq_true.mp List.all_takeWhile d hd
      · intro d hd
        have hnot := List.head?_dropWhile_not isAnnotationChar text
        rw [hd] at hnot
        simpa using hnot
    · exact absurd h (by simp)
  · exact absurd h (by simp)

theorem annotationRest?_append {c : Char} {word more : List Char}
    (hword : ∀ d ∈ c :: word, isAnnotationChar d = true)
    (hmore : ∀ d, more.head? = some d → isAnnotationChar d = false) :
    annotationRest? ('@' :: c :: (word ++ more)) = some ((argumentsRest? more).getD more) := by
  have hdrop : (word ++ more).dropWhile isAnnotationChar = more := by
    rw [List.dropWhile_append_of_pos fun d hd => hword d (List.mem_cons_of_mem c hd)]
    cases more with
    | nil => rfl
    | cons d more => simp [hmore d rfl]
  rw [annotationRest?, if_pos (hword c List.mem_cons_self), hdrop]

theorem annotationRest?_of_ne {c : Char} (h : c ≠ '@') (s : List Char) :
    annotationRest? (c :: s) = none := by
  rw [annotationRest?]
  rintro _ _ heq
  exact h (List.cons.inj heq).1

theorem length_argumentsRest? {s rest : List Char} (h : argumentsRest? s = some rest) :
    rest.length < s.length := by
  obtain ⟨gap, inner, rfl, -⟩ := argumentsRest?_eq_some_iff.mp h
  simp only [List.length_append, List.length_cons]
  omega

theorem length_annotationRest? {s rest : List Char} (h : annotationRest? s = some rest) :
    rest.length < s.length := by
  obtain ⟨c, word, more, rfl, -, -, rfl⟩ := annotationRest?_eq_some h
  simp only [List.length_append, List.length_cons]
  cases hargs : argumentsRest? more with
  | none => simp only [Option.getD_none]; omega
  | some rest =>
    have hlt := length_argumentsRest? hargs
    simp only [Option.getD_some]
    omega

/-- Arguments behind a place, or else the place itself, are the best end of an
optional pattern. -/
theorem exists_head?_ends_arguments (x : Reach) (more : List Reach) :
    ∃ y, ((Pattern.optional arguments).ends (x :: more)).head? = some y ∧
      y.cursor.rest = (argumentsRest? x.cursor.rest).getD x.cursor.rest := by
  have hends : ((Pattern.optional arguments).ends (x :: more)).head? =
      ((arguments.ends [x] ++ [x]) ++ more.flatMap fun r => arguments.ends [r] ++ [r]).head? :=
    Pattern.head?_distinct _
  rw [hends]
  cases hx : arguments.ends [x] with
  | nil =>
    refine ⟨x, rfl, ?_⟩
    cases hrest : argumentsRest? x.cursor.rest with
    | none => rfl
    | some rest =>
      have halong : Pattern.Along x.cursor [x] := by
        intro r hr
        obtain rfl := List.mem_singleton.mp hr
        exact ⟨[], .refl _⟩
      obtain ⟨y, hy, -⟩ :=
        Pattern.exists_mem_ends halong List.mem_cons_self (arguments_leaves_iff.mpr hrest)
      rw [hx] at hy
      exact absurd hy List.not_mem_nil
  | cons y ends =>
    refine ⟨y, rfl, ?_⟩
    have hy : y ∈ arguments.ends [x] := hx ▸ List.mem_cons_self
    obtain ⟨r, hr, ms, hm, -⟩ := Pattern.extends_of_mem_ends hy
    obtain rfl := List.mem_singleton.mp hr
    rw [arguments_leaves_iff.mp (hm.leaves rfl)]
    rfl

theorem head?_ends_annotation (cursor : Cursor) :
    (Pattern.ends annotation [.start cursor]).head?.map (·.cursor.rest) =
      annotationRest? cursor.rest := by
  have hnone : ∀ {reaches : List Reach}, reaches = [] →
      (((Pattern.optional arguments).ends
        ((Pattern.run true isAnnotationChar).ends reaches)).head?.map (·.cursor.rest)) = none := by
    rintro _ rfl
    rw [Pattern.ends_nil, Pattern.ends_nil]
    rfl
  have hends : annotation.ends [.start cursor] = (Pattern.optional arguments).ends
      ((Pattern.run true isAnnotationChar).ends
        (([Reach.start cursor].filterMap (Reach.afterChar? (· == '@'))).filterMap
          (Reach.afterChar? isAnnotationChar))) := rfl
  -- The sign and the first character are read or not; the rest of the word is a greedy run.
  obtain ⟨previous, offset, rest⟩ := cursor
  rw [hends]
  cases rest with
  | nil => exact hnone rfl
  | cons c rest =>
    by_cases hat : c = '@'
    · subst hat
      cases rest with
      | nil => exact hnone rfl
      | cons d text =>
        by_cases hd : isAnnotationChar d = true
        · obtain ⟨x, hx, hxrest⟩ := Pattern.exists_head?_ends_run isAnnotationChar
            ⟨⟨some d, offset + '@'.utf8Size + d.utf8Size, text⟩, [], []⟩
          obtain ⟨more, hmore⟩ := List.head?_eq_some_iff.mp hx
          obtain ⟨y, hy, hyrest⟩ := exists_head?_ends_arguments x more
          have hread : ([Reach.start ⟨previous, offset, '@' :: d :: text⟩].filterMap
              (Reach.afterChar? (· == '@'))).filterMap (Reach.afterChar? isAnnotationChar) =
                [⟨⟨some d, offset + '@'.utf8Size + d.utf8Size, text⟩, [], []⟩] := by
            simp [Reach.afterChar?, Reach.start, Reach.offset, hd]
          rw [hread, hmore, hy, Option.map_some, hyrest, hxrest, annotationRest?, if_pos hd]
        · refine (hnone ?_).trans ?_
          · simp [Reach.afterChar?, Reach.start, hd]
          · rw [annotationRest?, if_neg hd]
    · refine (hnone ?_).trans (annotationRest?_of_ne hat rest).symm
      simp [Reach.afterChar?, Reach.start, hat]

theorem annotation_matchAt (cursor : Cursor) :
    (Pattern.matchAt annotation cursor = none ∧ annotationRest? cursor.rest = none) ∨
      ∃ found c read rest, annotation.matchAt cursor = some found ∧
        annotationRest? cursor.rest = some rest ∧ cursor.rest = c :: (read ++ rest) ∧
        found.stop = cursor.offset + Text.width (c :: read) := by
  have hhead := head?_ends_annotation cursor.asOrigin
  have hmatch : annotation.matchAt cursor =
      (Pattern.ends annotation [.start cursor.asOrigin]).head?.map fun stop =>
        ⟨cursor.asOrigin.capture cursor.offset stop.cursor.offset,
          stop.marks.map fun mark =>
            (mark.label, mark.start.capture cursor.offset mark.stop)⟩ := rfl
  cases hends : (Pattern.ends annotation [.start cursor.asOrigin]).head? with
  | none =>
    rw [hends] at hhead hmatch
    exact .inl ⟨hmatch, hhead.symm⟩
  | some stop =>
    rw [hends] at hhead hmatch
    obtain ⟨r, hr, ms, hm, -⟩ := Pattern.extends_of_mem_ends (List.mem_of_head? hends)
    obtain rfl := List.mem_singleton.mp hr
    obtain ⟨read, hread⟩ := hm.reads
    cases read with
    | nil => exact absurd rfl (hm.ne_nil rfl hread)
    | cons c read =>
      refine .inr ⟨_, c, read, stop.cursor.rest, hmatch, hhead.symm, hread.1, ?_⟩
      exact congrArg Capture.stop (hread.capture_eq cursor.offset)

/-- The second text is the first with every annotation replaced by a space. -/
inductive Erased : List Char → List Char → Prop
  | nil : Erased [] []
  | keep {c : Char} {s t : List Char} (h : annotationRest? (c :: s) = none) (k : Erased s t) :
      Erased (c :: s) (c :: t)
  | erase {s rest t : List Char} (h : annotationRest? s = some rest) (k : Erased rest t) :
      Erased s (' ' :: t)

theorem Erased.eq_nil {t : List Char} (h : Erased [] t) : t = [] := by
  cases h with
  | nil => rfl
  | erase h => exact nomatch h

theorem Erased.of_eq_none {c : Char} {s t : List Char} (h : Erased (c :: s) t)
    (hnone : annotationRest? (c :: s) = none) : ∃ u, t = c :: u ∧ Erased s u := by
  cases h with
  | keep _ k => exact ⟨_, rfl, k⟩
  | erase hsome => exact absurd (hnone.symm.trans hsome) (by simp)

theorem Erased.of_eq_some {s rest t : List Char} (h : Erased s t)
    (hsome : annotationRest? s = some rest) : ∃ u, t = ' ' :: u ∧ Erased rest u := by
  cases h with
  | nil => exact absurd hsome (by simp [annotationRest?])
  | keep hnone => exact absurd (hnone.symm.trans hsome) (by simp)
  | erase hsome' k =>
    obtain rfl := Option.some.inj (hsome'.symm.trans hsome)
    exact ⟨_, rfl, k⟩

theorem erased_replaceFrom (text : List Char) {resume offset : Nat} (previous : Option Char)
    (h : resume ≤ offset) :
    Erased text (Pattern.replaceFrom annotation [' '] resume previous offset text) := by
  generalize hn : text.length = n
  induction n using Nat.strongRecOn generalizing text resume offset previous with
  | ind n ih =>
    cases text with
    | nil => exact .nil
    | cons c text =>
      rw [Pattern.replaceFrom, if_neg (Nat.not_lt.mpr h)]
      rcases annotation_matchAt ⟨previous, offset, c :: text⟩ with ⟨hmatch, hnone⟩ |
        ⟨found, d, read, rest, hmatch, hsome, hread, hstop⟩
      · rw [hmatch]
        exact .keep hnone (ih text.length (by simp [← hn]) text _ (by omega) rfl)
      · obtain ⟨rfl, htext⟩ := List.cons.inj hread
        rw [Text.width_cons, ← Nat.add_assoc] at hstop
        obtain ⟨previous', heq⟩ :=
          Pattern.replaceFrom_append annotation [' '] (some c) read rest hstop.symm
        have hlt : rest.length < n := by
          simp only [htext, List.length_cons, List.length_append] at hn
          omega
        have herased := ih rest.length hlt rest previous' (Nat.le_refl found.stop) rfl
        rw [← heq, ← htext] at herased
        rw [hmatch]
        exact .erase hsome herased

theorem erased_replaceAll (text : List Char) :
    Erased text (Pattern.replaceAll annotation [' '] text) :=
  erased_replaceFrom text none (Nat.le_refl 0)

end Parameter
end Outline
