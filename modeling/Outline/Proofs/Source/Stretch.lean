import Outline.Proofs.Source.Blanking
import Outline.Proofs.Source.Tint

/-!
# Stretches of a shaded text

A stretch is what lies between two offsets of a text, with the shades that the
masking pass gave it.  Cutting a view at two places where the text can be cut
shows the stretch between them, so what a literal hides is told by the stretch
alone.  The contents of a literal come behind a mark that shows: a quote, or the
parenthesis of a raw string.
-/

namespace Outline
namespace Mask

/-- A text with the shade of each of its characters. -/
def tinted (rules : MaskRules) (text : List Char) : Tinted := (shades rules text).zip text

/-- The characters between two offsets with their shades. -/
def stretch (rules : MaskRules) (text : List Char) (start stop : Nat) : Tinted :=
  ((tinted rules text).drop (Text.before text start).length).take
    (Text.before (Text.suffixAt text start) (stop - start)).length

theorem length_shadesFrom (rules : MaskRules) (mode : Mode) (fresh : Bool) (previous : Option Char)
    (text : List Char) : (shadesFrom rules mode fresh previous text).length = text.length := by
  induction text generalizing mode fresh previous with
  | nil => rfl
  | cons c text ih =>
    rw [shadesFrom]
    exact congrArg (· + 1) (ih _ _ _)

theorem mem_blank {c d : Char} (h : d ∈ blank c) : d = ' ' ∨ d = '\n' := by
  rw [blank] at h
  split at h
  · exact .inr (List.mem_singleton.mp h)
  · exact .inl (List.eq_of_mem_replicate h)

theorem exists_blank_eq (c : Char) : ∃ w d, blank c = w ++ [d] := by
  rw [blank]
  split
  · exact ⟨[], '\n', rfl⟩
  · obtain ⟨n, hn⟩ : ∃ n, c.utf8Size = n + 1 :=
      Nat.exists_eq_succ_of_ne_zero (Nat.ne_of_gt c.utf8Size_pos)
    exact ⟨List.replicate n ' ', ' ', by rw [hn, List.replicate_succ']⟩

section Tinted

variable {rules : MaskRules} {text : List Char} {start stop : Nat}

theorem wordOf_tinted (rules : MaskRules) (text : List Char) : wordOf (tinted rules text) = text :=
  List.map_snd_zip (Nat.le_of_eq (length_shadesFrom rules _ _ _ text).symm)

theorem shadesOf_tinted (rules : MaskRules) (text : List Char) :
    shadesOf (tinted rules text) = shades rules text :=
  List.map_fst_zip (Nat.le_of_eq (length_shadesFrom rules _ _ _ text))

theorem view_tinted (rules : MaskRules) (text : List Char) (hidden : Shade → Bool) :
    view hidden (tinted rules text) = paint hidden (shades rules text) text := by
  rw [← paint_shadesOf, shadesOf_tinted, wordOf_tinted]

theorem width_view (hidden : Shade → Bool) (word : Tinted) :
    Text.width (view hidden word) = Text.width (wordOf word) := by
  rw [← paint_shadesOf, width_paint]

/-- A stretch between two places where the text can be cut stands between what
comes before and after. -/
theorem exists_tinted_eq (rules : MaskRules) (hs : Text.IsBoundary text start)
    (he : Text.IsBoundary text stop) (hle : start ≤ stop) :
    ∃ front rear, tinted rules text = front ++ stretch rules text start stop ++ rear ∧
      Text.width (wordOf front) = start ∧
      start + Text.width (wordOf (stretch rules text start stop)) = stop := by
  obtain ⟨a, part, b, htext, ha, hpart⟩ := hs.split he hle
  have hrest : text = a ++ (part ++ b) := by rw [htext, List.append_assoc]
  have hbefore : Text.before text start = a := by rw [hrest, ← ha, Text.before_width_append]
  have hinner : Text.before (Text.suffixAt text start) (stop - start) = part := by
    have hwidth : stop - start = Text.width part := by
      rw [Text.width_append] at hpart
      omega
    rw [hrest, ← ha, Text.suffixAt_width_append, ha, hwidth, Text.before_width_append]
  have hstretch : stretch rules text start stop =
      ((tinted rules text).drop a.length).take part.length := by rw [stretch, hbefore, hinner]
  have hfront : wordOf ((tinted rules text).take a.length) = a := by
    rw [wordOf, List.map_take, ← wordOf, wordOf_tinted, hrest, List.take_left]
  have hmiddle : wordOf (stretch rules text start stop) = part := by
    rw [hstretch, wordOf, List.map_take, List.map_drop, ← wordOf, wordOf_tinted, hrest,
      List.drop_left, List.take_left]
  refine ⟨(tinted rules text).take a.length,
    ((tinted rules text).drop a.length).drop part.length, ?_, by rw [hfront, ha], ?_⟩
  · rw [hstretch, List.append_assoc, List.take_append_drop, List.take_append_drop]
  · rw [hmiddle, ← hpart, Text.width_append, ha]

theorem slice?_paint (hs : Text.IsBoundary text start) (he : Text.IsBoundary text stop)
    (hle : start ≤ stop) (hidden : Shade → Bool) :
    Text.slice? (paint hidden (shades rules text) text) start stop =
      some (view hidden (stretch rules text start stop)) := by
  obtain ⟨front, rear, heq, hfront, hstop⟩ := exists_tinted_eq rules hs he hle
  rw [← view_tinted, heq, view_append, view_append]
  refine Text.slice?_eq_some_iff.mpr ⟨_, _, rfl, ?_, ?_⟩
  · rw [width_view, hfront]
  · rw [Text.width_append, width_view, width_view, hfront, hstop]

theorem slice?_stripped (hs : Text.IsBoundary text start) (he : Text.IsBoundary text stop)
    (hle : start ≤ stop) :
    Text.slice? (stripped rules text) start stop =
      some (view (· == .comment) (stretch rules text start stop)) :=
  slice?_paint hs he hle _

theorem slice?_masked (hs : Text.IsBoundary text start) (he : Text.IsBoundary text stop)
    (hle : start ≤ stop) :
    Text.slice? (masked rules text) start stop =
      some (view (· != .plain) (stretch rules text start stop)) :=
  slice?_paint hs he hle _

end Tinted

/-! ## What stands in front of a literal -/

/-- A mark that may have contents of a literal behind it. -/
def isFence (c : Char) : Bool := c == '"' || c == '\'' || c == '('

/-- Whether contents of a literal may come next, after a shaded character. -/
def opensLiteral : Option (Shade × Char) → Bool
  | some (.literal, _) => true
  | some (.plain, c) => isFence c
  | _ => false

namespace Mode

/-- Whether the pass is inside of a literal. -/
def inLiteral : Mode → Bool
  | .quoted _ | .textBlock | .raw _ | .escape _ => true
  | _ => false

/-- Whether the pass neither completes a token nor is about to leave an escape. -/
def isSettled : Mode → Bool
  | .escape _ | .pass .. => false
  | _ => true

/-- The pass is inside of a literal only behind a fence or inside of it; a token that it
completes ends with a fence when a literal comes next. -/
def Fenced (last : Option (Shade × Char)) (rest : List Char) : Mode → Prop
  | .escape back => opensLiteral last = true ∧ back.isSettled = true
  | .pass more shade next => shade ≠ .literal ∧ next.isSettled = true ∧
      (next.inLiteral = true → shade = .plain ∧ ∃ c, rest[more]? = some c ∧ isFence c = true)
  | mode => mode.inLiteral = true → opensLiteral last = true

variable {last : Option (Shade × Char)} {rest : List Char}

theorem fenced_of_isSettled {mode : Mode} (hs : mode.isSettled = true)
    (h : mode.inLiteral = true → opensLiteral last = true) : mode.Fenced last rest := by
  cases mode with
  | escape | pass => simp [isSettled] at hs
  | code | lineComment | blockComment | directive | quoted | textBlock | raw => exact h

theorem fenced_of_not_inLiteral {mode : Mode} (hs : mode.isSettled = true)
    (h : mode.inLiteral = false) : mode.Fenced last rest :=
  fenced_of_isSettled hs fun hin => absurd (h ▸ hin) Bool.false_ne_true

theorem fenced_pass {more : Nat} {shade : Shade} {next : Mode} (hs : next.isSettled = true)
    (hin : next.inLiteral = false) (hshade : shade ≠ .literal) :
    (Mode.pass more shade next).Fenced last rest :=
  ⟨hshade, hs, fun h => absurd (hin ▸ h) Bool.false_ne_true⟩

theorem fenced_passing {n : Nat} {shade : Shade} {next : Mode} (hs : next.isSettled = true)
    (hin : next.inLiteral = false) (hshade : shade ≠ .literal) :
    (Mode.passing n shade next).Fenced last rest := by
  cases n with
  | zero => exact fenced_of_not_inLiteral hs hin
  | succ more => exact fenced_pass hs hin hshade

end Mode

open Mode (fenced_of_isSettled fenced_of_not_inLiteral fenced_pass fenced_passing)

/-- What one step of the pass keeps of the fences. -/
def StepFenced (last : Option (Shade × Char)) (c : Char) (rest : List Char)
    (result : Shade × Mode × Bool) : Prop :=
  (result.1 = .literal → opensLiteral last = true) ∧
    result.2.1.Fenced (some (result.1, c)) rest

section Steps

variable {rules : MaskRules} {fresh : Bool} {previous : Option Char} {c : Char}
  {last : Option (Shade × Char)} {rest : List Char}

theorem StepFenced.of_not_literal {shade : Shade} {mode : Mode} (hshade : shade ≠ .literal)
    (h : mode.Fenced (some (shade, c)) rest) : StepFenced last c rest (shade, mode, fresh) :=
  ⟨fun heq => absurd heq hshade, h⟩

theorem fenced_code : StepFenced last c rest (step rules .code fresh previous c rest) := by
  simp only [step]
  split
  · exact .of_not_literal (by decide) (fenced_pass rfl rfl (by decide))
  split
  · exact .of_not_literal (by decide) (fenced_pass rfl rfl (by decide))
  split
  · exact .of_not_literal (by decide) (fenced_of_not_inLiteral rfl rfl)
  split
  · next htext =>
    obtain ⟨tail, rfl⟩ := Text.startsWith_iff.mp htext.2.2
    exact .of_not_literal (by decide) ⟨by decide, rfl, fun _ => ⟨rfl, '"', rfl, rfl⟩⟩
  split
  · next hraw =>
    obtain ⟨-, -, hquote, -, hparen⟩ := hraw
    obtain ⟨more, hmore⟩ := Text.exists_takeWhile_append hparen
    refine .of_not_literal (by decide) ⟨by decide, rfl, fun _ => ⟨rfl, '(', ?_, rfl⟩⟩
    cases rest with
    | nil => simp at hquote
    | cons quote tail =>
      rw [List.tail_cons] at hmore ⊢
      rw [List.getElem?_cons_succ]
      generalize tail.takeWhile (· != '(') = delimiter at hmore ⊢
      rw [hmore, List.getElem?_append_right (Nat.le_refl _), Nat.sub_self, List.getElem?_cons_zero]
  split
  · next hquote =>
    subst hquote
    exact .of_not_literal (by decide) fun _ => rfl
  split
  · next hquote =>
    obtain ⟨rfl, -⟩ := hquote
    exact .of_not_literal (by decide) fun _ => rfl
  · exact .of_not_literal (by decide) (fenced_of_not_inLiteral rfl rfl)

/-- In a literal the pass stays in it or shows a mark that ends it. -/
theorem fenced_literal {mode : Mode} (hmode : mode.inLiteral = true)
    (h : mode.Fenced last (c :: rest)) :
    StepFenced last c rest (step rules mode fresh previous c rest) := by
  cases mode with
  | code | lineComment | blockComment | directive | pass => exact absurd hmode Bool.false_ne_true
  | escape back => exact ⟨fun _ => h.1, fenced_of_isSettled h.2 fun _ => rfl⟩
  | quoted quote =>
    simp only [step]
    split
    · exact ⟨fun _ => h rfl, rfl, rfl⟩
    split
    · exact .of_not_literal (by decide) (fenced_of_not_inLiteral rfl rfl)
    · exact ⟨fun _ => h rfl, fun _ => rfl⟩
  | textBlock =>
    simp only [step]
    split
    · exact .of_not_literal (by decide) (fenced_pass rfl rfl (by decide))
    split
    · exact ⟨fun _ => h rfl, rfl, rfl⟩
    · exact ⟨fun _ => h rfl, fun _ => rfl⟩
  | raw close =>
    simp only [step]
    split
    · exact .of_not_literal (by decide) (fenced_passing rfl rfl (by decide))
    · exact ⟨fun _ => h rfl, fun _ => rfl⟩

theorem fenced_comment {mode : Mode}
    (hmode : mode = .lineComment ∨ mode = .blockComment ∨ mode = .directive) :
    StepFenced last c rest (step rules mode fresh previous c rest) := by
  rcases hmode with rfl | rfl | rfl <;> simp only [step] <;> split
  · exact .of_not_literal (by decide) (fenced_of_not_inLiteral rfl rfl)
  · exact .of_not_literal (by decide) (fenced_of_not_inLiteral rfl rfl)
  · exact .of_not_literal (by decide) (fenced_pass rfl rfl (by decide))
  · exact .of_not_literal (by decide) (fenced_of_not_inLiteral rfl rfl)
  · exact .of_not_literal (by decide) (fenced_pass rfl rfl (by decide))
  · split
    · exact .of_not_literal (by decide) (fenced_of_not_inLiteral rfl rfl)
    · exact .of_not_literal (by decide) (fenced_of_not_inLiteral rfl rfl)

theorem fenced_step {mode : Mode} (h : mode.Fenced last (c :: rest)) :
    StepFenced last c rest (step rules mode fresh previous c rest) := by
  cases mode with
  | code => exact fenced_code
  | lineComment => exact fenced_comment (.inl rfl)
  | blockComment => exact fenced_comment (.inr (.inl rfl))
  | directive => exact fenced_comment (.inr (.inr rfl))
  | quoted | textBlock | raw | escape => exact fenced_literal rfl h
  | pass more shade next =>
    obtain ⟨hshade, hsettled, hnext⟩ := h
    refine .of_not_literal hshade ?_
    cases more with
    | zero =>
      refine fenced_of_isSettled hsettled fun hin => ?_
      obtain ⟨rfl, d, hd, hfence⟩ := hnext hin
      obtain rfl : c = d := by simpa using hd
      exact hfence
    | succ more => exact ⟨hshade, hsettled, hnext⟩

theorem fenced_run {mode : Mode} {text : List Char} (h : mode.Fenced last text)
    {front rear : Tinted} (heq : (shadesFrom rules mode fresh previous text).zip text =
      front ++ (.literal, c) :: rear) :
    opensLiteral (front.foldl (fun _ x => some x) last) = true := by
  -- `Fenced` is carried from step to step; the fold keeps the last character passed.
  induction text generalizing mode fresh previous last front with
  | nil => simp [shadesFrom] at heq
  | cons d text ih =>
    have hstep : StepFenced last d text (step rules mode fresh previous d text) := fenced_step h
    obtain ⟨hliteral, hnext⟩ := hstep
    rw [shadesFrom] at heq
    generalize step rules mode fresh previous d text = result at hliteral hnext heq
    obtain ⟨shade, next, fresh'⟩ := result
    rw [List.zip_cons_cons] at heq
    cases front with
    | nil => exact hliteral (congrArg Prod.fst (List.cons.inj heq).1)
    | cons x front =>
      obtain ⟨rfl, hrest⟩ := List.cons.inj heq
      exact ih hnext hrest

end Steps

/-- The contents of a literal come behind a fence or behind other contents. -/
theorem opensLiteral_of_tinted {rules : MaskRules} {text : List Char} {front rear : Tinted}
    {c : Char} (h : tinted rules text = front ++ (.literal, c) :: rear) :
    opensLiteral front.getLast? = true := by
  have hlast : front.foldl (fun _ x => some x) none = front.getLast? := by
    rcases List.eq_nil_or_concat front with rfl | ⟨init, x, rfl⟩
    · rfl
    · simp
  have hcode : Mode.code.Fenced none text := fenced_of_not_inLiteral rfl rfl
  rw [← hlast]
  exact fenced_run hcode h

/-! ## Up to the first literal -/

/-- Two texts are the same, at least up to a fence that stands in both. -/
def SameToFence (s t : List Char) : Prop :=
  s = t ∨ ∃ w c u v, isFence c = true ∧ s = w ++ c :: u ∧ t = w ++ c :: v

theorem view_eq_of_not_literal {word : Tinted} (h : ∀ x ∈ word, x.1 ≠ .literal) :
    view (· == .comment) word = view (· != .plain) word := by
  induction word with
  | nil => rfl
  | cons x word ih =>
    obtain ⟨shade, c⟩ := x
    have hshade : shade ≠ .literal := h (shade, c) List.mem_cons_self
    rw [view_cons, view_cons, ih fun y hy => h y (by simp [hy])]
    cases shade with
    | literal => exact absurd rfl hshade
    | plain | comment => rfl

/-- The two views of a stretch that does not begin inside of a literal are the same up
to the mark in front of its first literal. -/
theorem sameToFence_view {rules : MaskRules} {text : List Char} {front word rear : Tinted}
    (h : tinted rules text = front ++ word ++ rear)
    (hhead : ∀ x, word.head? = some x → x.1 ≠ .literal) :
    SameToFence (view (· == .comment) word) (view (· != .plain) word) := by
  by_cases hall : ∀ x ∈ word, x.1 ≠ .literal
  · exact .inl (view_eq_of_not_literal hall)
  · obtain ⟨x, hx⟩ : ∃ x, word.find? (·.1 == .literal) = some x := by
      rw [← Option.isSome_iff_exists, List.find?_isSome]
      simpa using hall
    obtain ⟨hliteral, lead, more, rfl, hlead⟩ := List.find?_eq_some_iff_append.mp hx
    obtain ⟨shade, c⟩ := x
    obtain rfl : shade = .literal := by simpa using hliteral
    have hopens : opensLiteral (front ++ lead).getLast? = true := by
      refine @opensLiteral_of_tinted rules text (front ++ lead) (more ++ rear) c ?_
      rw [h]
      simp
    rcases List.eq_nil_or_concat lead with rfl | ⟨init, ⟨shade, d⟩, rfl⟩
    · exact absurd rfl (hhead (.literal, c) rfl)
    · have hshade : shade ≠ .literal := by simpa using hlead (shade, d) (by simp)
      have hplain : shade = .plain ∧ isFence d = true := by
        rw [List.concat_eq_append, ← List.append_assoc, List.getLast?_concat] at hopens
        cases shade with
        | literal => exact absurd rfl hshade
        | plain => exact ⟨rfl, hopens⟩
        | comment => simp [opensLiteral] at hopens
      obtain ⟨rfl, hfence⟩ := hplain
      have hinit : view (· == .comment) init = view (· != .plain) init :=
        view_eq_of_not_literal fun y hy => by simpa using hlead y (by simp [hy])
      have hview : ∀ hidden : Shade → Bool, hidden .plain = false →
          view hidden (init.concat (.plain, d) ++ (.literal, c) :: more) =
            view hidden init ++ d :: view hidden ((.literal, c) :: more) := by
        intro hidden hplain
        rw [List.concat_eq_append, List.append_assoc, view_append, List.singleton_append, view_cons,
          hplain]
        rfl
      exact .inr ⟨view (· != .plain) init, d, view (· == .comment) ((.literal, c) :: more),
        view (· != .plain) ((.literal, c) :: more), hfence, hinit ▸ hview _ rfl, hview _ rfl⟩

/-- Two places of a text, at the first of which the masked view shows a character, bound
parts of the views that are the same up to a fence. -/
theorem exists_slices_sameToFence {rules : MaskRules} {text : List Char} {start stop : Nat}
    {c : Char} (hc : Text.charAt? (masked rules text) start = some c) (hspace : c ≠ ' ')
    (hfeed : c ≠ '\n') (hs : Text.IsBoundary text start) (he : Text.IsBoundary text stop)
    (hle : start ≤ stop) :
    ∃ shown hidden, Text.slice? (stripped rules text) start stop = some shown ∧
      Text.slice? (masked rules text) start stop = some hidden ∧ SameToFence shown hidden := by
  obtain ⟨front, rear, htinted, hfront, -⟩ := exists_tinted_eq rules hs he hle
  refine ⟨_, _, slice?_stripped hs he hle, slice?_masked hs he hle, sameToFence_view htinted ?_⟩
  intro x hx hliteral
  obtain ⟨more, hmore⟩ := List.head?_eq_some_iff.mp hx
  obtain ⟨w, d, hblank⟩ := exists_blank_eq x.2
  have hview : masked rules text = view (· != .plain) front ++ (blank x.2 ++
      view (· != .plain) (more ++ rear)) := by
    obtain ⟨shade, y⟩ := x
    obtain rfl : shade = .literal := hliteral
    rw [masked, ← view_tinted, htinted, hmore, view_append, view_append, view_append]
    simp [view_cons]
  rw [hview, ← hfront, ← width_view (· != .plain) front, Text.charAt?, Text.dropWidth?_width_append,
    Option.bind_some] at hc
  have hmem : c ∈ blank x.2 := by
    cases hcases : blank x.2 with
    | nil => simp [hblank] at hcases
    | cons first others =>
      rw [hcases, List.cons_append, List.head?_cons, Option.some.injEq] at hc
      simp [hc]
  rcases mem_blank hmem with h | h
  · exact hspace h
  · exact hfeed h

end Mask
end Outline
