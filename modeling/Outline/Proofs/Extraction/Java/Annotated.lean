import Outline.Proofs.Declaration.NamePattern
import Outline.Proofs.Extraction.Java.Front
import Outline.Proofs.Extraction.Java.Reading
import Outline.Proofs.Pattern.Anchor
import Outline.Proofs.Pattern.Sweep
import Outline.Proofs.Source.Inserted

/-!
# Declarations behind an annotation

Arguments of an annotation are read up to the first closing parenthesis.  So an annotation whose
arguments have none is read whole, and the declaration behind it is matched as it is without the
annotation, only from the sign on.  What else is matched in the annotation stays in it.
-/

namespace Outline
namespace Java

open Parameter (isAnnotationChar)
open Pattern (Matches Misses Prefers)

/-- An annotation with arguments, and a space behind it. -/
def annotationText (name args : List Char) : List Char :=
  '@' :: (name ++ '(' :: (args ++ [')', ' ']))

/-- The name of an annotation and arguments without parentheses. -/
structure IsAnnotation (name args : List Char) : Prop where
  named : name ≠ []
  nameChars : ∀ c ∈ name, isAnnotationChar c = true
  argsChars : ∀ c ∈ args, c ∉ ['(', ')', '\x7b', '\x7d', '"', '\'', ';', '\n']
  bare : Text.isBare args = true

variable {name args rest : List Char} {reach : Reach} {c d : Cursor} {ms : List Mark}

theorem annotationText_append (name args rest : List Char) : annotationText name args ++ rest =
    '@' :: (name ++ '(' :: (args ++ ')' :: ' ' :: rest)) := by
  simp [annotationText]

namespace IsAnnotation

theorem not_mem_args (h : IsAnnotation name args) {c : Char}
    (hc : c ∈ ['(', ')', '\x7b', '\x7d', '"', '\'', ';', '\n']) : c ∉ args :=
  fun hmem => h.argsChars c hmem hc

theorem not_mem_name (h : IsAnnotation name args) {c : Char} (hc : isAnnotationChar c = false) :
    c ∉ name := by
  intro hmem
  rw [h.nameChars c hmem] at hc
  cases hc

/-- An annotation is code on one line, without braces. -/
theorem isCode (h : IsAnnotation name args) : Text.IsCode (annotationText name args) := by
  have hnamed : Text.IsCode ('@' :: (name ++ ['('])) := by
    refine Text.isCode_of_forall fun c hc => ?_
    have hnot : ∀ mark ∈ ['"', '\'', '/'], isAnnotationChar mark = false ∧ mark ≠ '@' ∧ mark ≠ '(' := by
      decide
    have hne : ∀ mark ∈ ['"', '\'', '/'], c ≠ mark := by
      rintro mark hmark rfl
      obtain ⟨hletter, hsign, hparen⟩ := hnot c hmark
      simp only [List.mem_cons, List.mem_append, List.not_mem_nil, or_false] at hc
      rcases hc with rfl | hc | rfl
      · exact hsign rfl
      · exact h.not_mem_name hletter hc
      · exact hparen rfl
    exact ⟨hne _ (by simp), hne _ (by simp), hne _ (by simp)⟩
  have hargs : Text.IsCode (args ++ [')', ' ']) :=
    ⟨Text.isBare_append_cons (c := ')') (b := [' ']) h.bare rfl (by decide) (by decide), by simp⟩
  have htext : annotationText name args = ('@' :: (name ++ ['('])) ++ (args ++ [')', ' ']) := by
    simp [annotationText]
  rw [htext]
  exact hnamed.append hargs

theorem not_mem_text (h : IsAnnotation name args) {c : Char}
    (hc : c ∈ ['\x7b', '\x7d', ';', '\n']) : c ∉ annotationText name args := by
  have hnot : ∀ c ∈ ['\x7b', '\x7d', ';', '\n'], isAnnotationChar c = false ∧
      c ∈ ['(', ')', '\x7b', '\x7d', '"', '\'', ';', '\n'] ∧ c ∉ ['@', '(', ')', ' '] := by decide
  obtain ⟨hletter, hargs, hmarks⟩ := hnot c hc
  simp only [List.mem_cons, List.not_mem_nil, or_false, not_or] at hmarks
  simp [annotationText, hmarks, h.not_mem_name hletter, h.not_mem_args hargs]

/-! ## The annotation is read whole -/

theorem prefers (h : IsAnnotation name args)
    (hr : reach.cursor.rest = annotationText name args ++ rest)
    (hblank : ∀ c, rest.head? = some c → Text.isBlank c = false) :
    (Parameter.annotation ++ Pattern.blanks).Prefers reach
      (reach.after (annotationText name args) rest) := by
  have hsign : (Pattern.char (· == '@')).Prefers reach
      (reach.after ['@'] (name ++ '(' :: (args ++ ')' :: ' ' :: rest))) :=
    Pattern.prefers_char reach (hr.trans (annotationText_append name args rest)) rfl
  have hname : ∀ r : Reach, r.cursor.rest = name ++ '(' :: (args ++ ')' :: ' ' :: rest) →
      (Pattern.run1 isAnnotationChar).Prefers r
        (r.after name ('(' :: (args ++ ')' :: ' ' :: rest))) := fun r hr =>
    Pattern.prefers_run1 r h.named hr h.nameChars (by rintro _ ⟨⟩; rfl)
  have hgap : ∀ r : Reach, r.cursor.rest = '(' :: (args ++ ')' :: ' ' :: rest) →
      Pattern.blanks.Prefers r (r.after [] ('(' :: (args ++ ')' :: ' ' :: rest))) := fun r hr =>
    Pattern.prefers_run r hr nofun (by rintro _ ⟨⟩; rfl)
  have hopen : ∀ r : Reach, r.cursor.rest = '(' :: (args ++ ')' :: ' ' :: rest) →
      (Pattern.lit "(").Prefers r (r.after ['('] (args ++ ')' :: ' ' :: rest)) := fun r hr =>
    Pattern.prefers_lit r hr
  have hargs : ∀ r : Reach, r.cursor.rest = args ++ ')' :: ' ' :: rest →
      (Pattern.run0 (· != ')')).Prefers r (r.after args (')' :: ' ' :: rest)) := fun r hr =>
    Pattern.prefers_run r hr
      (fun c hc => bne_iff_ne.mpr fun heq => h.not_mem_args (by decide) (heq ▸ hc))
      (by rintro _ ⟨⟩; rfl)
  have hclose : ∀ r : Reach, r.cursor.rest = ')' :: ' ' :: rest →
      (Pattern.lit ")").Prefers r (r.after [')'] (' ' :: rest)) := fun r hr =>
    Pattern.prefers_lit r hr
  have hspace : ∀ r : Reach, r.cursor.rest = ' ' :: rest →
      Pattern.blanks.Prefers r (r.after [' '] rest) := fun r hr =>
    Pattern.prefers_run r hr (by decide) hblank
  have harguments := fun (r : Reach) hr =>
    (((hgap r hr).seq (hopen _ rfl)).seq (hargs _ rfl)).seq (hclose _ rfl)
  have hall := ((hsign.seq (hname _ rfl)).seq (harguments _ rfl).optional).seq (hspace _ rfl)
  simp only [Reach.after_after] at hall
  have htext : ['@'] ++ name ++ [] ++ ['('] ++ args ++ [')'] ++ [' '] = annotationText name args := by
    simp [annotationText]
  rw [htext] at hall
  exact hall

theorem prefers_annotations (h : IsAnnotation name args)
    (hr : reach.cursor.rest = annotationText name args ++ rest)
    (hblank : ∀ c, rest.head? = some c → Text.isBlank c = false) (hat : rest.head? ≠ some '@') :
    annotations.Prefers reach (reach.after (annotationText name args) rest) := by
  refine (h.prefers hr hblank).many_once ?_ (ends_annotation_of_ne hat)
  show reach.offset < reach.offset + Text.width (annotationText name args)
  rw [annotationText, Text.width_cons]
  have hpos := Char.utf8Size_pos '@'
  omega

end IsAnnotation

/-! ## The declaration is matched behind it -/

/-- Without an annotation only the declaration is matched. -/
theorem Annotated.ends_of_ne {p body : Pattern} (hp : Annotated p body)
    (hat : reach.cursor.rest.head? ≠ some '@') : p.ends [reach] = body.ends [reach] := by
  rw [hp.ends, ends_annotations _ (List.pairwise_singleton _ _)]
  intro r hr
  rw [List.mem_singleton.mp hr]
  exact hat

/-- From the sign on an annotated declaration is matched as it is without the annotation. -/
theorem Annotated.matchAt_behind {p body : Pattern} (hp : Annotated p body)
    (hbody : body.simple = true) (h : IsAnnotation name args)
    (hblank : ∀ c, rest.head? = some c → Text.isBlank c = false) (hat : rest.head? ≠ some '@')
    {x : Option Char} {offset : Nat} {found : Match}
    (hm : p.matchAt ⟨x, offset + Text.width (annotationText name args), rest⟩ = some found)
    (y : Option Char) :
    ∃ found', p.matchAt ⟨y, offset, annotationText name args ++ rest⟩ = some found' ∧
      found'.start = offset ∧ found'.stop = found.stop ∧ found'.parts = found.parts := by
  obtain ⟨stop, hhead, rfl⟩ := Option.map_eq_some_iff.mp hm
  have hplain : p.ends [.start ⟨x, 0, rest⟩] = body.ends [.start ⟨x, 0, rest⟩] :=
    hp.ends_of_ne hat
  let start : Reach := .start ⟨y, 0, annotationText name args ++ rest⟩
  let behind : Reach := start.after (annotationText name args) rest
  -- Behind the annotation the declaration starts as it does alone, so many bytes further on.
  have hshifted : (Reach.start ⟨x, 0, rest⟩).Shifted Pattern.anything
      (Text.width (annotationText name args)) [] behind :=
    ⟨⟨trivial, rfl, (List.append_nil rest).symm⟩, .nil, .nil⟩
  have hannotations : annotations.Prefers start behind := h.prefers_annotations rfl hblank hat
  have hself : ∀ c, Pattern.anything (some c) (some c) := fun _ => trivial
  obtain ⟨stop', hbehind, hstop⟩ : ∃ stop', body.Prefers behind stop' ∧
      stop.Shifted Pattern.anything (Text.width (annotationText name args)) [] stop' := by
    have hends := Pattern.shifted_ends hself (Pattern.overlooks_anything hbody)
      (.cons hshifted .nil)
    rw [← hplain] at hends
    obtain ⟨stops, hstops⟩ := List.head?_eq_some_iff.mp hhead
    rw [show p.ends [.start ⟨x, 0, rest⟩] = _ from hstops] at hends
    obtain ⟨stop', stops', hstop, -, hstops'⟩ := List.forall₂_cons_left_iff.mp hends
    exact ⟨stop', by rw [Prefers, hstops']; rfl, hstop⟩
  have hall : p.Prefers start stop' := by
    rw [Prefers, hp.ends]
    exact hannotations.seq hbehind
  have hextends : ∀ {r s : Reach}, p.Prefers r s → Pattern.Extends p r s := by
    intro r s hs
    obtain ⟨_, hr, hextends⟩ := Pattern.extends_of_mem_ends (List.mem_of_head? hs)
    rwa [List.mem_singleton.mp hr] at hextends
  obtain ⟨ms, hm, -, hmarks⟩ := hextends (show p.Prefers (.start ⟨x, 0, rest⟩) stop from hhead)
  obtain ⟨_, hm', -⟩ := hextends hall
  obtain ⟨read, hread⟩ := hm.reads
  obtain ⟨read', hread'⟩ := hm'.reads
  have hwithin : ∀ m ∈ stop.marks, m.Within ⟨x, 0, rest⟩ stop.cursor := by
    rw [hmarks, show (Reach.start ⟨x, 0, rest⟩).marks = [] from rfl, List.append_nil]
    exact hm.within
  refine ⟨_, Pattern.matchAt_of_head? hall, rfl, ?_,
    Match.ofMarks_shifted hstop.marks offset hwithin _ _⟩
  refine (Match.stop_ofMarks hread' offset).trans (Eq.trans ?_ (Match.stop_ofMarks hread _).symm)
  rw [hstop.cursor.offset, Nat.add_comm stop.cursor.offset, Nat.add_assoc]

/-! ## No other declaration is matched from the sign on -/

/-- Letters of a name and the arguments of an annotation behind them. -/
def LeadsArguments (args rest text : List Char) : Prop :=
  ∃ lead, text = lead ++ '(' :: (args ++ ')' :: ' ' :: rest) ∧
    ∀ c ∈ lead, isAnnotationChar c = true

/-- No annotation starts with a letter. -/
theorem LeadsArguments.head?_ne {text : List Char} (h : LeadsArguments args rest text) :
    text.head? ≠ some '@' := by
  obtain ⟨lead, rfl, hall⟩ := h
  cases lead with
  | nil => nofun
  | cons a lead =>
    intro hhead
    have ha := hall a List.mem_cons_self
    rw [Option.some.inj hhead] at ha
    exact absurd ha (by decide)

/-- A run of other characters stays in front of the parentheses. -/
theorem leadsArguments_of_run {greedy : Bool} {test : Char → Bool} (htest : test '(' = false)
    (hm : Matches (.run greedy test) c d ms) (hc : LeadsArguments args rest c.rest) :
    LeadsArguments args rest d.rest := by
  obtain ⟨lead, hlead, hall⟩ := hc
  obtain ⟨read, htests, hread⟩ := hm.of_run
  have hparen : '(' ∉ read := by
    intro hmem
    rw [htests _ hmem] at htest
    cases htest
  obtain ⟨v, rfl, hd⟩ := Pattern.append_of_append_cons hparen (hread.1.symm.trans hlead)
  exact ⟨v, hd, fun a ha => hall a (List.mem_append_right read ha)⟩

/-- A character that is read from there is one of the annotation, or opens the parentheses. -/
theorem leadsArguments_of_reads {a : Char} (hread : c.Reads [a] d)
    (hc : LeadsArguments args rest c.rest) :
    (a = '(' ∧ d.rest = args ++ ')' :: ' ' :: rest) ∨
      (a ≠ '(' ∧ LeadsArguments args rest d.rest) := by
  obtain ⟨lead, hlead, hall⟩ := hc
  have heq : a :: d.rest = lead ++ '(' :: (args ++ ')' :: ' ' :: rest) := hread.1.symm.trans hlead
  cases lead with
  | nil =>
    obtain ⟨rfl, hd⟩ := List.cons.inj heq
    exact .inl ⟨rfl, hd⟩
  | cons b lead =>
    obtain ⟨rfl, hd⟩ := List.cons.inj heq
    obtain ⟨ha, hall⟩ := List.forall_mem_cons.mp hall
    refine .inr ⟨?_, lead, hd, hall⟩
    rintro rfl
    exact absurd ha (by decide)

theorem leadsArguments_of_char {test : Char → Bool} (htest : test '(' = false)
    (hm : Matches (.char test) c d ms) (hc : LeadsArguments args rest c.rest) :
    LeadsArguments args rest d.rest := by
  obtain ⟨a, ha, hread⟩ := hm.of_char
  rcases leadsArguments_of_reads hread hc with ⟨rfl, -⟩ | ⟨-, hd⟩
  · rw [htest] at ha
    cases ha
  · exact hd

/-- The arguments are read up to the closing parenthesis, if at all. -/
theorem IsAnnotation.of_arguments (h : IsAnnotation name args)
    (hm : Matches (.optional (.blanks ++ .lit "(" ++ .run0 (· != ')') ++ .lit ")")) c d ms)
    (hc : LeadsArguments args rest c.rest) :
    LeadsArguments args rest d.rest ∨ d.rest = ' ' :: rest := by
  rcases hm.of_optional with hm | rfl
  · obtain ⟨e₁, _, _, hm, hclose, -⟩ := hm.of_seq
    obtain ⟨e₂, _, _, hm, hargs, -⟩ := hm.of_seq
    obtain ⟨e₃, _, _, hgap, hopen, -⟩ := hm.of_seq
    have h₃ : LeadsArguments args rest e₃.rest := leadsArguments_of_run rfl hgap hc
    have hread : e₃.Reads ['('] e₂ := hopen.of_word
    obtain ⟨-, h₂⟩ := (leadsArguments_of_reads hread h₃).resolve_right fun hne => hne.1 rfl
    obtain ⟨read, hall, hread⟩ := hargs.of_run
    have hnot : ')' ∉ read := fun hmem => bne_iff_ne.mp (hall _ hmem) rfl
    obtain ⟨v, hv, h₁⟩ := Pattern.append_of_append_cons hnot (hread.1.symm.trans h₂)
    have hread : e₁.Reads [')'] d := hclose.of_word
    have heq : ')' :: d.rest = v ++ ')' :: ' ' :: rest := hread.1.symm.trans h₁
    cases v with
    | nil => exact .inr (List.cons.inj heq).2
    | cons b v =>
      obtain ⟨rfl, -⟩ := List.cons.inj heq
      exact absurd (hv ▸ by simp) (h.not_mem_args (show ')' ∈ _ by decide))
  · exact .inl hc

/-- Annotations are read up to somewhere in front of the arguments or up to the closing
parenthesis, and the space behind it is read or not. -/
theorem IsAnnotation.of_matches (h : IsAnnotation name args)
    (hblank : ∀ c, rest.head? = some c → Text.isBlank c = false) (hat : rest.head? ≠ some '@')
    (hm : Matches annotations c d ms) (hc : c.rest = annotationText name args ++ rest) :
    d = c ∨ LeadsArguments args rest d.rest ∨ d.rest = ' ' :: rest ∨ d.rest = rest := by
  rcases hm.of_star with rfl | ⟨e, _, _, hround, hmore⟩
  · exact .inl rfl
  obtain ⟨e₁, _, _, hm, hblanks, -⟩ := hround.of_seq
  obtain ⟨e₂, _, _, hm, harguments, -⟩ := hm.of_seq
  obtain ⟨e₃, _, _, hsign, hname, -⟩ := hm.of_seq
  obtain ⟨e₄, _, _, hfirst, hrun, -⟩ := hname.of_seq
  have h₃ : LeadsArguments args rest e₃.rest := by
    obtain ⟨a, -, hread⟩ := hsign.of_char
    rw [annotationText_append] at hc
    exact ⟨name, (List.cons.inj (hread.1.symm.trans hc)).2, h.nameChars⟩
  have h₄ : LeadsArguments args rest e₄.rest := leadsArguments_of_char rfl hfirst h₃
  have h₂ : LeadsArguments args rest e₂.rest := leadsArguments_of_run rfl hrun h₄
  rcases h.of_arguments harguments h₂ with h₁ | h₁
  · have hend : LeadsArguments args rest e.rest := leadsArguments_of_run rfl hblanks h₁
    rw [of_annotations hend.head?_ne hmore]
    exact .inr (.inl hend)
  · have hspace : e.rest = ' ' :: rest ∨ e.rest = rest := by
      obtain ⟨read, hall, hread⟩ := hblanks.of_run
      have heq : ' ' :: rest = read ++ e.rest := h₁.symm.trans hread.1
      cases read with
      | nil => exact .inl heq.symm
      | cons a read =>
        obtain ⟨rfl, hrest⟩ := List.cons.inj heq
        cases read with
        | nil => exact .inr hrest.symm
        | cons b read =>
          have hb := hblank b (hrest ▸ rfl)
          rw [hall b (by simp)] at hb
          cases hb
    have hend : e.rest.head? ≠ some '@' := by
      rcases hspace with hspace | hspace
      · rw [hspace]
        nofun
      · rw [hspace]
        exact hat
    rw [of_annotations hend hmore]
    exact .inr (.inr hspace)

theorem not_fieldBody {lead more : List Char} (hc : c.rest = lead ++ '(' :: more)
    (hlead : ∀ a ∈ lead, a = '@' ∨ isAnnotationChar a = true) : ¬ Matches fieldBody c d ms := by
  intro hm
  obtain ⟨stop, hstop, hmem⟩ := stop_of_fieldBody hm (by decide) hc
  have hnone : ∀ stop ∈ fieldStops, stop ≠ '@' ∧ isAnnotationChar stop = false ∧ stop ≠ '(' := by
    decide
  obtain ⟨hat, hletter, hparen⟩ := hnone stop hstop
  rcases List.mem_append.mp hmem with hmem | hmem
  · rcases hlead stop hmem with rfl | ha
    · exact hat rfl
    · rw [hletter] at ha
      cases ha
  · exact hparen (List.mem_singleton.mp hmem)

theorem not_typeBody {lead more : List Char} (hc : c.rest = lead ++ '(' :: more)
    (hlead : ∀ a ∈ lead, a = '@' ∨ isAnnotationChar a = true) : ¬ Matches typeBody c d ms := by
  intro hm
  obtain ⟨word, -, blank, hblank, x, y, rfl⟩ := kind_of_typeBody hm (by decide) hc
  rcases hlead blank (by simp) with rfl | ha
  · exact absurd hblank (by decide)
  · rcases Bool.or_eq_true_iff.mp ha with ha | ha
    · rw [Text.isWordChar_eq_false_of_isBlank hblank] at ha
      cases ha
    · rw [beq_iff_eq.mp ha] at hblank
      exact absurd hblank (by decide)

/-- An annotated declaration that the name of an annotation cannot lead into. -/
structure Apart (p body : Pattern) : Prop extends Annotated p body where
  simple : p.simple = true
  body_simple : body.simple = true
  consumes : p.consumes = true
  body_consumes : body.consumes = true
  avoids : p.avoids ' ' = true
  body_avoids : body.avoids ' ' = true
  spares : body.spares ')' = true
  not_matches : ∀ {c d : Cursor} {ms : List Mark} {lead more : List Char},
    c.rest = lead ++ '(' :: more → (∀ a ∈ lead, a = '@' ∨ isAnnotationChar a = true) →
      ¬ Matches body c d ms

theorem apart_field : Apart fieldPattern fieldBody where
  toAnnotated := annotated_field
  simple := by decide
  body_simple := by decide
  consumes := by decide
  body_consumes := by decide
  avoids := by decide
  body_avoids := by decide
  spares := by decide
  not_matches := not_fieldBody

theorem apart_type : Apart typePattern typeBody where
  toAnnotated := annotated_type
  simple := by decide
  body_simple := by decide
  consumes := by decide
  body_consumes := by decide
  avoids := by decide
  body_avoids := by decide
  spares := by decide
  not_matches := not_typeBody

/-- Behind the annotations a declaration is not matched where it is not matched without any. -/
theorem Annotated.not_matches_body {p body : Pattern} (hp : Annotated p body)
    (hbody : body.simple = true) (hat : rest.head? ≠ some '@') {x : Option Char} {offset : Nat}
    (hnone : p.matchAt ⟨x, offset, rest⟩ = none) (hc : c.rest = rest) : ¬ Matches body c d ms := by
  intro hm
  have hsome := Pattern.isSome_matchAt ⟨x, offset, rest⟩ ⟨d.rest, hc ▸ hm.leaves hbody⟩
  have hends : p.ends [.start (Cursor.asOrigin ⟨x, offset, rest⟩)] =
      body.ends [.start (Cursor.asOrigin ⟨x, offset, rest⟩)] := hp.ends_of_ne hat
  rw [Pattern.matchAt, ← hends, ← Pattern.matchAt, hnone] at hsome
  cases hsome

/-- Where such a declaration is not matched alone, it is not matched from the sign on. -/
theorem Apart.matchAt_none {p body : Pattern} (hp : Apart p body) (h : IsAnnotation name args)
    (hblank : ∀ c, rest.head? = some c → Text.isBlank c = false) (hat : rest.head? ≠ some '@')
    {x y : Option Char} {offset offset' : Nat} (hnone : p.matchAt ⟨x, offset, rest⟩ = none) :
    p.matchAt ⟨y, offset', annotationText name args ++ rest⟩ = none := by
  cases hm : p.matchAt ⟨y, offset', annotationText name args ++ rest⟩ with
  | none => rfl
  | some found =>
    obtain ⟨d, ms, hmatch, -⟩ := Pattern.exists_of_matchAt hm
    obtain ⟨e, ns, os, hannotations, hbody⟩ := hp.of_matches hmatch
    exfalso
    rcases h.of_matches hblank hat hannotations rfl with rfl | ⟨lead, he, hall⟩ | he | he
    · have he : annotationText name args ++ rest =
          ('@' :: name) ++ '(' :: (args ++ ')' :: ' ' :: rest) := annotationText_append name args rest
      exact hp.not_matches he (fun a ha => (List.mem_cons.mp ha).imp_right (h.nameChars a)) hbody
    · exact hp.not_matches he (fun a ha => .inr (hall a ha)) hbody
    · obtain ⟨a, ha, hne⟩ := hbody.exists_head hp.body_consumes
      rw [he] at ha
      exact hne ' ' hp.body_avoids (Option.some.inj ha).symm
    · exact hp.not_matches_body hp.body_simple hat hnone he hbody

/-! ## What is matched in the arguments stays there -/

/-- Without an opening parenthesis annotations are not read over a wall. -/
theorem annotations_in_front {u more : List Char} {wall : Char} (hm : Matches annotations c d ms)
    (hwall : wall ∈ walls) (hu : '(' ∉ u ++ [wall]) (hc : c.rest = u ++ wall :: more) :
    ∃ read v, c.Reads read d ∧ u = read ++ v ∧ d.rest = v ++ wall :: more := by
  have hsigned : ∀ wall ∈ walls, (Pattern.seq (.char (· == '@')) (.run1 isAnnotationChar)).spares
      wall = true := by decide
  have hblank : ∀ wall ∈ walls, Pattern.blanks.spares wall = true := by decide
  generalize hp : annotations = p at hm
  induction hm generalizing u with
  | starNil => exact ⟨[], u, .refl _, rfl, hc⟩
  | @starCons _ _ c e d _ _ hround _ _ ih =>
    obtain ⟨-, rfl⟩ := Pattern.star.inj hp
    obtain ⟨e₁, _, _, hm, hblanks, -⟩ := hround.of_seq
    obtain ⟨e₂, _, _, hname, harguments, -⟩ := hm.of_seq
    obtain ⟨read, v, hread, rfl, h₂⟩ := hname.in_front (hsigned wall hwall) hc
    obtain rfl : e₁ = e₂ := by
      refine harguments.of_optional.resolve_left fun hm => ?_
      obtain ⟨_, _, _, hm, -, -⟩ := hm.of_seq
      obtain ⟨_, _, _, hm, -, -⟩ := hm.of_seq
      obtain ⟨_, _, _, hgap, hopen, -⟩ := hm.of_seq
      obtain ⟨gap, w, -, rfl, h₃⟩ := hgap.in_front (hblank wall hwall) h₂
      have hmem : '(' ∈ w ++ [wall] := Pattern.mem_of_reads_cons h₃ hopen.of_word
      refine hu (List.mem_append.mpr ?_)
      exact (List.mem_append.mp hmem).imp_left fun hw => by simp [hw]
    obtain ⟨read', w, hread', rfl, h₁⟩ := hblanks.in_front (hblank wall hwall) h₂
    have hrest : '(' ∉ w ++ [wall] := fun hmem => hu <| by
      simp only [List.append_assoc]
      exact List.mem_append_right _ (List.mem_append_right _ hmem)
    obtain ⟨read'', w', hread'', rfl, hd⟩ := ih hrest h₁ hp
    exact ⟨read ++ (read' ++ read''), w', hread.trans (hread'.trans hread''),
      by simp only [List.append_assoc], hd⟩
  | _ => exact nomatch hp

/-- A declaration that begins in front of a wall ends there, if its body does. -/
theorem Annotated.stop_le {p body : Pattern} (hp : Annotated p body) {wall : Char}
    (hspares : body.spares wall = true) (hwall : wall ∈ walls) {u more : List Char}
    (hu : '(' ∉ u ++ [wall]) {previous : Option Char} {offset : Nat} {found : Match}
    (hm : p.matchAt ⟨previous, offset, u ++ wall :: more⟩ = some found) :
    found.stop ≤ offset + Text.width u := by
  obtain ⟨d, ms, hmatch, rfl⟩ := Pattern.exists_of_matchAt hm
  obtain ⟨e, _, _, hannotations, hbody⟩ := hp.of_matches hmatch
  obtain ⟨read, v, hread, rfl, he⟩ := annotations_in_front hannotations hwall hu rfl
  obtain ⟨read', w, hread', rfl, -⟩ := hbody.in_front hspares he
  have hall := hread.trans hread'
  rw [Match.stop_ofMarks hall, hall.2]
  simp only [Cursor.asOrigin, Text.width_append]
  omega

/-- The declarations that begin in front of a wall are found there. -/
theorem Annotated.exists_findAllFrom_within {p body : Pattern} (hp : Annotated p body) {wall : Char}
    (hspares : body.spares wall = true) (hwall : wall ∈ walls) {u : List Char}
    (hu : '(' ∉ u ++ [wall]) (rest : List Char) (previous : Option Char) {resume offset : Nat}
    (hle : resume ≤ offset + Text.width (u ++ [wall])) :
    ∃ founds resume', resume' ≤ offset + Text.width (u ++ [wall]) ∧
      p.findAllFrom resume previous offset (u ++ [wall] ++ rest) =
        founds ++ p.findAllFrom resume' ((u ++ [wall]).getLast?.or previous)
          (offset + Text.width (u ++ [wall])) rest ∧
      ∀ found ∈ founds,
        offset ≤ found.start ∧ found.start < offset + Text.width (u ++ [wall]) := by
  refine Pattern.exists_findAllFrom_within hle fun a b hab hb previous offset found hm => ?_
  obtain ⟨v, last, rfl⟩ := (List.eq_nil_or_concat b).resolve_left hb
  rw [List.concat_eq_append, ← List.append_assoc] at hab
  obtain ⟨rfl, hlast⟩ := List.append_inj' hab rfl
  obtain rfl : wall = last := List.cons.inj hlast |>.1
  have hparen : '(' ∉ v ++ [wall] := fun hmem => hu <| by
    rw [List.append_assoc]
    exact List.mem_append_right a hmem
  rw [List.concat_eq_append, List.append_assoc] at hm
  have hstop := hp.stop_le hspares hwall hparen hm
  rw [List.concat_eq_append, Text.width_append]
  omega

/-! ## The matches of a text -/

/-- An annotated declaration that is matched alone is the first match from the sign on, and the
other matches are further down. -/
theorem Annotated.findAllFrom_of_some {p body : Pattern} (hp : Annotated p body)
    (hsimple : body.simple = true) (hconsumes : p.consumes = true) (h : IsAnnotation name args)
    (hblank : ∀ c, rest.head? = some c → Text.isBlank c = false) (hat : rest.head? ≠ some '@')
    {previous : Option Char} {found : Match} (hm : p.matchAt ⟨previous, 0, rest⟩ = some found)
    {resume n : Nat} (hle : resume ≤ n) :
    ∃ (found' : Match) (later : List Match),
      p.findAllFrom resume previous n rest = found.down n :: later.map (Match.down n) ∧
      p.findAllFrom resume previous n (annotationText name args ++ rest) =
        found' :: later.map (Match.down (n + Text.width (annotationText name args))) ∧
      found'.start = n ∧ found'.stop = found.stop + (n + Text.width (annotationText name args)) ∧
      found'.parts = (found.down (n + Text.width (annotationText name args))).parts ∧
      ∀ other ∈ later, 0 < other.start := by
  obtain ⟨d, ms, hmatch, hfound⟩ := Pattern.exists_of_matchAt hm
  obtain ⟨read, hread⟩ := hmatch.reads
  have hne : read ≠ [] := hmatch.ne_nil hconsumes hread
  have hstop : found.stop = Text.width read := by
    rw [hfound, Match.stop_ofMarks hread, hread.2]
    simp [Cursor.asOrigin]
  have hdown : ∀ n, p.matchAt ⟨previous, n, rest⟩ = some (found.down n) := by
    intro n
    have hadd := p.matchAt_add previous 0 n rest
    rwa [hm, Nat.zero_add] at hadd
  obtain ⟨found', hm', hstart', hstop', hparts'⟩ :=
    hp.matchAt_behind hsimple h hblank hat (hdown (n + Text.width (annotationText name args)))
      previous
  rw [Match.stop_down] at hstop'
  have hrest : rest = read ++ d.rest := hread.1
  -- Behind the match both searches go on from the same place of the same text.
  have hlater : ∀ k, p.findAllFrom (found.stop + k) (read.getLast?.or previous)
      (Text.width read + k) d.rest =
        (p.findAllFrom found.stop (read.getLast?.or previous) (Text.width read) d.rest).map
          (Match.down k) := fun k =>
    p.findAllFrom_add k d.rest _ fun x _ => Nat.add_le_add_iff_right
  refine ⟨found', p.findAllFrom found.stop (read.getLast?.or previous) (Text.width read) d.rest,
    ?_, ?_, hstart', hstop', hparts', fun other hother => ?_⟩
  · have hsame : p.matchAt ⟨previous, n, read ++ d.rest⟩ = some (found.down n) :=
      (congrArg (fun text => p.matchAt ⟨previous, n, text⟩) hrest).symm.trans (hdown n)
    rw [← hlater, hrest, Pattern.findAllFrom_of_matchAt hle hne hsame (by
      rw [Match.stop_down, hstop, Nat.add_comm]), Match.stop_down, Nat.add_comm n]
  · have hpassed : annotationText name args ++ read ≠ [] := List.append_ne_nil_of_right_ne_nil _ hne
    have hsame : p.matchAt ⟨previous, n, (annotationText name args ++ read) ++ d.rest⟩ = some found' := by
      rw [List.append_assoc, ← hrest, hm']
    have hwidth : n + Text.width (annotationText name args ++ read) =
        Text.width read + (n + Text.width (annotationText name args)) := by
      rw [Text.width_append, Nat.add_comm (Text.width read), Nat.add_assoc]
    rw [← hlater, hrest, ← List.append_assoc, Pattern.findAllFrom_of_matchAt hle hpassed hsame (by
      rw [hstop', hstop, hwidth]), hstop', hwidth, List.getLast?_append_of_ne_nil _ hne]
  · refine Nat.lt_of_lt_of_le ?_ (Pattern.le_start_of_mem_findAllFrom hother)
    exact Nat.lt_of_lt_of_le (List.length_pos_of_ne_nil hne) (Text.length_le_width read)

namespace Apart

variable {p body : Pattern} {previous : Option Char}

/-- Where the declaration is not matched alone, it is not matched in front of the arguments. -/
theorem misses_lead (hp : Apart p body) (h : IsAnnotation name args)
    (hblank : ∀ c, rest.head? = some c → Text.isBlank c = false) (hat : rest.head? ≠ some '@')
    (hnone : p.matchAt ⟨previous, 0, rest⟩ = none) :
    p.Misses ('@' :: (name ++ ['('])) ((args ++ [')']) ++ ([' '] ++ rest)) := by
  have hsign : p.Misses ['@'] ((name ++ ['(']) ++ ((args ++ [')']) ++ ([' '] ++ rest))) := by
    intro a b hab hne previous' offset
    obtain ⟨rfl, rfl⟩ := (List.append_eq_singleton_iff.mp hab.symm).resolve_right fun h => hne h.2
    have hfull : p.matchAt ⟨previous', offset, annotationText name args ++ rest⟩ = none :=
      hp.matchAt_none h hblank hat hnone
    simpa [annotationText] using hfull
  refine hsign.append (Pattern.misses_in_front fun a v hv previous' d ms hm => ?_)
  have hletters : ∀ x ∈ v, isAnnotationChar x = true := fun x hx =>
    h.nameChars x (hv ▸ List.mem_append_right a hx)
  have hstart : LeadsArguments args rest (v ++ '(' :: ((args ++ [')']) ++ ([' '] ++ rest))) :=
    ⟨v, by simp, hletters⟩
  obtain ⟨os, hbody⟩ := hp.body_of_ne hstart.head?_ne hm
  exact hp.not_matches rfl (fun x hx => .inr (hletters x hx)) hbody

/-- It is not matched behind an annotation either.  Only the annotation may have matches, which
start behind the sign, and the other matches are further down. -/
theorem findAllFrom_of_none (hp : Apart p body) (h : IsAnnotation name args)
    (hblank : ∀ c, rest.head? = some c → Text.isBlank c = false) (hat : rest.head? ≠ some '@')
    (hne : rest ≠ []) (hnone : p.matchAt ⟨previous, 0, rest⟩ = none) {resume n : Nat}
    (hle : resume ≤ n) :
    ∃ inert later : List Match,
      p.findAllFrom resume previous n rest = later.map (Match.down n) ∧
      p.findAllFrom resume previous n (annotationText name args ++ rest) =
        inert ++ later.map (Match.down (n + Text.width (annotationText name args))) ∧
      (∀ other ∈ inert,
        n < other.start ∧ other.start < n + Text.width (annotationText name args)) ∧
      ∀ other ∈ later, 0 < other.start := by
  obtain ⟨c, more, rfl⟩ := List.exists_cons_of_ne_nil hne
  have hlead := hp.misses_lead h hblank hat hnone
  have hgap : p.Misses [' '] (c :: more) :=
    Pattern.misses_of_avoids hp.consumes fun a ha => List.mem_singleton.mp ha ▸ hp.avoids
  have hhere : ∀ previous' n, p.matchAt ⟨previous', n, c :: more⟩ = none := fun previous' n =>
    Pattern.matchAt_none_of_rest hp.simple hnone rfl
  let lead := '@' :: (name ++ ['('])
  have htext : annotationText name args ++ c :: more =
      lead ++ ((args ++ [')']) ++ ([' '] ++ c :: more)) := by
    simp [annotationText, lead]
  have hwidth : n + Text.width (annotationText name args) =
      n + Text.width lead + Text.width (args ++ [')']) + Text.width [' '] := by
    have hall : annotationText name args = lead ++ (args ++ [')']) ++ [' '] := by
      simp [annotationText, lead]
    rw [hall, Text.width_append, Text.width_append]
    omega
  have hpos : 0 < Text.width lead :=
    Nat.lt_of_lt_of_le (Nat.succ_pos _) (Text.length_le_width lead)
  have hparen : '(' ∉ args ++ [')'] := by
    rw [List.mem_append, not_or]
    exact ⟨h.not_mem_args (by decide), by decide⟩
  have hle' : resume ≤ n + Text.width lead + Text.width (args ++ [')']) := by omega
  obtain ⟨inert, resume', hresume, hinert, hrange⟩ := hp.exists_findAllFrom_within hp.spares
    (by decide) hparen ([' '] ++ c :: more) _ hle'
  refine ⟨inert, p.findAllFrom 0 (some c) c.utf8Size more,
    Pattern.findAllFrom_of_none (hhere _ _) hle, ?_, fun other hother => ?_, fun other hother => ?_⟩
  · rw [htext, hlead.findAllFrom, hinert, hgap.findAllFrom, ← hwidth]
    exact congrArg (inert ++ ·) (Pattern.findAllFrom_of_none (hhere _ _) (by omega))
  · obtain ⟨hfrom, hto⟩ := hrange other hother
    omega
  · exact Nat.lt_of_lt_of_le (Char.utf8Size_pos c) (Pattern.le_start_of_mem_findAllFrom hother)

end Apart

end Java
end Outline
