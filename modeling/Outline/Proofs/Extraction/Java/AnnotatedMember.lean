import Outline.Proofs.Extraction.Invariance
import Outline.Proofs.Extraction.Java.AnnotatedMethod
import Outline.Proofs.Extraction.Java.ClassFront

/-!
# An annotation in front of a member

The first member of a class is declared the same with an annotation in front of it and without
one.  The class is the same; what is matched from the member on is matched with the annotation or
further down; and what is matched in the annotation alone is no declaration.

Annotations are read up to the first parenthesis that closes, so this holds of arguments that have
none.  Behind others a parenthesis is left in front of the member, which does not start there.
-/

namespace Outline
namespace Java

open Insertion (between)
open Pattern (Matches)

variable {name args rest : List Char}

/-- A text that starts with a member of a class.  It begins neither with an annotation nor as a
package does; and where it begins with a word that may follow the parameters of a method, it is a
method itself. -/
structure StartsMember (live : List Char) : Prop where
  first : ∃ c d more, live = c :: d :: more ∧ Text.isBlank c = false ∧
    c ∉ ['@', '\x7b', '\x7d', ';']
  noPackage : ∀ c more, live = "package".toList ++ c :: more → Text.isBlank c = false
  noClause : (methodPattern.matchAt ⟨none, 0, live⟩).isSome ∨
    ∀ word ∈ ["throws", "default"], Text.startsWith live word.toList = false

namespace StartsMember

theorem packagePattern_none {live : List Char} (hm : StartsMember live) (previous : Option Char)
    (offset : Nat) : packagePattern.matchAt ⟨previous, offset, live⟩ = none := by
  cases hfound : packagePattern.matchAt ⟨previous, offset, live⟩ with
  | none => rfl
  | some found =>
    exfalso
    obtain ⟨d, ms, hmatch, -⟩ := Pattern.exists_of_matchAt hfound
    obtain ⟨_, _, _, hmatch, -, -⟩ := hmatch.of_seq
    obtain ⟨_, _, _, hmatch, -, -⟩ := hmatch.of_seq
    obtain ⟨_, _, _, hmatch, -, -⟩ := hmatch.of_seq
    obtain ⟨e, _, _, hmatch, hblanks, -⟩ := hmatch.of_seq
    obtain ⟨_, _, _, hboundary, hword, -⟩ := hmatch.of_seq
    obtain ⟨rfl, -⟩ := hboundary.of_boundary
    obtain ⟨_, _, _, hblank, -, -⟩ := hblanks.of_seq
    obtain ⟨a, ha, hread⟩ := hblank.of_char
    have hlive : live = "package".toList ++ a :: _ := (hword.of_word.trans hread).1.trans (by
      rw [List.append_assoc]
      rfl)
    rw [hm.noPackage a _ hlive] at ha
    cases ha

variable {live : List Char} (hm : StartsMember live)
include hm

theorem head_not_blank : ∀ c, live.head? = some c → Text.isBlank c = false := by
  obtain ⟨c, d, more, rfl, hblank, -⟩ := hm.first
  intro x hx
  exact Option.some.inj hx ▸ hblank

theorem head_ne_sign : live.head? ≠ some '@' := by
  obtain ⟨c, d, more, rfl, -, hmarks⟩ := hm.first
  intro hx
  exact hmarks (Option.some.inj hx ▸ List.mem_cons_self)

theorem ne_nil : live ≠ [] := by
  obtain ⟨c, d, more, rfl, -⟩ := hm.first
  exact List.cons_ne_nil _ _

theorem two_le_width : 2 ≤ Text.width live := by
  obtain ⟨c, d, more, rfl, -⟩ := hm.first
  have hle := Text.length_le_width (c :: d :: more)
  rw [List.length_cons, List.length_cons] at hle
  omega

omit hm

theorem takes {front : List Char} (hfront : Text.IsCode front) (h : IsAnnotation name args)
    (hm : StartsMember (Mask.masked .java rest)) : Takes front (annotationText name args) rest := by
  obtain ⟨c, d, more, hlive, hblank, hmarks⟩ := hm.first
  simp only [List.mem_cons, List.not_mem_nil, or_false, not_or] at hmarks
  exact ⟨hfront, h.isCode, h.not_mem_text (by decide), h.not_mem_text (by decide),
    h.not_mem_text (by decide), c, d :: more, hlive, hblank, hmarks.2.1, hmarks.2.2.1⟩

end StartsMember

/-! ## Inside of an annotation -/

/-- Inside of an annotation no declaration may start. -/
theorem IsAnnotation.startsAt (h : IsAnnotation name args) {p : Pattern} {front live : List Char}
    {found : Match} (hf : p.FoundIn (front ++ (annotationText name args ++ live)) found)
    (hfrom : Text.width front < found.start)
    (hto : found.start < Text.width front + Text.width (annotationText name args)) :
    Statement.startsAt (front ++ (annotationText name args ++ live)) found.start false =
      .ok false := by
  obtain ⟨before, tail, d, ms, htext, -, rfl⟩ := hf
  have hstart : (Match.ofMarks (Text.width before) ⟨before.getLast?, 0, tail⟩ d ms).start =
      Text.width before := rfl
  rw [hstart] at hfrom hto ⊢
  rw [htext, Statement.startsAt_append]
  obtain ⟨v, rfl, hv⟩ : ∃ v, before = front ++ v ∧
      annotationText name args ++ live = v ++ tail := by
    rcases List.append_eq_append_iff.mp htext with ⟨v, rfl, hv⟩ | ⟨v, rfl, -⟩
    · exact ⟨v, rfl, hv⟩
    · rw [Text.width_append] at hfrom
      omega
  rw [Text.width_append] at hfrom hto
  obtain ⟨w, hw⟩ : ∃ w, annotationText name args = v ++ w := by
    rcases List.append_eq_append_iff.mp hv with ⟨w, rfl, -⟩ | ⟨w, hw, -⟩
    · rw [Text.width_append] at hto
      omega
    · exact ⟨w, hw⟩
  have hsign : '@' ∈ v := by
    cases v with
    | nil =>
      rw [Text.width_nil] at hfrom
      omega
    | cons c v =>
      obtain rfl : '@' = c := (List.cons.inj hw).1
      exact List.mem_cons_self
  refine congrArg Except.ok
    (Statement.startsAfter_eq_false hsign rfl (fun mark hmark hmem => ?_) front)
  have hmarks : ∀ mark ∈ ['\x7b', '\x7d', ';'], mark ∈ ['\x7b', '\x7d', ';', '\n'] := by decide
  exact h.not_mem_text (hmarks mark hmark) (hw ▸ List.mem_append_left w hmem)

/-! ## What only looks like a method -/

/-- Behind the arguments of an annotation nothing follows that could end a method. -/
theorem trailer?_annotation {front live : List Char} {c : Char} {more : List Char}
    (hlive : live = c :: more) (hblank : Text.isBlank c = false) (hopen : c ≠ '\x7b')
    (hend : c ≠ ';')
    (hclause : ∀ word ∈ ["throws", "default"], Text.startsWith live word.toList = false) :
    trailer? (front ++ ' ' :: live) (Text.width front) = .ok none := by
  subst hlive
  have hascii : Text.isAsciiBlank c = false := by
    refine Bool.eq_false_iff.mpr fun hc => ?_
    rw [Text.isBlank_of_isAsciiBlank hc] at hblank
    cases hblank
  have hskip : Text.skipBlanks (front ++ ' ' :: c :: more) (Text.width front) =
      Text.width (front ++ [' ']) := by
    have hup := Text.skipBlanks_up_to hascii front [' '] more
    rwa [List.takeWhile_cons_of_pos rfl, List.takeWhile_nil, ← Text.width_append] at hup
  have htext : front ++ ' ' :: c :: more = (front ++ [' ']) ++ c :: more := by simp
  have htail : SourceText.tailFrom (front ++ ' ' :: c :: more) (Text.width (front ++ [' '])) =
      .ok (c :: more) := by
    rw [htext, SourceText.tailFrom, Text.dropWidth?_width_append]
  have hchar : Text.charAt? (front ++ ' ' :: c :: more) (Text.width (front ++ [' '])) = some c := by
    rw [htext, Text.charAt?_width_append]
    rfl
  rw [trailer?, hskip, htail]
  show Except.ok (Option.bind (if Text.startsWith (c :: more) "throws".toList ||
    Text.startsWith (c :: more) "default".toList then _ else some _) (trailerAt? _)) = _
  rw [hclause "throws" (by simp), hclause "default" (by simp), Bool.or_false,
    if_neg Bool.false_ne_true, Option.bind_some, trailerAt?, hchar]
  split
  · next h => exact absurd (Option.some.inj h) hopen
  · next h => exact absurd (Option.some.inj h) hend
  · rfl

/-- Where no method is matched at the member, one that begins with the sign of the annotation ends
with the parenthesis of the arguments. -/
theorem IsAnnotation.stop_at_sign (h : IsAnnotation name args) {front live : List Char}
    (hm : StartsMember live) {previous : Option Char}
    (hnone : methodPattern.matchAt ⟨previous, 0, live⟩ = none) {found : Match}
    (hf : methodPattern.FoundIn (front ++ (annotationText name args ++ live)) found)
    (hstart : found.start = Text.width front) :
    found.stop = Text.width (front ++ '@' :: name) + 1 := by
  obtain ⟨before, tail, d, ms, htext, hmatch, rfl⟩ := hf
  obtain ⟨rfl, rfl⟩ := Text.append_inj_of_width htext hstart.symm
  have hsplit : annotationText name args ++ live =
      '@' :: name ++ '(' :: (args ++ ')' :: ' ' :: live) := annotationText_append name args live
  have hd := h.rest_of_method hm.head_not_blank hm.head_ne_sign hnone (List.nil_append _).symm
    hmatch hsplit
  obtain ⟨read, hread⟩ := hmatch.reads
  have hall : ('@' :: name ++ ['(']) ++ d.rest = read ++ d.rest := by
    refine Eq.trans ?_ (hsplit.symm.trans hread.1)
    rw [hd]
    simp
  rw [Match.stop_ofMarks hread, hread.2, ← List.append_cancel_right hall, Text.width_append,
    Text.width_append]
  show Text.width front + (0 + (Text.width ('@' :: name) + 1)) = _
  omega

/-- The parentheses of an annotation are paired. -/
theorem IsAnnotation.find_arguments (h : IsAnnotation name args) (front live : List Char) :
    Delimiter.find (front ++ (annotationText name args ++ live)) (Text.width (front ++ '@' :: name)) =
      ⟨Text.width (front ++ '@' :: name) + 1 + Text.width args, true⟩ := by
  have htext : front ++ (annotationText name args ++ live) =
      (front ++ '@' :: name) ++ '(' :: (args ++ ')' :: ' ' :: live) := by
    rw [annotationText_append]
    simp
  rw [htext]
  refine Delimiter.find_of_balanced rfl
    (Delimiter.balanced_of_not_mem (h.not_mem_args (by decide)) (h.not_mem_args (by decide))) ?_
  exact Text.isBare_append_cons (a := '(' :: args) h.bare rfl (by decide) (by decide)

/-- A member that no method is matched at ends no method either. -/
theorem StartsMember.trailer?_eq {live : List Char} (hm : StartsMember live)
    {previous : Option Char} (hnone : methodPattern.matchAt ⟨previous, 0, live⟩ = none)
    (front : List Char) : trailer? (front ++ ' ' :: live) (Text.width front) = .ok none := by
  obtain ⟨c, d, more, hlive, hblank, hmarks⟩ := hm.first
  simp only [List.mem_cons, List.not_mem_nil, or_false, not_or] at hmarks
  refine trailer?_annotation hlive hblank hmarks.2.1 hmarks.2.2.2 (hm.noClause.resolve_left ?_)
  rw [Pattern.matchAt_none_of_rest (d := ⟨none, 0, live⟩) (by decide) hnone rfl]
  exact Bool.false_ne_true

/-- What begins with the sign of an annotation and ends with its parenthesis is no method. -/
theorem findMethod_at_sign (h : IsAnnotation name args) {front live : List Char}
    (hm : StartsMember live) {previous : Option Char}
    (hnone : methodPattern.matchAt ⟨previous, 0, live⟩ = none) {subject : Subject}
    (hmasked : subject.masked = front ++ (annotationText name args ++ live)) {found : Match}
    (hf : methodPattern.FoundIn subject.masked found) (hstart : found.start = Text.width front)
    (scan : Scan) : findMethod subject scan found = .ok [] := by
  have hstop := h.stop_at_sign hm hnone (hmasked ▸ hf) hstart
  have htext : front ++ (annotationText name args ++ live) =
      (front ++ '@' :: name ++ '(' :: (args ++ [')'])) ++ ' ' :: live := by
    rw [annotationText_append]
    simp
  have hwidth : Text.width (front ++ '@' :: name) + 1 + Text.width args + 1 =
      Text.width (front ++ '@' :: name ++ '(' :: (args ++ [')'])) := by
    rw [Text.width_append _ ('(' :: _), Text.width_cons, Text.width_append args]
    show _ = _ + (1 + (Text.width args + 1))
    omega
  have htrailer : trailer? (front ++ (annotationText name args ++ live))
      (Text.width (front ++ '@' :: name) + 1 + Text.width args + 1) = .ok none := by
    rw [htext, hwidth]
    exact hm.trailer?_eq hnone _
  rw [findMethod.eq_def]
  split
  · rw [hstart, hmasked, Statement.startsAt_append, hstop]
    show (if _ then Except.ok [] else _) = Except.ok []
    split
    · rfl
    · rw [Nat.add_sub_cancel, h.find_arguments, if_pos rfl, htrailer]
      rfl
  · rfl

/-! ## The member and what follows -/

/-- A rule tells the same of what begins with the member or behind it. -/
def TellsMember (front name args rest : List Char) (rule : Rule) : Prop :=
  (between front (annotationText name args) rest).Tells rule (language.subject (front ++ rest))
    (language.subject (front ++ (annotationText name args ++ rest)))
    (rule.pattern.findAllFrom 0 front.getLast? (Text.width front) (Mask.masked .java rest))
    (rule.pattern.findAllFrom 0 front.getLast? (Text.width front)
      (annotationText name args ++ Mask.masked .java rest))

section

variable {front : List Char} {rule : Rule} (hfront : Text.IsCode front) (h : IsAnnotation name args)
  (hm : StartsMember (Mask.masked .java rest)) (hr : rule ∈ language.rules)
  (hv : rule.view = .masked)
include hfront h hm hr hv

theorem moving_member :
    Moving (between front (annotationText name args) rest) rule (language.subject (front ++ rest))
      (language.subject (front ++ (annotationText name args ++ rest))) :=
  moving_of_masked ((hm.takes hfront h).relates language rfl) hm.ne_nil hr hv

/-- Matches behind the first character of a member tell the same further down. -/
theorem tells_later {later : List Match} (hlater : ∀ other ∈ later, 0 < other.start)
    (hfound : ∀ other ∈ later, rule.pattern.FoundIn (front ++ Mask.masked .java rest)
      (other.down (Text.width front))) :
    (between front (annotationText name args) rest).Tells rule (language.subject (front ++ rest))
      (language.subject (front ++ (annotationText name args ++ rest)))
      (later.map (Match.down (Text.width front)))
      (later.map (Match.down (Text.width front + Text.width (annotationText name args)))) := by
  have hmasked := ((hm.takes hfront h).views_eq language rfl).1
  rw [Nat.add_comm (Text.width front)]
  refine .map fun a b hab found hf => ?_
  refine moving_member hfront h hm hr hv a b hab found _ ⟨?_, Match.stop_down _ _, rfl⟩
    (hmasked ▸ hfound found hf)
  rw [Takes.site_pos _ _ _ (hlater found hf)]
  rfl

/-- A declaration that is matched at the member is matched with the annotation. -/
theorem tells_of_some {body : Pattern} (hp : Annotated rule.pattern body)
    (hsimple : body.simple = true) (hconsumes : rule.pattern.consumes = true) {found : Match}
    (hfound : rule.pattern.matchAt ⟨front.getLast?, 0, Mask.masked .java rest⟩ = some found) :
    TellsMember front name args rest rule := by
  have hmasked := ((hm.takes hfront h).views_eq language rfl).1
  obtain ⟨found', later, hs, ht, hstart, hstop, hparts, hlater⟩ :=
    hp.findAllFrom_of_some hsimple hconsumes h hm.head_not_blank hm.head_ne_sign hfound
      (Nat.zero_le (Text.width front))
  have hin : ∀ other ∈ found.down (Text.width front) :: later.map (Match.down (Text.width front)),
      rule.pattern.FoundIn (front ++ Mask.masked .java rest) other :=
    fun other ho => Pattern.foundIn_of_mem_findAllFrom front (hs ▸ ho)
  have hzero : found.start = 0 := Pattern.start_of_matchAt hfound
  have hafter : Text.width front + Text.width (annotationText name args) =
      (between front (annotationText name args) rest).after := Nat.add_comm _ _
  rw [TellsMember, hs, ht]
  refine Insertion.Tells.append (.single fun a b hab => ?_) (tells_later hfront h hm hr hv hlater
    fun other ho => hin _ (List.mem_cons_of_mem _ (List.mem_map_of_mem ho)))
  refine moving_member hfront h hm hr hv a b hab found found' ⟨?_, ?_, ?_⟩
    (hmasked ▸ hin _ List.mem_cons_self)
  · rw [hstart, hzero, Takes.site_zero]
  · rw [hstop, hafter]
  · rw [hparts, hafter]

/-- Where nothing is matched at the member, matches in the annotation must tell nothing. -/
theorem tells_of_none {inert later : List Match}
    (hinert : ∀ other ∈ inert,
      rule.pattern.FoundIn (front ++ (annotationText name args ++ Mask.masked .java rest)) other →
        ∀ scan, rule.apply (language.subject (front ++ (annotationText name args ++ rest))) scan
          other = .ok [])
    (hs : rule.pattern.findAllFrom 0 front.getLast? (Text.width front) (Mask.masked .java rest) =
      later.map (Match.down (Text.width front)))
    (ht : rule.pattern.findAllFrom 0 front.getLast? (Text.width front)
      (annotationText name args ++ Mask.masked .java rest) =
        inert ++ later.map (Match.down (Text.width front + Text.width (annotationText name args))))
    (hlater : ∀ other ∈ later, 0 < other.start) :
    TellsMember front name args rest rule := by
  have hin : ∀ other ∈ later, rule.pattern.FoundIn (front ++ Mask.masked .java rest)
      (other.down (Text.width front)) := fun other ho =>
    Pattern.foundIn_of_mem_findAllFrom front (hs ▸ List.mem_map_of_mem ho)
  have hin' : ∀ other ∈ inert, rule.pattern.FoundIn
      (front ++ (annotationText name args ++ Mask.masked .java rest)) other := fun other ho =>
    Pattern.foundIn_of_mem_findAllFrom front (ht ▸ List.mem_append_left _ ho)
  rw [TellsMember, hs, ht]
  exact Insertion.Tells.append
    (.nothing (List.forall_mem_nil _) fun other ho => hinert other ho (hin' other ho))
    (tells_later hfront h hm hr hv hlater hin)

/-- A match behind the sign of the annotation tells nothing. -/
theorem apply_within {other : Match}
    (hf : rule.pattern.FoundIn
      (front ++ (annotationText name args ++ Mask.masked .java rest)) other)
    (hfrom : Text.width front < other.start)
    (hto : other.start < Text.width front + Text.width (annotationText name args)) (scan : Scan) :
    rule.apply (language.subject (front ++ (annotationText name args ++ rest))) scan other =
      .ok [] := by
  obtain ⟨-, -, hmasked', -⟩ := (hm.takes hfront h).views_eq language rfl
  refine apply_of_not_starts hr hv ?_ scan
  rw [hmasked', List.append_assoc]
  exact h.startsAt hf hfrom hto

/-- Types and fields are told apart from an annotation. -/
theorem tells_apart {body : Pattern} (hp : Apart rule.pattern body) :
    TellsMember front name args rest rule := by
  cases hfound : rule.pattern.matchAt ⟨front.getLast?, 0, Mask.masked .java rest⟩ with
  | some found =>
    exact tells_of_some hfront h hm hr hv hp.toAnnotated hp.body_simple hp.consumes hfound
  | none =>
    obtain ⟨inert, later, hs, ht, hinert, hlater⟩ := hp.findAllFrom_of_none h hm.head_not_blank
      hm.head_ne_sign hm.ne_nil hfound (Nat.zero_le (Text.width front))
    exact tells_of_none hfront h hm hr hv (fun other ho hf =>
      apply_within hfront h hm hr hv hf (hinert other ho).1 (hinert other ho).2) hs ht hlater

end

/-- Of the matches in an annotation only one may start where a method does. -/
theorem tells_method {front : List Char} (hfront : Text.IsCode front) (h : IsAnnotation name args)
    (hm : StartsMember (Mask.masked .java rest)) :
    TellsMember front name args rest ⟨.masked, methodPattern, findMethod⟩ := by
  have hr : (⟨.masked, methodPattern, findMethod⟩ : Rule) ∈ language.rules := by simp [language]
  obtain ⟨-, -, hmasked', -⟩ := (hm.takes hfront h).views_eq language rfl
  rw [List.append_assoc] at hmasked'
  cases hfound : methodPattern.matchAt ⟨front.getLast?, 0, Mask.masked .java rest⟩ with
  | some found =>
    exact tells_of_some hfront h hm hr rfl annotated_method (by decide) (by decide) hfound
  | none =>
    obtain ⟨inert, later, hs, ht, hinert, hlater⟩ := h.exists_findAllFrom_method hm.head_not_blank
      hm.head_ne_sign hm.ne_nil hfound (Text.width front)
    refine tells_of_none hfront h hm hr rfl (fun other ho hf scan => ?_) hs ht hlater
    obtain ⟨hfrom, hto⟩ := hinert other ho
    rcases Nat.eq_or_lt_of_le hfrom with heq | hlt
    · exact findMethod_at_sign h hm hfound hmasked' (hmasked' ▸ hf) heq.symm scan
    · exact apply_within hfront h hm hr rfl hf hlt hto scan

/-- No package is declared by a member. -/
theorem tells_package {front : List Char} (hfront : Text.IsCode front) (h : IsAnnotation name args)
    (hm : StartsMember (Mask.masked .java rest)) :
    TellsMember front name args rest ⟨.masked, packagePattern, findPackage⟩ := by
  obtain ⟨c, d, more, hlive, -⟩ := hm.first
  have hnote : packagePattern.Misses (annotationText name args) (Mask.masked .java rest) := by
    have hnamed : ';' ∉ '@' :: name := by
      rw [List.mem_cons, not_or]
      exact ⟨by decide, h.not_mem_name (by decide)⟩
    have htext : annotationText name args =
        ('@' :: name ++ ['(']) ++ ((args ++ [')']) ++ [' ']) := by
      simp [annotationText]
    rw [htext]
    exact (misses_package (by decide) hnamed).append ((misses_package (by decide)
      (h.not_mem_args (by decide))).append (Pattern.misses_of_avoids (by decide) (by decide)))
  have hnone : ∀ previous n, packagePattern.matchAt ⟨previous, n, c :: d :: more⟩ = none :=
    fun previous n => hlive ▸ hm.packagePattern_none previous n
  have hlater : ∀ previous n, packagePattern.findAllFrom 0 previous n (Mask.masked .java rest) =
      (packagePattern.findAllFrom 0 (some c) c.utf8Size (d :: more)).map (Match.down n) := by
    intro previous n
    rw [hlive, Pattern.findAllFrom_of_none (hnone _ _) (Nat.zero_le _)]
  have hr : (⟨.masked, packagePattern, findPackage⟩ : Rule) ∈ language.rules := by simp [language]
  refine tells_of_none hfront h hm hr rfl (List.forall_mem_nil _) (hlater _ _)
    ((hnote.findAllFrom.trans (hlater _ _)).trans (List.nil_append _).symm) fun other ho => ?_
  exact Nat.lt_of_lt_of_le (Char.utf8Size_pos c) (Pattern.le_start_of_mem_findAllFrom ho)

/-! ## The class -/

section

variable (front : ClassFront) (h : IsAnnotation name args)
  (hm : StartsMember (Mask.masked .java rest))
include h hm

/-- What a rule tells of a class it tells of its front and from the first member on. -/
theorem tells_of_front {rule : Rule} (hv : rule.view = .masked) {heads heads' : List Match}
    (hheads : (between front.text (annotationText name args) rest).Tells rule
      (language.subject (front.text ++ rest))
      (language.subject (front.text ++ (annotationText name args ++ rest))) heads heads')
    (hs : rule.pattern.findAll (front.text ++ Mask.masked .java rest) =
      heads ++ rule.pattern.findAllFrom 0 front.text.getLast? (Text.width front.text)
        (Mask.masked .java rest))
    (hs' : rule.pattern.findAll
        (front.text ++ (annotationText name args ++ Mask.masked .java rest)) =
      heads' ++ rule.pattern.findAllFrom 0 front.text.getLast? (Text.width front.text)
        (annotationText name args ++ Mask.masked .java rest))
    (hmember : TellsMember front.text name args rest rule) :
    (between front.text (annotationText name args) rest).Tells rule
      (language.subject (front.text ++ rest))
      (language.subject (front.text ++ (annotationText name args ++ rest)))
      (rule.pattern.findAll (rule.text (language.subject (front.text ++ rest)).source))
      (rule.pattern.findAll (rule.text
        (language.subject (front.text ++ (annotationText name args ++ rest))).source)) := by
  obtain ⟨hmasked, -, hmasked', -⟩ := (hm.takes front.isCode_text h).views_eq language rfl
  rw [List.append_assoc] at hmasked'
  have htext : ∀ text,
      rule.text (language.subject text).source = (language.subject text).masked := by
    intro text
    rw [Rule.text, hv]
    rfl
  rw [htext, htext, hmasked, hmasked', hs, hs']
  exact hheads.append hmember

/-- The class is told in front of the member, and no other type. -/
theorem tells_class {found found' : Match} {others others' : List Match}
    (hclass : front.IsClass found) (hclass' : front.IsClass found')
    (hothers : ∀ other ∈ others, typePattern.FoundIn (front.text ++ Mask.masked .java rest) other ∧
      0 < other.start ∧ other.start < Text.width (front.head ++ ['\x7b']))
    (hothers' : ∀ other ∈ others', typePattern.FoundIn
        (front.text ++ (annotationText name args ++ Mask.masked .java rest)) other ∧
      0 < other.start ∧ other.start < Text.width (front.head ++ ['\x7b'])) :
    (between front.text (annotationText name args) rest).Tells ⟨.masked, typePattern, findType⟩
      (language.subject (front.text ++ rest))
      (language.subject (front.text ++ (annotationText name args ++ rest)))
      ([found] ++ others) ([found'] ++ others') := by
  have ht := hm.takes front.isCode_text h
  obtain ⟨hmasked, -, hmasked', -⟩ := ht.views_eq language rfl
  rw [List.append_assoc] at hmasked'
  have hr : (⟨.masked, typePattern, findType⟩ : Rule) ∈ language.rules := by simp [language]
  refine Insertion.Tells.append (.single fun a b hab => ?_) (.nothing ?_ ?_)
  · exact front.findType_agree ht hm.two_le_width hab hclass hclass'
  · intro other ho scan
    obtain ⟨hf, hpos, hlt⟩ := hothers other ho
    exact apply_of_not_starts hr rfl (hmasked.symm ▸ front.startsAt_of_lt hf hpos hlt) scan
  · intro other ho scan
    obtain ⟨hf, hpos, hlt⟩ := hothers' other ho
    exact apply_of_not_starts hr rfl (hmasked'.symm ▸ front.startsAt_of_lt hf hpos hlt) scan

end

/-- Imports are not told of declarations. -/
theorem tells_import {i : Insertion} (hbare : i.aspect.bare = true) (text text' : List Char) :
    i.Tells ⟨.full, importPattern, findImport⟩ (language.subject text) (language.subject text')
      (importPattern.findAll text) (importPattern.findAll text') := by
  have himports : ∀ text, ∀ found ∈ importPattern.findAll text, ∀ scan,
      Yields (findImport (language.subject text) scan found) fun fs =>
        ∀ f ∈ fs, ∃ entry, f = .imported entry := by
    intro text found hf scan
    rw [findImport_eq (Pattern.foundIn_of_mem_findAll hf)]
    refine .ok fun f hmem => ?_
    split at hmem
    · exact ⟨_, List.mem_singleton.mp hmem⟩
    · cases hmem
  refine .silent (fun a found hf => ?_) fun b found hf => ?_
  · refine (himports text found hf a).mono fun fs hfs => ?_
    refine List.filterMap_eq_nil_iff.mpr fun f hmem => ?_
    obtain ⟨g, hg, rfl⟩ := List.mem_map.mp hmem
    obtain ⟨entry, rfl⟩ := hfs g hg
    exact if_pos hbare
  · refine (himports text' found hf b).mono fun fs hfs => Eq.symm ?_
    refine List.filterMap_eq_nil_iff.mpr fun f hmem => ?_
    obtain ⟨entry, rfl⟩ := hfs f hmem
    exact if_pos hbare

/-- An annotation whose arguments have no parentheses does not change what is declared by a class
with a member behind it. -/
theorem annotated_declarations (front : ClassFront) (h : IsAnnotation name args)
    (hm : StartsMember (Mask.masked .java rest)) :
    (Registry.java.parse (front.text ++ (annotationText name args ++ rest))).declarations =
      (Registry.java.parse (front.text ++ rest)).declarations := by
  obtain ⟨hmasked, -, hmasked', -⟩ := (hm.takes front.isCode_text h).views_eq language rfl
  rw [List.append_assoc] at hmasked'
  refine (Extractor.parse_declarations (i := between front.text (annotationText name args) rest) rfl
    (Insertion.scan_agree fun rule hr => ?_)).symm
  have hnothing : ∀ {rule : Rule}, (between front.text (annotationText name args) rest).Tells rule
      (language.subject (front.text ++ rest))
      (language.subject (front.text ++ (annotationText name args ++ rest))) [] [] :=
    .nothing (List.forall_mem_nil _) (List.forall_mem_nil _)
  have hrules := hr
  simp only [language, List.mem_cons, List.not_mem_nil, or_false] at hrules
  rcases hrules with rfl | rfl | rfl | rfl | rfl
  · have hfront : ∀ live, packagePattern.findAll (front.text ++ live) =
        [] ++ packagePattern.findAllFrom 0 front.text.getLast? (Text.width front.text) live := by
      intro live
      rw [List.nil_append]
      exact front.findAll_of_misses (by decide) (by decide)
        (misses_package (by decide) (front.not_mem_head (by decide)))
    exact tells_of_front front h hm rfl hnothing (hfront _) (hfront _)
      (tells_package front.isCode_text h hm)
  · exact tells_import rfl _ _
  · obtain ⟨found, others, hclass, hs, hothers⟩ :=
      front.exists_findAll_type (Mask.masked .java rest)
    obtain ⟨found', others', hclass', hs', hothers'⟩ :=
      front.exists_findAll_type (annotationText name args ++ Mask.masked .java rest)
    exact tells_of_front front h hm rfl
      (tells_class front h hm hclass hclass' hothers hothers') hs hs'
      (tells_apart front.isCode_text h hm hr rfl apart_type)
  · have hfront : ∀ live, methodPattern.findAll (front.text ++ live) =
        [] ++ methodPattern.findAllFrom 0 front.text.getLast? (Text.width front.text) live := by
      intro live
      rw [List.nil_append]
      refine front.findAll_of_misses (by decide) (by decide)
        (misses_method (by decide) (front.not_mem_head (by decide)) ?_)
      rw [List.mem_append, not_or]
      exact ⟨front.not_mem_head (by decide), by decide⟩
    exact tells_of_front front h hm rfl hnothing (hfront _) (hfront _)
      (tells_method front.isCode_text h hm)
  · obtain ⟨others, hs, hothers⟩ := front.exists_findAll annotated_field (by decide) (by decide)
      (by decide) (Mask.masked .java rest)
    obtain ⟨others', hs', hothers'⟩ := front.exists_findAll annotated_field (by decide) (by decide)
      (by decide) (annotationText name args ++ Mask.masked .java rest)
    refine tells_of_front front h hm rfl (.nothing (fun other ho => ?_) fun other ho => ?_) hs hs'
      (tells_apart front.isCode_text h hm hr rfl apart_field)
    · exact front.findField_eq_nil hmasked (hothers other ho).1 (hothers other ho).2
    · exact front.findField_eq_nil hmasked' (hothers' other ho).1 (hothers' other ho).2

/-- A class with a base, up to its first member. -/
def frontOfA : ClassFront where
  modifiers := ["public"]
  name := "A".toList
  header := " extends B ".toList
  gap := "\n  ".toList
  isModifiers := by decide
  isName := ⟨⟨'A', rfl, rfl⟩, by decide⟩
  ends_name := fun c hc => by
    obtain rfl := Option.some.inj hc
    rfl
  isHeader := by decide
  isGap := by decide

theorem annotated_declarations_value :
    IsAnnotation "X".toList "a = 1".toList ∧
      StartsMember (Mask.masked .java "void f() \x7b\x7d \x7d".toList) ∧
      (Registry.java.parse
          "public class A extends B \x7b\n  @X(a = 1) void f() \x7b\x7d \x7d".toList).declarations =
        (Registry.java.parse
          "public class A extends B \x7b\n  void f() \x7b\x7d \x7d".toList).declarations := by
  have h : IsAnnotation "X".toList "a = 1".toList := ⟨by decide, by decide, by decide, by decide⟩
  have hm : StartsMember (Mask.masked .java "void f() \x7b\x7d \x7d".toList) := by
    have hmasked : Mask.masked .java "void f() \x7b\x7d \x7d".toList =
        "void f() \x7b\x7d \x7d".toList := by decide +kernel
    rw [hmasked]
    exact ⟨⟨'v', 'o', "id f() \x7b\x7d \x7d".toList, rfl, by decide, by decide⟩, nofun,
      .inr (by decide)⟩
  have hannotated : frontOfA.text ++
      (annotationText "X".toList "a = 1".toList ++ "void f() \x7b\x7d \x7d".toList) =
        "public class A extends B \x7b\n  @X(a = 1) void f() \x7b\x7d \x7d".toList := by decide
  have hplain : frontOfA.text ++ "void f() \x7b\x7d \x7d".toList =
      "public class A extends B \x7b\n  void f() \x7b\x7d \x7d".toList := by decide
  have hsame := annotated_declarations frontOfA h hm
  rw [hannotated, hplain] at hsame
  exact ⟨h, hm, hsame⟩

/-- With parentheses in the arguments the member behind them is lost. -/
example : (Registry.java.parse "class A \x7b @X(a()) void f() \x7b\x7d \x7d".toList).classes.flatMap
    (·.methods) = [] := by
  decide +kernel

end Java
end Outline
