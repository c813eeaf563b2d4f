import Outline.Proofs.Extraction.Java.Annotated

/-!
# Methods in an annotation

The name of an annotation and the parenthesis behind it look like the start of a method.  Where no
method is matched behind the annotation, those that begin in it end with that parenthesis.
-/

namespace Outline
namespace Java

open Parameter (isAnnotationChar)
open Pattern (Matches)

variable {name args rest : List Char} {c d : Cursor} {ms : List Mark}

/-- A method that begins in front of a parenthesis is read up to it. -/
theorem rest_of_methodBody {lead more : List Char} (hm : Matches methodBody c d ms)
    (hc : c.rest = lead ++ '(' :: more) (hlead : '(' ∉ lead) : d.rest = more := by
  obtain ⟨e, _, _, hm, hparen, -⟩ := hm.of_seq
  obtain ⟨_, v, -, rfl, he⟩ := hm.in_front (show _ = true by decide) hc
  have hread : e.Reads ['('] d := hparen.of_word
  have heq : '(' :: d.rest = v ++ '(' :: more := hread.1.symm.trans he
  cases v with
  | nil => exact (List.cons.inj heq).2
  | cons x v =>
    obtain rfl : '(' = x := (List.cons.inj heq).1
    exact absurd (by simp) hlead

namespace IsAnnotation

/-- Where no method is matched behind an annotation, one that begins in the annotation ends with
the parenthesis of the arguments. -/
theorem rest_of_method (h : IsAnnotation name args)
    (hblank : ∀ c, rest.head? = some c → Text.isBlank c = false) (hat : rest.head? ≠ some '@')
    {previous : Option Char} (hnone : methodPattern.matchAt ⟨previous, 0, rest⟩ = none)
    {x y : List Char} (hsplit : '@' :: name = x ++ y)
    (hm : Matches methodPattern c d ms) (hc : c.rest = y ++ '(' :: (args ++ ')' :: ' ' :: rest)) :
    d.rest = args ++ ')' :: ' ' :: rest := by
  have hparen : '(' ∉ '@' :: name := by
    rw [List.mem_cons, not_or]
    exact ⟨by decide, h.not_mem_name (by decide)⟩
  have hlead : '(' ∉ y := fun hmem => hparen (hsplit ▸ List.mem_append_right x hmem)
  obtain ⟨e, ns, os, hannotations, hbody⟩ := annotated_method.of_matches hm
  have hend : ∀ c', methodBody.avoids c' = true → e.rest.head? ≠ some c' := by
    intro c' havoids hhead
    obtain ⟨a, ha, hne⟩ := hbody.exists_head (by decide)
    exact hne c' havoids (Option.some.inj (ha.symm.trans hhead))
  have hletters : ∀ text, LeadsArguments args rest text → e.rest = text →
      d.rest = args ++ ')' :: ' ' :: rest := by
    rintro _ ⟨lead, rfl, hall⟩ he
    refine rest_of_methodBody hbody he fun hmem => ?_
    exact absurd (hall '(' hmem) (by decide)
  cases x with
  | nil =>
    obtain rfl : '@' :: name = y := hsplit
    have htext : c.rest = annotationText name args ++ rest := by
      rw [hc, annotationText_append]
      rfl
    rcases h.of_matches hblank hat hannotations htext with rfl | he | he | he
    · exact absurd (hc ▸ rfl) (hend '@' (by decide))
    · exact hletters _ he rfl
    · exact absurd (he ▸ rfl) (hend ' ' (by decide))
    · exact absurd hbody (annotated_method.not_matches_body (by decide) hat hnone he)
  | cons a x =>
    have hall : ∀ c ∈ y, isAnnotationChar c = true := fun c hc => by
      refine h.nameChars c ?_
      rw [(List.cons.inj hsplit).2]
      exact List.mem_append_right x hc
    have hstart : LeadsArguments args rest c.rest := ⟨y, hc, hall⟩
    obtain rfl := of_annotations hstart.head?_ne hannotations
    exact hletters _ hstart rfl

theorem stop_le_of_method (h : IsAnnotation name args)
    (hblank : ∀ c, rest.head? = some c → Text.isBlank c = false) (hat : rest.head? ≠ some '@')
    {previous : Option Char} (hnone : methodPattern.matchAt ⟨previous, 0, rest⟩ = none)
    {a b : List Char} (hab : annotationText name args = a ++ b) (hne : b ≠ [])
    {previous' : Option Char} {offset : Nat} {found : Match}
    (hm : methodPattern.matchAt ⟨previous', offset, b ++ rest⟩ = some found) :
    found.stop ≤ offset + Text.width b := by
  have havoids : ∀ x ∈ ['(', ')', ' '], methodPattern.avoids x = true := by decide
  have hmarks : ∀ x more, x ∈ ['(', ')', ' '] → b = x :: more →
      found.stop ≤ offset + Text.width b := by
    rintro x more hx rfl
    have hmisses : methodPattern.Misses [x] (more ++ rest) :=
      Pattern.misses_of_avoids (by decide) fun y hy => List.mem_singleton.mp hy ▸ havoids x hx
    rw [← List.singleton_append, List.append_assoc,
      hmisses [] [x] rfl (List.cons_ne_nil _ _)] at hm
    cases hm
  have hwhole : ('@' :: name) ++ '(' :: (args ++ [')', ' ']) = a ++ b := hab
  rcases List.append_eq_append_iff.mp hwhole with ⟨v, rfl, hv⟩ | ⟨v, hv, rfl⟩
  · cases v with
    | nil => exact hmarks '(' _ (by simp) hv.symm
    | cons x v =>
      obtain ⟨rfl, htail⟩ := List.cons.inj hv
      rcases List.append_eq_append_iff.mp htail with ⟨u, rfl, hu⟩ | ⟨w, rfl, rfl⟩
      · -- The match would begin at the end of the annotation.
        obtain ⟨y, more, rfl⟩ := List.exists_cons_of_ne_nil hne
        have hy : y ∈ [')', ' '] := hu ▸ List.mem_append_right u List.mem_cons_self
        exact hmarks y more (List.mem_cons_of_mem _ hy) rfl
      · have hparen : '(' ∉ w ++ [')'] := by
          rw [List.mem_append, not_or]
          exact ⟨fun hmem => h.not_mem_args (by decide) (List.mem_append_right v hmem), by decide⟩
        rw [List.append_assoc] at hm
        have hstop := annotated_method.stop_le (by decide) (by decide) hparen hm
        rw [Text.width_append]
        omega
  · obtain ⟨d, ms, hmatch, rfl⟩ := Pattern.exists_of_matchAt hm
    have htext : (v ++ '(' :: (args ++ [')', ' '])) ++ rest =
        v ++ '(' :: (args ++ ')' :: ' ' :: rest) := by simp
    have hd := h.rest_of_method hblank hat hnone hv hmatch htext
    obtain ⟨read, hread⟩ := hmatch.reads
    have hsplit : v ++ '(' :: (args ++ [')', ' ']) = read ++ (args ++ [')', ' ']) := by
      refine List.append_cancel_right (Eq.trans hread.1 ?_)
      rw [hd]
      simp
    rw [Match.stop_ofMarks hread, hread.2, hsplit, Text.width_append]
    simp only [Cursor.asOrigin]
    omega

/-- A method that is not matched behind an annotation is not matched with it either. -/
theorem exists_findAllFrom_method (h : IsAnnotation name args)
    (hblank : ∀ c, rest.head? = some c → Text.isBlank c = false) (hat : rest.head? ≠ some '@')
    (hne : rest ≠ []) {previous : Option Char}
    (hnone : methodPattern.matchAt ⟨previous, 0, rest⟩ = none) (n : Nat) :
    ∃ inert later : List Match,
      methodPattern.findAllFrom 0 previous n rest = later.map (Match.down n) ∧
      methodPattern.findAllFrom 0 previous n (annotationText name args ++ rest) =
        inert ++ later.map (Match.down (n + Text.width (annotationText name args))) ∧
      (∀ other ∈ inert,
        n ≤ other.start ∧ other.start < n + Text.width (annotationText name args)) ∧
      ∀ other ∈ later, 0 < other.start := by
  obtain ⟨c, more, rfl⟩ := List.exists_cons_of_ne_nil hne
  have hhere : ∀ previous' n, methodPattern.matchAt ⟨previous', n, c :: more⟩ = none :=
    fun previous' n => Pattern.matchAt_none_of_rest (by decide) hnone rfl
  obtain ⟨inert, resume, hle, hinert, hrange⟩ :=
    @Pattern.exists_findAllFrom_within methodPattern (annotationText name args) (c :: more) 0 n
      previous (Nat.zero_le _) fun a b hab hne previous' offset found hm =>
        h.stop_le_of_method hblank hat hnone hab hne hm
  refine ⟨inert, methodPattern.findAllFrom 0 (some c) c.utf8Size more,
    Pattern.findAllFrom_of_none (hhere _ _) (Nat.zero_le n), ?_, hrange, fun other hother => ?_⟩
  · rw [hinert, Pattern.findAllFrom_of_none (hhere _ _) hle]
  · exact Nat.lt_of_lt_of_le (Char.utf8Size_pos c) (Pattern.le_start_of_mem_findAllFrom hother)

end IsAnnotation

end Java
end Outline
