import Outline.Proofs.Declaration.AlikeName
import Outline.Proofs.Source.Stretch

/-!
# Literals that stay unnoticed

A stretch of a source is tidy for a reader of parameters when its literals open and
close in it and hold nothing that the reader looks for.  The view that keeps such
literals and the one that hides them are alike, so both declare the same parameters.
-/

namespace Outline

instance : DecidablePred Stand.Closed := fun stand =>
  inferInstanceAs (Decidable (∀ raw, stand ≠ .inside raw))

open Mask (Tinted view blank exists_blank_eq mem_blank)
open Stand (breaks closes)

namespace Parameter

/-- Whether the rest of a stretch is tidy.  A comment reads as blanks; contents of a
literal come behind a mark that opens one, and a mark that closes one comes behind
them. -/
def tidyFrom (rules : ParameterRules) : Stand → Tinted → Bool
  | stand, [] => decide stand.Closed
  | stand, (.plain, c) :: rest =>
    (decide stand.Closed || closes c) && tidyFrom rules (stand.after c) rest
  | stand, (.comment, _) :: rest => decide stand.Closed && tidyFrom rules .code rest
  | .opened raw, (.literal, c) :: rest | .inside raw, (.literal, c) :: rest =>
    isQuiet rules raw c && tidyFrom rules (.inside raw) rest
  | .code, (.literal, _) :: _ => false

/-- Whether the literals of a stretch open and close in it and are quiet. -/
def tidy (rules : ParameterRules) (stretch : Tinted) : Bool := tidyFrom rules .code stretch

example : tidy ⟨[], [], false, true⟩
    (Mask.stretch .cpp "f(Tag<'a'> t, Name n = \"x y\")".toList 2 31) = true := by decide

/-- A comma inside of quotes reads as one between parameters. -/
example : tidy ⟨[], [], false, true⟩
    (Mask.stretch .cpp "f(Name n = \"x,y\")".toList 2 16) = false := by decide

section Alike

variable {rules : ParameterRules} {p q : Stand} {s t : List Char}

theorem quiet_of_mem_blank {raw : Bool} {c d : Char} (h : d ∈ blank c) : Quiet rules raw d := by
  rcases mem_blank h with rfl | rfl
  · exact quiet_space rules raw
  · cases raw <;> simp [Quiet, isQuiet, isPointerMark]

theorem alike_fill {raw : Bool} {w : List Char} (hp : p.Admits raw) (hne : w ≠ [])
    (hw : ∀ c ∈ w, Quiet rules raw c) (h : Alike (Quiet rules) (.inside raw) s t q) :
    Alike (Quiet rules) p s (w ++ t) q := by
  induction w generalizing p with
  | nil => exact absurd rfl hne
  | cons c w ih =>
    refine .fill hp (hw c (by simp)) ?_
    cases w with
    | nil => exact h
    | cons d w => exact ih (Stand.admits_inside raw) (by simp) fun x hx => hw x (by simp [hx])

theorem alike_literal {raw : Bool} {c : Char} (hp : p.Admits raw) (hc : Quiet rules raw c)
    (h : Alike (Quiet rules) (.inside raw) s t q) :
    Alike (Quiet rules) p (c :: s) (blank c ++ t) q := by
  refine .hide hp hc (alike_fill (Stand.admits_inside raw) ?_ (fun d hd => quiet_of_mem_blank hd) h)
  obtain ⟨w, d, hblank⟩ := exists_blank_eq c
  simp [hblank]

theorem alike_views (word : Tinted) (h : tidyFrom rules p word = true) :
    ∃ q, Alike (Quiet rules) p (view (· == .comment) word) (view (· != .plain) word) q ∧
      q.Closed := by
  have hliteral : ∀ {p : Stand} {raw : Bool} {c : Char} {rest : Tinted}, p.Admits raw →
      isQuiet rules raw c = true →
      (∃ q, Alike (Quiet rules) (.inside raw) (view (· == .comment) rest)
        (view (· != .plain) rest) q ∧ q.Closed) →
      ∃ q, Alike (Quiet rules) p (view (· == .comment) ((.literal, c) :: rest))
        (view (· != .plain) ((.literal, c) :: rest)) q ∧ q.Closed := by
    rintro p raw c rest hp hc ⟨q, hq, hclosed⟩
    exact ⟨q, alike_literal hp hc hq, hclosed⟩
  induction p, word using tidyFrom.induct with
  | case1 p => exact ⟨p, .nil p, by simpa [tidyFrom] using h⟩
  | case2 p c rest ih =>
    rw [tidyFrom, Bool.and_eq_true, Bool.or_eq_true, decide_eq_true_iff] at h
    obtain ⟨q, hq, hclosed⟩ := ih h.2
    refine ⟨q, .keep c (fun raw hraw => ?_) hq, hclosed⟩
    exact h.1.resolve_left fun hp => hp raw hraw
  | case3 p c rest ih =>
    rw [tidyFrom, Bool.and_eq_true, decide_eq_true_iff] at h
    obtain ⟨q, hq, hclosed⟩ := ih h.2
    obtain ⟨w, d, hblank⟩ := exists_blank_eq c
    have hd : breaks d = true := by
      rcases mem_blank (c := c) (d := d) (by simp [hblank]) with rfl | rfl <;> rfl
    refine ⟨q, ?_, hclosed⟩
    show Alike (Quiet rules) p (blank c ++ _) (blank c ++ _) q
    rw [hblank]
    exact (Alike.refl_of_breaks h.1 hd).append hq
  | case4 raw c rest ih =>
    rw [tidyFrom, Bool.and_eq_true] at h
    exact hliteral (.inl rfl) h.1 (ih h.2)
  | case5 raw c rest ih =>
    rw [tidyFrom, Bool.and_eq_true] at h
    exact hliteral (.inr rfl) h.1 (ih h.2)
  | case6 c rest => simp [tidyFrom] at h

end Alike

/-- The parameters that are read from a tidy stretch do not depend on what its literals
hold, but for their types and defaults. -/
theorem twins_of_tidy {rules : ParameterRules} {word : Tinted} (hp : plainRules rules = true)
    (h : tidy rules word = true) :
    List.Forall₂ (Twin rules) (ofList rules (view (· == .comment) word))
      (ofList rules (view (· != .plain) word)) :=
  twins_ofList hp (alike_views word h)

/-- Parameters with one name and one default sign, whose types are one type but for
what stands in literals. -/
structure SameButLiterals (rules : ParameterRules) (a b : Parameter) : Prop where
  name : a.name = b.name
  optional : a.optional = b.optional
  type : ∃ hidden, AlikeTexts (Quiet rules) a.type.toList hidden ∧
    AlikeTexts (Quiet rules) b.type.toList hidden

theorem Twin.sameButLiterals {rules : ParameterRules} {a b c : Parameter} (h : Twin rules a c)
    (k : Twin rules b c) : SameButLiterals rules a b :=
  ⟨h.name.trans k.name.symm, h.optional.trans k.optional.symm, _, h.type, k.type⟩

theorem sameButLiterals_of_twins {rules : ParameterRules} {xs ys zs : List Parameter}
    (h : List.Forall₂ (Twin rules) xs zs) (k : List.Forall₂ (Twin rules) ys zs) :
    List.Forall₂ (SameButLiterals rules) xs ys := by
  induction h generalizing ys with
  | nil =>
    cases k with
    | nil => exact .nil
  | cons hhead _ ih =>
    cases k with
    | cons khead ktail => exact .cons (hhead.sameButLiterals khead) (ih ktail)

/-- Two tidy stretches that look the same without their literals declare the same
parameters. -/
theorem sameButLiterals_of_tidy {rules : ParameterRules} {word word' : Tinted}
    (hp : plainRules rules = true) (h : tidy rules word = true) (h' : tidy rules word' = true)
    (heq : view (· != .plain) word = view (· != .plain) word') :
    List.Forall₂ (SameButLiterals rules) (ofList rules (view (· == .comment) word))
      (ofList rules (view (· == .comment) word')) := by
  have htwins := twins_of_tidy hp h
  rw [heq] at htwins
  exact sameButLiterals_of_twins htwins (twins_of_tidy hp h')

end Parameter
end Outline
