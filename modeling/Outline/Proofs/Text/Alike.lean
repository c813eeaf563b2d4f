import Outline.Proofs.Text.Word

/-!
# Texts that differ in their literals only

Two texts are alike when they are the same but for what stands between the marks
that open and close a literal; which characters may stand there is a parameter.
A quote opens a literal, and so does a parenthesis with nothing but a delimiter between
it and a quote, as in a raw string.  Cutting, trimming and counting words never
see where two alike texts differ, unless they look for a character that literals
hold.
-/

namespace Outline

/-- What has been read last: code, a mark that may open a literal, or a part of one.
`raw` tells a parenthesis from a quote. -/
inductive Stand
  | code
  | opened (raw : Bool)
  | inside (raw : Bool)
  deriving DecidableEq, Repr

namespace Stand

def isQuote (c : Char) : Bool := c == '"' || c == '\''

def closes (c : Char) : Bool := c == ')' || isQuote c

/-- Whether a character may belong to the delimiter of a raw string.  Blanks, brackets and
the marks between declarations, types and names never do here. -/
def isFront (c : Char) : Bool :=
  !Text.isBlank c && !closes c
    && !(['(', '[', ']', ',', '=', '@', '*', '&', '^'].contains c)

/-- Behind a quote the delimiter of a raw string may follow, up to its parenthesis. -/
def after (stand : Stand) (c : Char) : Stand :=
  if isQuote c then .opened false
  else if stand = .opened false ∧ c = '(' then .opened true
  else if stand = .opened false ∧ isFront c = true then .opened false
  else .code

/-- Whether contents of a literal may come next. -/
def Admits (stand : Stand) (raw : Bool) : Prop := stand = .opened raw ∨ stand = .inside raw

/-- No literal is left open. -/
def Closed (stand : Stand) : Prop := ∀ raw, stand ≠ .inside raw

theorem closed_code : Stand.code.Closed := fun _ => nofun

theorem not_closed_inside (raw : Bool) : ¬ (Stand.inside raw).Closed := fun h => h raw rfl

theorem exists_eq_inside {stand : Stand} (h : ¬ stand.Closed) : ∃ raw, stand = .inside raw := by
  cases stand with
  | inside raw => exact ⟨raw, rfl⟩
  | code | opened => exact absurd (fun _ => nofun) h

theorem admits_inside (raw : Bool) : (Stand.inside raw).Admits raw := .inr rfl

theorem not_admits_code (raw : Bool) : ¬ Stand.code.Admits raw := by simp [Admits]

theorem closed_after (stand : Stand) (c : Char) : (stand.after c).Closed := by
  intro raw
  unfold after
  split
  · exact nofun
  · split
    · exact nofun
    · split <;> exact nofun

theorem after_code_of_not_quote {c : Char} (h : isQuote c = false) :
    Stand.code.after c = .code := by
  simp [after, h]

/-- A character that is no part of the front of a raw string leads to where it does
in code. -/
theorem after_eq_code_after {c : Char} (hparen : c ≠ '(') (hfront : isFront c = false)
    (stand : Stand) : stand.after c = Stand.code.after c := by
  simp [after, hparen, hfront]

/-- Whether a character leads to code from anywhere. -/
def breaks (c : Char) : Bool := !isQuote c && c != '(' && !isFront c

theorem after_of_breaks {c : Char} (h : breaks c = true) (stand : Stand) :
    stand.after c = .code := by
  simp only [breaks, Bool.and_eq_true, Bool.not_eq_true', bne_iff_ne] at h
  obtain ⟨⟨hquote, hparen⟩, hfront⟩ := h
  rw [after_eq_code_after hparen hfront, after_code_of_not_quote hquote]

theorem isQuote_of_breaks {c : Char} (h : breaks c = true) : isQuote c = false := by
  simp only [breaks, Bool.and_eq_true, Bool.not_eq_true'] at h
  exact h.1.1

theorem isQuote_of_isBlank {c : Char} (h : Text.isBlank c = true) : isQuote c = false := by
  refine Bool.eq_false_iff.mpr fun hq => ?_
  simp only [isQuote, Bool.or_eq_true, beq_iff_eq] at hq
  rcases hq with rfl | rfl <;> exact absurd h (by decide)

theorem breaks_of_isBlank {c : Char} (h : Text.isBlank c = true) : breaks c = true := by
  have hparen : c ≠ '(' := fun hc => absurd (hc ▸ h) (by decide)
  simp [breaks, isQuote_of_isBlank h, hparen, isFront, h]

theorem closes_of_isBlank {c : Char} (h : Text.isBlank c = true) : closes c = false := by
  have hparen : c ≠ ')' := fun hc => absurd (hc ▸ h) (by decide)
  simp [closes, isQuote_of_isBlank h, hparen]

theorem isQuote_of_isWordChar {c : Char} (h : Text.isWordChar c = true) : isQuote c = false := by
  refine Bool.eq_false_iff.mpr fun hq => ?_
  simp only [isQuote, Bool.or_eq_true, beq_iff_eq] at hq
  rcases hq with rfl | rfl <;> exact absurd h (by decide)

theorem closes_of_isWordChar {c : Char} (h : Text.isWordChar c = true) : closes c = false := by
  have hparen : c ≠ ')' := fun hc => absurd (hc ▸ h) (by decide)
  simp [closes, isQuote_of_isWordChar h, hparen]

/-- What closes a literal leads to where it does in code. -/
theorem after_of_closes {c : Char} (h : closes c = true) (stand : Stand) :
    stand.after c = Stand.code.after c :=
  after_eq_code_after (fun hc => absurd (hc ▸ h) (by decide)) (by simp [isFront, h]) stand

end Stand

open Stand (isQuote closes breaks isQuote_of_isBlank closes_of_isBlank breaks_of_isBlank)

/-- From one stand to another the texts differ in contents of literals only. -/
inductive Alike (holds : Bool → Char → Prop) : Stand → List Char → List Char → Stand → Prop
  | nil (p : Stand) : Alike holds p [] [] p
  | keep {p q : Stand} {s t : List Char} (c : Char)
      (hc : ∀ raw, p = .inside raw → closes c = true) (h : Alike holds (p.after c) s t q) :
      Alike holds p (c :: s) (c :: t) q
  | hide {p q : Stand} {s t : List Char} {raw : Bool} {c : Char} (hp : p.Admits raw)
      (hc : holds raw c) (h : Alike holds (.inside raw) s t q) : Alike holds p (c :: s) t q
  | fill {p q : Stand} {s t : List Char} {raw : Bool} {c : Char} (hp : p.Admits raw)
      (hc : holds raw c) (h : Alike holds (.inside raw) s t q) : Alike holds p s (c :: t) q

namespace Alike

variable {holds : Bool → Char → Prop} {p q r : Stand} {s t a b : List Char}

theorem symm (h : Alike holds p s t q) : Alike holds p t s q := by
  induction h with
  | nil p => exact .nil p
  | keep c hc _ ih => exact .keep c hc ih
  | hide hp hc _ ih => exact .fill hp hc ih
  | fill hp hc _ ih => exact .hide hp hc ih

theorem append {a b : List Char} (h : Alike holds p s t q) (k : Alike holds q a b r) :
    Alike holds p (s ++ a) (t ++ b) r := by
  induction h with
  | nil => exact k
  | keep c hc _ ih => exact .keep c hc (ih k)
  | hide hp hc _ ih => exact .hide hp hc (ih k)
  | fill hp hc _ ih => exact .fill hp hc (ih k)

theorem keep_of_closed {c : Char} (hp : p.Closed) (h : Alike holds (p.after c) s t q) :
    Alike holds p (c :: s) (c :: t) q :=
  .keep c (fun raw hraw => absurd hraw (hp raw)) h

/-! ## One character more, at the ends of reversed texts -/

theorem snoc_keep (h : Alike holds p s.reverse t.reverse q) {c : Char}
    (hc : ∀ raw, q = .inside raw → closes c = true) :
    Alike holds p (c :: s).reverse (c :: t).reverse (q.after c) := by
  rw [List.reverse_cons, List.reverse_cons]
  exact h.append (.keep c hc (.nil _))

theorem snoc_hide (h : Alike holds p s.reverse t.reverse q) {raw : Bool} {c : Char}
    (hq : q.Admits raw) (hc : holds raw c) :
    Alike holds p (c :: s).reverse t.reverse (.inside raw) := by
  rw [List.reverse_cons, ← List.append_nil t.reverse]
  exact h.append (.hide hq hc (.nil _))

theorem snoc_fill (h : Alike holds p s.reverse t.reverse q) {raw : Bool} {c : Char}
    (hq : q.Admits raw) (hc : holds raw c) :
    Alike holds p s.reverse (c :: t).reverse (.inside raw) :=
  (h.symm.snoc_hide hq hc).symm

/-! ## In code -/

/-- In code the texts are at their ends together or go on with one character. -/
theorem code_cases (h : Alike holds .code s t q) :
    (s = [] ∧ t = [] ∧ q = .code) ∨
      ∃ c s' t', s = c :: s' ∧ t = c :: t' ∧ Alike holds (Stand.code.after c) s' t' q := by
  cases h with
  | nil => exact .inl ⟨rfl, rfl, rfl⟩
  | keep c _ h => exact .inr ⟨c, _, _, rfl, rfl, h⟩
  | hide hp => exact absurd hp (Stand.not_admits_code _)
  | fill hp => exact absurd hp (Stand.not_admits_code _)

/-- A text that ends in code is alike to itself from anywhere outside of literals. -/
theorem refl_of_breaks {w : List Char} {c : Char} (hp : p.Closed) (hc : breaks c = true) :
    Alike holds p (w ++ [c]) (w ++ [c]) .code := by
  induction w generalizing p with
  | nil => exact .keep_of_closed hp (by rw [Stand.after_of_breaks hc]; exact .nil .code)
  | cons d w ih => exact .keep_of_closed hp (ih (Stand.closed_after p d))

theorem head?_eq (h : Alike holds .code s t q) : s.head? = t.head? := by
  obtain ⟨rfl, rfl, -⟩ | ⟨c, s', t', rfl, rfl, -⟩ := h.code_cases <;> rfl

/-! ## Words without marks -/

theorem eq_append_of_not_quote {w rest : List Char} (h : Alike holds .code (w ++ rest) t q)
    (hw : ∀ c ∈ w, isQuote c = false) :
    ∃ rest', t = w ++ rest' ∧ Alike holds .code rest rest' q := by
  induction w generalizing t with
  | nil => exact ⟨t, rfl, h⟩
  | cons c w ih =>
    obtain ⟨hs, -⟩ | ⟨c', s', t', hs, rfl, h⟩ := h.code_cases
    · exact absurd hs (by simp)
    · obtain ⟨rfl, rfl⟩ := List.cons.inj hs
      rw [Stand.after_code_of_not_quote (hw c (by simp))] at h
      obtain ⟨rest', rfl, hrest⟩ := ih h fun c hc => hw c (by simp [hc])
      exact ⟨rest', rfl, hrest⟩

theorem eq_of_not_quote (h : Alike holds .code s t q) (hs : ∀ c ∈ s, isQuote c = false) :
    s = t := by
  rw [← List.append_nil s] at h
  obtain ⟨rest, rfl, hrest⟩ := h.eq_append_of_not_quote hs
  obtain ⟨-, rfl, -⟩ | ⟨c, s', t', hnil, -⟩ := hrest.code_cases
  · rw [List.append_nil]
  · exact absurd hnil (by simp)

/-- Contents of a literal are closed behind them, so a text that cannot close one
holds none. -/
theorem eq_of_not_closes (h : Alike holds p s t q) (hq : q.Closed)
    (hs : ∀ c ∈ s, closes c = false) : s = t ∧ p.Closed := by
  induction h with
  | nil p => exact ⟨rfl, hq⟩
  | keep c hc _ ih =>
    obtain ⟨rfl, -⟩ := ih hq fun c hc => hs c (by simp [hc])
    refine ⟨rfl, fun raw hraw => ?_⟩
    rw [hs c (by simp)] at hc
    exact Bool.false_ne_true (hc raw hraw)
  | @hide p q s t raw c _ _ _ ih =>
    exact absurd (ih hq fun c hc => hs c (by simp [hc])).2 (Stand.not_closed_inside raw)
  | @fill p q s t raw c _ _ _ ih =>
    exact absurd (ih hq hs).2 (Stand.not_closed_inside raw)

/-- What ends without a mark that closes a literal ends alike. -/
theorem append_of_not_closes (h : Alike holds p (a ++ b) t q) (hq : q.Closed)
    (hb : ∀ c ∈ b, closes c = false) :
    ∃ a' r, t = a' ++ b ∧ Alike holds p a a' r ∧ r.Closed := by
  generalize hs : a ++ b = s at h
  induction h generalizing a with
  | nil p =>
    obtain ⟨rfl, rfl⟩ := List.append_eq_nil_iff.mp hs
    exact ⟨[], p, rfl, .nil p, hq⟩
  | @keep p q s t c hc h ih =>
    cases a with
    | nil =>
      obtain ⟨heq, hp⟩ := (Alike.keep c hc h).eq_of_not_closes hq (hs ▸ hb)
      exact ⟨[], p, (hs.trans heq).symm, .nil p, hp⟩
    | cons x a =>
      obtain ⟨rfl, hs'⟩ := List.cons.inj hs
      obtain ⟨a', r, rfl, ha, hr⟩ := ih hq hs'
      exact ⟨x :: a', r, rfl, .keep x hc ha, hr⟩
  | @hide p q s t raw c hp hc h ih =>
    cases a with
    | nil =>
      have hall : ∀ x ∈ s, closes x = false := fun x hx => by
        rw [List.nil_append] at hs
        exact hb x (by simp [hs, hx])
      exact absurd (h.eq_of_not_closes hq hall).2 (Stand.not_closed_inside raw)
    | cons x a =>
      obtain ⟨rfl, hs'⟩ := List.cons.inj hs
      obtain ⟨a', r, rfl, ha, hr⟩ := ih hq hs'
      exact ⟨a', r, rfl, .hide hp hc ha, hr⟩
  | @fill p q s t raw c hp hc h ih =>
    obtain ⟨a', r, rfl, ha, hr⟩ := ih hq hs
    exact ⟨c :: a', r, rfl, .fill hp hc ha, hr⟩

/-! ## Cutting at a character that literals do not hold -/

theorem exists_append_cons {d : Char} (hd : ∀ raw, ¬ holds raw d)
    (h : Alike holds p (a ++ d :: b) t q) :
    ∃ a' b' r, t = a' ++ d :: b' ∧ Alike holds p a a' r ∧
      (∀ raw, r = .inside raw → closes d = true) ∧ Alike holds (r.after d) b b' q := by
  generalize hs : a ++ d :: b = s at h
  induction h generalizing a with
  | nil => exact absurd hs (by simp)
  | @keep p q s t c hc h ih =>
    cases a with
    | nil =>
      obtain ⟨rfl, rfl⟩ := List.cons.inj hs
      exact ⟨[], t, p, rfl, .nil p, hc, h⟩
    | cons x a =>
      obtain ⟨rfl, hs'⟩ := List.cons.inj hs
      obtain ⟨a', b', r, rfl, ha, hr, hb⟩ := ih hs'
      exact ⟨x :: a', b', r, rfl, .keep x hc ha, hr, hb⟩
  | @hide p q s t raw c hp hc h ih =>
    cases a with
    | nil =>
      obtain ⟨rfl, rfl⟩ := List.cons.inj hs
      exact absurd hc (hd raw)
    | cons x a =>
      obtain ⟨rfl, hs'⟩ := List.cons.inj hs
      obtain ⟨a', b', r, rfl, ha, hr, hb⟩ := ih hs'
      exact ⟨a', b', r, rfl, .hide hp hc ha, hr, hb⟩
  | @fill p q s t raw c hp hc h ih =>
    obtain ⟨a', b', r, rfl, ha, hr, hb⟩ := ih hs
    exact ⟨c :: a', b', r, rfl, .fill hp hc ha, hr, hb⟩

theorem mem_of_mem {d : Char} (hd : ∀ raw, ¬ holds raw d) (h : Alike holds p s t q) (hs : d ∈ s) :
    d ∈ t := by
  obtain ⟨a, b, rfl⟩ := List.append_of_mem hs
  obtain ⟨a', b', r, rfl, -⟩ := h.exists_append_cons hd
  simp

/-! ## Inside of a literal -/

/-- Inside of a literal what cannot close it can be left out. -/
theorem drop_of_inside {raw : Bool} {w : List Char} (h : Alike holds (.inside raw) (w ++ s) t q)
    (hw : ∀ c ∈ w, closes c = false) : Alike holds (.inside raw) s t q := by
  -- The stand stays inside of the literal as long as the word lasts, since no step closes it.
  generalize hp : Stand.inside raw = p at h
  generalize hu : w ++ s = u at h
  induction h generalizing w with
  | nil =>
    obtain ⟨-, rfl⟩ := List.append_eq_nil_iff.mp hu
    exact hp ▸ .nil _
  | @keep p q u t c hc h ih =>
    cases w with
    | nil =>
      subst hp
      obtain rfl : s = c :: u := hu
      exact .keep c hc h
    | cons x w =>
      obtain ⟨rfl, -⟩ := List.cons.inj hu
      have hcloses := hc raw hp.symm
      rw [hw x List.mem_cons_self] at hcloses
      exact absurd hcloses Bool.false_ne_true
  | @hide p q u t raw' c hadmits hc h ih =>
    subst hp
    obtain rfl : raw = raw' := by simpa [Stand.Admits] using hadmits
    cases w with
    | nil =>
      obtain rfl : s = c :: u := hu
      exact .hide hadmits hc h
    | cons x w => exact ih (fun c hc => hw c (List.mem_cons_of_mem x hc)) rfl (List.cons.inj hu).2
  | @fill p q u t raw' c hadmits hc h ih =>
    subst hp
    obtain rfl : raw = raw' := by simpa [Stand.Admits] using hadmits
    exact .fill hadmits hc (ih hw rfl hu)

theorem not_inside_cons {raw : Bool} {d : Char} (hd : ¬ holds raw d) (hcloses : closes d = false) :
    ¬ Alike holds (.inside raw) (d :: s) t q := by
  intro h
  generalize hp : Stand.inside raw = p at h
  generalize hu : d :: s = u at h
  induction h with
  | nil => exact nomatch hu
  | @keep p q u t c hc h ih =>
    obtain ⟨rfl, -⟩ := List.cons.inj hu
    have htrue := hc raw hp.symm
    rw [hcloses] at htrue
    exact Bool.false_ne_true htrue
  | @hide p q u t raw' c hadmits hc h ih =>
    subst hp
    obtain rfl : raw = raw' := by simpa [Stand.Admits] using hadmits
    obtain ⟨rfl, -⟩ := List.cons.inj hu
    exact hd hc
  | @fill p q u t raw' c hadmits hc h ih =>
    subst hp
    obtain rfl : raw = raw' := by simpa [Stand.Admits] using hadmits
    exact ih rfl hu

/-! ## Runs of blanks -/

/-- Among contents of literals a space more or less makes no difference. -/
theorem gaps {raw : Bool} (hspace : holds raw ' ') {stand q : Stand} {s t : List Char}
    (hp : stand.Admits raw) (g g' : Text.Gap)
    (h : ∀ stand : Stand, stand.Admits raw → Alike holds stand s t q) :
    Alike holds stand (g.text ++ s) (g'.text ++ t) q := by
  have hfill : ∀ stand : Stand, stand.Admits raw → Alike holds stand s (g'.text ++ t) q := by
    intro stand hp
    cases g' with
    | owed => exact .fill hp hspace (h _ (Stand.admits_inside raw))
    | start | none => exact h stand hp
  cases g with
  | owed => exact .hide hp hspace (hfill _ (Stand.admits_inside raw))
  | start | none => exact hfill stand hp

/-- Where two sweeps over alike texts stand: `p` is the stand of the texts and
`stand` that of what is left of them. -/
structure InStep (p stand : Stand) (g g' : Text.Gap) : Prop where
  gap : p.Closed → g = g'
  closed : p.Closed → stand.Closed
  /-- A blank leads to code, and one that is owed is still to be read. -/
  blank : p.Closed → g ≠ .none → p = .code
  start : g = .start → stand = .code
  same : p.Closed → g = .none → stand = p
  admits : ∀ raw, p.Admits raw → stand.Admits raw ∧ g ≠ .start ∧ g' ≠ .start

theorem InStep.of_inside {raw : Bool} {stand : Stand} {g g' : Text.Gap} (h : stand.Admits raw)
    (hg : g ≠ .start) (hg' : g' ≠ .start) : InStep (.inside raw) stand g g' where
  gap hp := absurd hp (Stand.not_closed_inside raw)
  closed hp := absurd hp (Stand.not_closed_inside raw)
  blank hp := absurd hp (Stand.not_closed_inside raw)
  start hstart := absurd hstart hg
  same hp := absurd hp (Stand.not_closed_inside raw)
  admits raw' h' := by
    obtain rfl : raw = raw' := by simpa [Stand.Admits] using h'
    exact ⟨h, hg, hg'⟩

theorem InStep.refl {p : Stand} (hp : p.Closed) : InStep p p .none .none where
  gap _ := rfl
  closed _ := hp
  blank _ h := absurd rfl h
  start h := nomatch h
  same _ _ := rfl
  admits _ h := ⟨h, nofun, nofun⟩

theorem InStep.after_blank {p stand : Stand} {g g' : Text.Gap} (h : InStep p stand g g')
    (hp : p.Closed) : InStep .code stand g.blank g'.blank where
  gap _ := congrArg Text.Gap.blank (h.gap hp)
  closed _ := h.closed hp
  blank _ _ := rfl
  start hstart := by
    cases g with
    | start => exact h.start rfl
    | none | owed => exact nomatch hstart
  same _ hnone := by
    cases g with
    | start | none | owed => exact nomatch hnone
  admits raw hadmits := absurd hadmits (Stand.not_admits_code raw)

theorem blank_ne_start {g : Text.Gap} (h : g ≠ .start) : g.blank ≠ .start := by
  cases g with
  | start => exact absurd rfl h
  | none | owed => exact nofun

/-- A character that both texts keep comes behind what each sweep owes. -/
theorem keep_after_gaps (hspace : ∀ raw, holds raw ' ') {p stand : Stand} {g g' : Text.Gap}
    (hs : InStep p stand g g') {c : Char} (hc : ∀ raw, p = .inside raw → closes c = true)
    (h : Alike holds (p.after c) s t q) :
    Alike holds stand (g.text ++ c :: s) (g'.text ++ c :: t) q := by
  by_cases hp : p.Closed
  · obtain rfl := hs.gap hp
    cases g with
    | owed =>
      obtain rfl := hs.blank hp (by decide)
      rw [← Stand.after_of_breaks (c := ' ') (by decide) stand] at h
      exact .keep_of_closed (hs.closed hp) (.keep_of_closed (Stand.closed_after stand ' ') h)
    | start =>
      obtain rfl := hs.blank hp (by decide)
      obtain rfl := hs.start rfl
      exact .keep_of_closed Stand.closed_code h
    | none =>
      obtain rfl := hs.same hp rfl
      exact .keep_of_closed hp h
  · -- Inside of a literal the sweeps may owe different gaps; its end is the same from each stand.
    obtain ⟨raw, rfl⟩ := Stand.exists_eq_inside hp
    have hcloses : closes c = true := hc raw rfl
    have hadmits := (hs.admits raw (Stand.admits_inside raw)).1
    refine gaps (hspace raw) hadmits g g' fun stand _ => .keep c (fun _ _ => hcloses) ?_
    rw [Stand.after_of_closes hcloses] at h ⊢
    exact h

/-- Reducing runs of blanks keeps texts alike, however many blanks are owed among
the contents of a literal. -/
theorem squeeze (hspace : ∀ raw, holds raw ' ') {p q : Stand} {s t : List Char}
    (h : Alike holds p s t q) (hq : q.Closed) {stand : Stand} {g g' : Text.Gap}
    (hs : InStep p stand g g') :
    ∃ q', Alike holds stand (Text.squeeze g s) (Text.squeeze g' t) q' ∧ q'.Closed := by
  -- Each sweep goes on by its own text, so what the two owe differs while a literal is open.
  have hnone : Text.Gap.none ≠ .start := by decide
  induction h generalizing stand g g' with
  | nil p => exact ⟨stand, .nil stand, hs.closed hq⟩
  | @keep p q s t c hc h ih =>
    by_cases hblank : Text.isBlank c = true
    · have hp : p.Closed := fun raw hraw => by
        have hcloses := hc raw hraw
        rw [closes_of_isBlank hblank] at hcloses
        exact Bool.false_ne_true hcloses
      rw [Stand.after_of_breaks (breaks_of_isBlank hblank)] at ih
      rw [Text.squeeze, Text.squeeze, if_pos hblank, if_pos hblank]
      exact ih hq (hs.after_blank hp)
    · obtain ⟨q', hrest, hq'⟩ := ih hq (.refl (Stand.closed_after p c))
      rw [Text.squeeze, Text.squeeze, if_neg hblank, if_neg hblank]
      exact ⟨q', keep_after_gaps hspace hs hc hrest, hq'⟩
  | @hide p q s t raw c hp hc h ih =>
    obtain ⟨hadmits, hg, hg'⟩ := hs.admits raw hp
    rw [Text.squeeze]
    split
    · exact ih hq (.of_inside hadmits (blank_ne_start hg) hg')
    · obtain ⟨q', hrest, hq'⟩ := ih hq (.of_inside (Stand.admits_inside raw) hnone hg')
      refine ⟨q', ?_, hq'⟩
      exact gaps (hspace raw) hadmits g .none fun stand hadmits => .hide hadmits hc hrest
  | @fill p q s t raw c hp hc h ih =>
    obtain ⟨hadmits, hg, hg'⟩ := hs.admits raw hp
    rw [Text.squeeze.eq_def g' (c :: t)]
    dsimp only
    split
    · exact ih hq (.of_inside hadmits hg (blank_ne_start hg'))
    · obtain ⟨q', hrest, hq'⟩ := ih hq (.of_inside (Stand.admits_inside raw) hg hnone)
      refine ⟨q', ?_, hq'⟩
      exact gaps (hspace raw) hadmits .none g' fun stand hadmits => .fill hadmits hc hrest

end Alike

/-! ## Whole texts -/

/-- Texts that are alike as a whole: no literal is open at their ends. -/
def AlikeTexts (holds : Bool → Char → Prop) (s t : List Char) : Prop :=
  ∃ q, Alike holds .code s t q ∧ q.Closed

namespace AlikeTexts

variable {holds : Bool → Char → Prop} {s t a b : List Char}

theorem nil : AlikeTexts holds [] [] := ⟨.code, .nil .code, Stand.closed_code⟩

theorem of_not_quote {s : List Char} (hs : ∀ c ∈ s, isQuote c = false) : AlikeTexts holds s s := by
  refine ⟨.code, ?_, Stand.closed_code⟩
  induction s with
  | nil => exact .nil .code
  | cons c s ih =>
    have hrest := ih fun d hd => hs d (List.mem_cons_of_mem c hd)
    refine .keep_of_closed Stand.closed_code ?_
    rw [Stand.after_code_of_not_quote (hs c List.mem_cons_self)]
    exact hrest

theorem symm (h : AlikeTexts holds s t) : AlikeTexts holds t s := by
  obtain ⟨q, h, hq⟩ := h
  exact ⟨q, h.symm, hq⟩

theorem eq_nil (h : AlikeTexts holds s t) : s = [] ↔ t = [] := by
  obtain ⟨q, h, -⟩ := h
  obtain ⟨rfl, rfl, -⟩ | ⟨c, s', t', rfl, rfl, -⟩ := h.code_cases <;> simp

theorem eq_of_not_quote (h : AlikeTexts holds s t) (hs : ∀ c ∈ s, isQuote c = false) : s = t := by
  obtain ⟨q, h, -⟩ := h
  exact h.eq_of_not_quote hs

theorem eq_word (h : AlikeTexts holds s t) {w : List Char} (hw : ∀ c ∈ w, isQuote c = false) :
    s = w ↔ t = w := by
  constructor
  · rintro rfl
    exact (h.eq_of_not_quote hw).symm
  · rintro rfl
    exact (h.symm.eq_of_not_quote hw).symm

theorem append_of_not_closes (h : AlikeTexts holds (a ++ b) t) (hb : ∀ c ∈ b, closes c = false) :
    ∃ a', t = a' ++ b ∧ AlikeTexts holds a a' := by
  obtain ⟨q, h, hq⟩ := h
  obtain ⟨a', r, rfl, ha, hr⟩ := h.append_of_not_closes hq hb
  exact ⟨a', rfl, r, ha, hr⟩

/-! ## Trimming -/

theorem trimStart (h : AlikeTexts holds s t) :
    AlikeTexts holds (Text.trimStart s) (Text.trimStart t) := by
  induction s generalizing t with
  | nil =>
    obtain rfl : t = [] := h.eq_nil.mp rfl
    exact nil
  | cons c s ih =>
    obtain ⟨q, h, hq⟩ := h
    obtain ⟨hs, -⟩ | ⟨c', s', t', hs, rfl, h'⟩ := h.code_cases
    · exact absurd hs (by simp)
    obtain ⟨rfl, rfl⟩ := List.cons.inj hs
    by_cases hc : Text.isBlank c = true
    · rw [Stand.after_of_breaks (breaks_of_isBlank hc)] at h'
      have hrest := ih ⟨q, h', hq⟩
      simpa [Text.trimStart, hc] using hrest
    · have hself : AlikeTexts holds (c :: s) (c :: t') := ⟨q, h, hq⟩
      simpa [Text.trimStart, hc] using hself

theorem trimEnd (h : AlikeTexts holds s t) :
    AlikeTexts holds (Text.trimEnd s) (Text.trimEnd t) := by
  obtain ⟨blanks, hs, hblanks, hlast⟩ := Text.exists_eq_trimEnd_append s
  rw [hs] at h
  obtain ⟨t', rfl, ht⟩ := h.append_of_not_closes fun c hc => closes_of_isBlank (hblanks c hc)
  have hlast' : ∀ c, t'.getLast? = some c → Text.isBlank c = false := by
    refine fun c hc => Bool.eq_false_iff.mpr fun hblank => ?_
    obtain ⟨x, rfl⟩ := List.getLast?_eq_some_iff.mp hc
    obtain ⟨y, hy, -⟩ := ht.symm.append_of_not_closes (b := [c])
      (by simpa using closes_of_isBlank hblank)
    have hend := hlast c (by rw [hy]; simp)
    rw [hblank] at hend
    exact Bool.false_ne_true hend.symm
  rw [Text.trimEnd_append_blanks hblanks hlast']
  exact ht

theorem trim (h : AlikeTexts holds s t) : AlikeTexts holds (Text.trim s) (Text.trim t) :=
  h.trimStart.trimEnd

/-! ## Words -/

theorem normalizeSpace (hspace : ∀ raw, holds raw ' ') (h : AlikeTexts holds s t) :
    AlikeTexts holds (Text.normalizeSpace s) (Text.normalizeSpace t) := by
  obtain ⟨q, h, hq⟩ := h
  rw [Text.normalizeSpace_eq_squeeze, Text.normalizeSpace_eq_squeeze]
  refine h.squeeze hspace hq ⟨fun _ => rfl, fun _ => Stand.closed_code, fun _ _ => rfl,
    fun _ => rfl, fun _ => nofun, fun raw hadmits => ?_⟩
  exact absurd hadmits (Stand.not_admits_code raw)

theorem words_eq_nil (h : AlikeTexts holds s t) : Text.words s = [] ↔ Text.words t = [] := by
  have hnil : ∀ {s t : List Char}, AlikeTexts holds s t →
      Text.words s = [] → Text.words t = [] := by
    intro s t h hs
    rcases Text.words_cases s with ⟨-, hall⟩ | ⟨_, w, _, -, -, -, -, -, hwords⟩
    · exact h.eq_of_not_quote (fun c hc => isQuote_of_isBlank (hall c hc)) ▸ hs
    · rw [hwords] at hs
      exact nomatch hs
  exact ⟨hnil h, hnil h.symm⟩

theorem exists_words_eq_cons {blanks w rest : List Char}
    (h : AlikeTexts holds (blanks ++ (w ++ rest)) t)
    (hb : ∀ c ∈ blanks, Text.isBlank c = true) (hne : w ≠ [])
    (hw : ∀ c ∈ w, Text.isBlank c = false)
    (hrest : ∀ c, rest.head? = some c → Text.isBlank c = true)
    (hm : ∀ c ∈ w, isQuote c = false) :
    ∃ rest', AlikeTexts holds rest rest' ∧ Text.words t = w :: Text.words rest' := by
  obtain ⟨q, h, hq⟩ := h
  obtain ⟨t₁, rfl, h₁⟩ := h.eq_append_of_not_quote fun c hc => isQuote_of_isBlank (hb c hc)
  obtain ⟨rest', rfl, h₂⟩ := h₁.eq_append_of_not_quote hm
  refine ⟨rest', ⟨q, h₂, hq⟩, ?_⟩
  rw [Text.words_append_blanks hb]
  exact Text.words_append hne hw (h₂.head?_eq ▸ hrest)

/-- Dropping leading words that hold no quotes leaves the words of alike texts. -/
theorem exists_dropWhile_words (h : AlikeTexts holds s t) {drops : List Char → Bool}
    (hd : ∀ w, drops w = true → ∀ c ∈ w, isQuote c = false) :
    ∃ s' t', AlikeTexts holds s' t' ∧ (Text.words s).dropWhile drops = Text.words s' ∧
      (Text.words t).dropWhile drops = Text.words t' := by
  generalize hn : s.length = n
  induction n using Nat.strongRecOn generalizing s t with
  | ind n ih =>
    rcases Text.words_cases s with ⟨hnil, hall⟩ |
      ⟨blanks, w, rest, rfl, hblanks, hne, hw, hrest, hwords⟩
    · have heq : s = t := h.eq_of_not_quote fun c hc => isQuote_of_isBlank (hall c hc)
      subst heq
      exact ⟨s, s, h, by rw [hnil]; rfl, by rw [hnil]; rfl⟩
    by_cases hdrops : drops w = true
    · obtain ⟨rest', halike, hwords'⟩ := h.exists_words_eq_cons hblanks hne hw hrest (hd w hdrops)
      have hlt : rest.length < n := by
        have hpos : 0 < w.length := List.length_pos_iff.mpr hne
        simp only [List.length_append] at hn
        omega
      obtain ⟨s', t', hst, hs', ht'⟩ := ih rest.length hlt halike rfl
      refine ⟨s', t', hst, ?_, ?_⟩
      · rw [hwords, List.dropWhile_cons_of_pos hdrops, hs']
      · rw [hwords', List.dropWhile_cons_of_pos hdrops, ht']
    · refine ⟨_, t, h, by rw [hwords, List.dropWhile_cons_of_neg hdrops], ?_⟩
      rcases Text.words_cases t with ⟨hnil, -⟩ |
        ⟨blanks', w', rest', rfl, hblanks', hne', hw', hrest', hwords'⟩
      · rw [hnil]
        rfl
      · have hdrops' : ¬ drops w' = true := fun hdrops' => by
          obtain ⟨rest₂, -, hwords₂⟩ :=
            h.symm.exists_words_eq_cons hblanks' hne' hw' hrest' (hd w' hdrops')
          rw [hwords] at hwords₂
          exact hdrops ((List.cons.inj hwords₂).1 ▸ hdrops')
        rw [hwords', List.dropWhile_cons_of_neg hdrops']

end AlikeTexts
end Outline
