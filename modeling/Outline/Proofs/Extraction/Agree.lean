import Outline.Proofs.Source.Lower

/-!
# Two attempts that agree

Unlike attempts that merely relate, attempts that agree succeed or fail together: with
related results, or with one failure, whose offsets may be further down in the second.
-/

namespace Outline

/-- The same failure, or one that names offsets so many bytes further down. -/
inductive ExtractError.Moved (n : Nat) : ExtractError → ExtractError → Prop
  | same (e : ExtractError) : Moved n e e
  | span (start stop width : Nat) :
      Moved n (.span start stop width) (.span (start + n) (stop + n) (width + n))
  | cut (offset : Nat) :
      Moved n (.crashed (some s!"byte index {offset} is not a char boundary"))
        (.crashed (some s!"byte index {offset + n} is not a char boundary"))

theorem ExtractError.Moved.eq {e e' : ExtractError} (h : e.Moved 0 e') : e' = e := by
  cases h <;> rfl

variable {α β γ δ : Type}

/-- Both attempts succeed with related results, or both fail alike. -/
inductive Agree (n : Nat) (R : α → β → Prop) : Except ExtractError α → Except ExtractError β → Prop
  | ok {a : α} {b : β} (h : R a b) : Agree n R (.ok a) (.ok b)
  | error {e e' : ExtractError} (h : e.Moved n e') : Agree n R (.error e) (.error e')

namespace Agree

variable {n : Nat} {R : α → β → Prop} {S : γ → δ → Prop} {x : Except ExtractError α}
  {y : Except ExtractError β}

/-- One attempt made twice. -/
theorem both (n : Nat) (x : Except ExtractError α) : Agree n Eq x x := by
  cases x with
  | ok a => exact .ok rfl
  | error e => exact .error (.same e)

theorem imp {R' : α → β → Prop} (h : Agree n R x y) (hr : ∀ a b, R a b → R' a b) :
    Agree n R' x y := by
  cases h with
  | ok h => exact .ok (hr _ _ h)
  | error h => exact .error h

/-! ## Sequences -/

theorem bind {f : α → Except ExtractError γ} {g : β → Except ExtractError δ} (h : Agree n R x y)
    (hn : ∀ a b, R a b → Agree n S (f a) (g b)) : Agree n S (x >>= f) (y >>= g) := by
  cases h with
  | ok h => exact hn _ _ h
  | error h => exact .error h

/-- Both go on from one result. -/
theorem bind_eq {x y : Except ExtractError α} {f : α → Except ExtractError γ}
    {g : α → Except ExtractError δ} (h : Agree n Eq x y) (hn : ∀ a, Agree n S (f a) (g a)) :
    Agree n S (x >>= f) (y >>= g) :=
  h.bind fun a _ hab => hab ▸ hn a

theorem map {f : α → γ} {g : β → δ} (h : Agree n R x y) (hf : ∀ a b, R a b → S (f a) (g b)) :
    Agree n S (x.map f) (y.map g) := by
  cases h with
  | ok h => exact .ok (hf _ _ h)
  | error h => exact .error h

theorem map_eq {x y : Except ExtractError α} (h : Agree n Eq x y) (f : α → γ) :
    Agree n Eq (x.map f) (y.map f) :=
  h.map fun _ _ hab => congrArg f hab

/-! ## Lists -/

/-- Attempts that agree entry by entry agree on the whole list: where those on one entry come from
one thing in two ways, the results do. -/
theorem mapM {ε ζ : Type} {f : α → Except ExtractError γ} {g : β → Except ExtractError δ} {v : ζ → α}
    {u : ζ → β} {w : ε → γ} {w' : ε → δ} {entries : List ζ}
    (h : ∀ z ∈ entries, Agree n (fun c d => ∃ e, c = w e ∧ d = w' e) (f (v z)) (g (u z))) :
    Agree n (fun cs ds => ∃ es : List ε, cs = es.map w ∧ ds = es.map w') ((entries.map v).mapM f)
      ((entries.map u).mapM g) := by
  induction entries with
  | nil => exact .ok ⟨[], rfl, rfl⟩
  | cons z entries ih =>
    rw [List.map_cons, List.map_cons, List.mapM_cons, List.mapM_cons]
    refine (h z List.mem_cons_self).bind ?_
    rintro _ _ ⟨e, rfl, rfl⟩
    refine (ih fun x hx => h x (List.mem_cons_of_mem z hx)).bind ?_
    rintro _ _ ⟨es, rfl, rfl⟩
    exact .ok ⟨e :: es, rfl, rfl⟩

/-- Steps that agree from related states on lead to related states. -/
theorem foldlM {f : γ → α → Except ExtractError γ} {g : δ → β → Except ExtractError δ} {u : α → β}
    {entries : List α} (h : ∀ c d, S c d → ∀ a ∈ entries, Agree n S (f c a) (g d (u a))) {c : γ}
    {d : δ} (hs : S c d) : Agree n S (entries.foldlM f c) ((entries.map u).foldlM g d) := by
  induction entries generalizing c d with
  | nil => exact .ok hs
  | cons a entries ih =>
    rw [List.map_cons, List.foldlM_cons, List.foldlM_cons]
    refine (h c d hs a List.mem_cons_self).bind fun c' d' h' => ?_
    exact ih (fun c d hr x hx => h c d hr x (List.mem_cons_of_mem a hx)) h'

end Agree

/-! ## Parts of a view -/

namespace SourceText

open Text (lower)

variable (n : Nat) (view : List Char)

theorem crash_agree {R : α → β → Prop} (offset : Nat) :
    Agree n R (crash offset) (crash (offset + n)) := .error (.cut offset)

/-- Two texts that end with the same one, which stands further down in the second. -/
theorem part_behind {n k : Nat} {rest s t : List Char} (hs : Text.Behind k rest s)
    (ht : Text.Behind (n + k) rest t) (start stop : Nat) :
    Agree n Eq (part s (start + k) (stop + k)) (part t (start + (n + k)) (stop + (n + k))) := by
  have hwidth : Text.width t = Text.width s + n := by
    rw [ht.width_eq, hs.width_eq, Nat.add_comm n, Nat.add_assoc]
  rw [part, part, hs.slice?_eq, ht.slice?_eq]
  cases Text.slice? rest start stop with
  | some text => exact .ok rfl
  | none =>
    rw [hwidth, Nat.add_comm n, ← Nat.add_assoc, ← Nat.add_assoc]
    exact .error (.span _ _ _)

theorem headTo_lower (stop : Nat) :
    Agree n (fun a b => b = lower n a) (headTo view stop) (headTo (lower n view) (stop + n)) := by
  rw [headTo, headTo, Text.takeWidth?_lower]
  cases Text.takeWidth? stop view with
  | some text => exact .ok rfl
  | none => exact crash_agree n stop

theorem tailFrom_behind {n k : Nat} {rest s t : List Char} (hs : Text.Behind k rest s)
    (ht : Text.Behind (n + k) rest t) (start : Nat) :
    Agree n Eq (tailFrom s (start + k)) (tailFrom t (start + (n + k))) := by
  rw [tailFrom, tailFrom, hs.dropWidth?_eq, ht.dropWidth?_eq]
  cases Text.dropWidth? start rest with
  | some text => exact .ok rfl
  | none =>
    rw [Nat.add_comm n, ← Nat.add_assoc]
    exact crash_agree n (start + k)

theorem tailFrom_lower (start : Nat) :
    Agree n Eq (tailFrom view start) (tailFrom (lower n view) (start + n)) :=
  tailFrom_behind (.refl view) (Text.behind_lower n view) start

end SourceText

theorem Statement.startsAt_lower (n : Nat) (masked : List Char) (offset : Nat) (labels : Bool) :
    Agree n Eq (startsAt masked offset labels)
      (startsAt (Text.lower n masked) (offset + n) labels) := by
  rw [startsAt, startsAt, Text.width_lower, Nat.add_min_add_right]
  refine (SourceText.headTo_lower n masked _).map ?_
  rintro before _ rfl
  exact (startsAfter_lower n before labels).symm

end Outline
