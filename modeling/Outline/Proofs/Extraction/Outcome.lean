import Outline.Source.Basic

/-!
# What an attempt at an extraction gives

Two ways to specify an attempt that may fail: `Yields` promises that it succeeds,
`Allows` speaks of its result only if it does.  Both go through sequences, maps
and folds by one rule each.
-/

namespace Outline

variable {α β : Type}

/-- The attempt succeeds, and its result has a property. -/
def Yields (attempt : Except ExtractError α) (P : α → Prop) : Prop :=
  ∃ a, attempt = .ok a ∧ P a

/-- The result of the attempt, if there is one, has a property. -/
def Allows (attempt : Except ExtractError α) (P : α → Prop) : Prop :=
  ∀ a, attempt = .ok a → P a

theorem Yields.allows {attempt : Except ExtractError α} {P : α → Prop} (h : Yields attempt P) :
    Allows attempt P := by
  obtain ⟨a, ha, hp⟩ := h
  intro b hb
  rw [ha, Except.ok.injEq] at hb
  exact hb ▸ hp

theorem Yields.ok {a : α} {P : α → Prop} (h : P a) : Yields (.ok a) P := ⟨a, rfl, h⟩

theorem Allows.ok {a : α} {P : α → Prop} (h : P a) : Allows (.ok a) P := (Yields.ok h).allows

theorem Yields.mono {attempt : Except ExtractError α} {P Q : α → Prop} (h : Yields attempt P)
    (hpq : ∀ a, P a → Q a) : Yields attempt Q := by
  obtain ⟨a, ha, hp⟩ := h
  exact ⟨a, ha, hpq a hp⟩

theorem Allows.mono {attempt : Except ExtractError α} {P Q : α → Prop} (h : Allows attempt P)
    (hpq : ∀ a, P a → Q a) : Allows attempt Q := fun a ha => hpq a (h a ha)

/-- An attempt that succeeds, with what is known of its result if it does. -/
theorem Yields.with_allows {attempt : Except ExtractError α} {P Q : α → Prop}
    (h : Yields attempt P) (k : Allows attempt Q) : Yields attempt Q := by
  obtain ⟨a, ha, _⟩ := h
  exact ⟨a, ha, k a ha⟩

/-! ## Sequences -/

theorem Yields.bind {attempt : Except ExtractError α} {next : α → Except ExtractError β}
    {P : α → Prop} {Q : β → Prop} (h : Yields attempt P) (hn : ∀ a, P a → Yields (next a) Q) :
    Yields (attempt >>= next) Q := by
  obtain ⟨a, rfl, hp⟩ := h
  exact hn a hp

/-- An attempt whose result is known. -/
theorem Yields.bind_of_eq {attempt : Except ExtractError α} {a : α}
    {next : α → Except ExtractError β} {Q : β → Prop} (h : attempt = .ok a)
    (hn : Yields (next a) Q) : Yields (attempt >>= next) Q := by
  rw [h]
  exact hn

theorem Allows.bind {attempt : Except ExtractError α} {next : α → Except ExtractError β}
    {P : α → Prop} {Q : β → Prop} (h : Allows attempt P) (hn : ∀ a, P a → Allows (next a) Q) :
    Allows (attempt >>= next) Q := by
  cases attempt with
  | error e => exact fun _ hb => nomatch hb
  | ok a => exact hn a (h a rfl)

/-- An attempt whose result does not matter. -/
theorem allows_true (attempt : Except ExtractError α) : Allows attempt fun _ => True :=
  fun _ _ => trivial

theorem Yields.map {attempt : Except ExtractError α} {f : α → β} {P : α → Prop} {Q : β → Prop}
    (h : Yields attempt P) (hf : ∀ a, P a → Q (f a)) : Yields (attempt.map f) Q := by
  obtain ⟨a, rfl, hp⟩ := h
  exact ⟨f a, rfl, hf a hp⟩

theorem Allows.map {attempt : Except ExtractError α} {f : α → β} {P : α → Prop} {Q : β → Prop}
    (h : Allows attempt P) (hf : ∀ a, P a → Q (f a)) : Allows (attempt.map f) Q := by
  cases attempt with
  | error e => exact fun _ hb => nomatch hb
  | ok a => exact Allows.ok (hf a (h a rfl))

theorem Yields.some {attempt : Except ExtractError α} {P : α → Prop} (h : Yields attempt P) :
    Yields (attempt.map Option.some) fun result => ∃ a, result = Option.some a ∧ P a :=
  h.map fun a hp => ⟨a, rfl, hp⟩

theorem Allows.some {attempt : Except ExtractError α} {P : α → Prop} (h : Allows attempt P) :
    Allows (attempt.map Option.some) fun result => ∃ a, result = Option.some a ∧ P a :=
  h.map fun a hp => ⟨a, rfl, hp⟩

/-! ## Lists -/

theorem Yields.mapM {f : α → Except ExtractError β} {entries : List α}
    (h : ∀ a ∈ entries, Yields (f a) fun _ => True) : Yields (entries.mapM f) fun _ => True := by
  induction entries with
  | nil => exact .ok trivial
  | cons a entries ih =>
    rw [List.mapM_cons]
    refine (h a List.mem_cons_self).bind fun b _ => ?_
    refine (ih fun x hx => h x (List.mem_cons_of_mem a hx)).bind fun results _ => ?_
    exact .ok trivial

theorem Allows.mapM {f : α → Except ExtractError β} {P : β → Prop} {entries : List α}
    (h : ∀ a ∈ entries, Allows (f a) P) : Allows (entries.mapM f) fun results => ∀ b ∈ results, P b := by
  induction entries with
  | nil => exact .ok (List.forall_mem_nil P)
  | cons a entries ih =>
    rw [List.mapM_cons]
    refine (h a List.mem_cons_self).bind fun b hb => ?_
    refine (ih fun x hx => h x (List.mem_cons_of_mem a hx)).bind fun results hresults => ?_
    exact .ok (List.forall_mem_cons.mpr ⟨hb, hresults⟩)

/-- A property that every step keeps holds after all of them. -/
theorem Yields.foldlM {step : β → α → Except ExtractError β} {P : β → Prop} {entries : List α}
    (h : ∀ b, P b → ∀ a ∈ entries, Yields (step b a) P) {start : β} (hs : P start) :
    Yields (entries.foldlM step start) P := by
  induction entries generalizing start with
  | nil => exact .ok hs
  | cons a entries ih =>
    rw [List.foldlM_cons]
    refine (h start hs a List.mem_cons_self).bind fun b hb => ?_
    exact ih (fun b hb x hx => h b hb x (List.mem_cons_of_mem a hx)) hb

theorem Allows.foldlM {step : β → α → Except ExtractError β} {P : β → Prop} {entries : List α}
    (h : ∀ b, P b → ∀ a ∈ entries, Allows (step b a) P) {start : β} (hs : P start) :
    Allows (entries.foldlM step start) P := by
  induction entries generalizing start with
  | nil => exact .ok hs
  | cons a entries ih =>
    rw [List.foldlM_cons]
    refine (h start hs a List.mem_cons_self).bind fun b hb => ?_
    exact ih (fun b hb x hx => h b hb x (List.mem_cons_of_mem a hx)) hb

end Outline
