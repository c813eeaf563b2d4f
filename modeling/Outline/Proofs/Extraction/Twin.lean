import Mathlib.Data.List.Forall2
import Outline.Extraction.Language
import Outline.Proofs.Extraction.Outcome
import Outline.Proofs.Source.Blanking

/-!
# Two runs side by side

Two sources may differ in what their masked views hide.  What a recognizer finds in
one of them has a twin in what it finds in the other, but for fields, imports and
diagnostics, which the recognizers of structure never ask for.  Twins stay twins when
they are recorded, and twin scans answer the same questions alike.

How the entries of two functions are related is left open; twin entries agree in all
that is not read from literals or comments.
-/

namespace Outline

/-! ## Two attempts -/

section Attempts

variable {α β γ δ : Type}

/-- The results of two attempts, if both succeed, are related. -/
def Relates (R : α → β → Prop) (x : Except ExtractError α) (y : Except ExtractError β) : Prop :=
  ∀ a b, x = .ok a → y = .ok b → R a b

namespace Relates

variable {R : α → β → Prop} {S : γ → δ → Prop} {x : Except ExtractError α}
  {y : Except ExtractError β}

theorem ok {a : α} {b : β} (h : R a b) : Relates R (.ok a) (.ok b) := by
  rintro _ _ ⟨⟩ ⟨⟩
  exact h

theorem bind {f : α → Except ExtractError γ} {g : β → Except ExtractError δ} (h : Relates R x y)
    (hn : ∀ a b, R a b → Relates S (f a) (g b)) : Relates S (x >>= f) (y >>= g) := by
  cases x with
  | error e => exact fun _ _ hc => nomatch hc
  | ok a =>
    cases y with
    | error e => exact fun _ _ _ hd => nomatch hd
    | ok b => exact hn a b (h a b rfl rfl)

theorem map {f : α → γ} {g : β → δ} (h : Relates R x y) (hf : ∀ a b, R a b → S (f a) (g b)) :
    Relates S (x.map f) (y.map g) := by
  cases x with
  | error e => exact fun _ _ hc => nomatch hc
  | ok a =>
    cases y with
    | error e => exact fun _ _ _ hd => nomatch hd
    | ok b => exact .ok (hf a b (h a b rfl rfl))

theorem both (x : Except ExtractError α) : Relates (· = ·) x x := by
  intro a b ha hb
  rw [ha] at hb
  exact Except.ok.inj hb

theorem some_both (x : Except ExtractError α) :
    Relates (fun a b => ∃ c, a = Option.some c ∧ b = Option.some c) (x.map Option.some)
      (x.map Option.some) :=
  (both x).map fun a _ h => ⟨a, rfl, h ▸ rfl⟩

/-- Both runs make an attempt and go on from its one result. -/
theorem bind_both {x : Except ExtractError α} {f : α → Except ExtractError γ}
    {g : α → Except ExtractError δ} (hn : ∀ a, Relates S (f a) (g a)) :
    Relates S (x >>= f) (x >>= g) :=
  (both x).bind fun a _ h => h ▸ hn a

theorem results (x : Except ExtractError α) (y : Except ExtractError β) :
    Relates (fun a b => x = .ok a ∧ y = .ok b) x y := fun _ _ ha hb => ⟨ha, hb⟩

theorem of_allows {P : α → Prop} {Q : β → Prop} (hx : Allows x P) (hy : Allows y Q)
    (h : ∀ a b, P a → Q b → R a b) : Relates R x y :=
  fun a b ha hb => h a b (hx a ha) (hy b hb)

/-- Steps that keep a relation keep it over a list. -/
theorem foldlM {R : γ → δ → Prop} {f : γ → α → Except ExtractError γ}
    {g : δ → α → Except ExtractError δ} {entries : List α}
    (h : ∀ c d, R c d → ∀ a ∈ entries, Relates R (f c a) (g d a)) {c : γ} {d : δ} (hs : R c d) :
    Relates R (entries.foldlM f c) (entries.foldlM g d) := by
  induction entries generalizing c d with
  | nil => exact .ok hs
  | cons a entries ih =>
    rw [List.foldlM_cons, List.foldlM_cons]
    refine (h c d hs a List.mem_cons_self).bind fun c' d' h' => ?_
    exact ih (fun c d hr x hx => h c d hr x (List.mem_cons_of_mem a hx)) h'

end Relates

end Attempts

/-! ## Lists of related entries -/

section Lists

variable {α β : Type} {R : α → β → Prop} {l : List α} {m : List β}

theorem forall₂_modify {f : α → α} {g : β → β} (h : List.Forall₂ R l m)
    (hf : ∀ a b, R a b → R (f a) (g b)) (index : Nat) :
    List.Forall₂ R (l.modify index f) (m.modify index g) := by
  induction h generalizing index with
  | nil => cases index <;> exact .nil
  | cons hhead htail ih =>
    cases index with
    | zero => exact .cons (hf _ _ hhead) htail
    | succ index => exact .cons hhead (ih index)

theorem forall₂_modify_left {f : α → α} (h : List.Forall₂ R l m)
    (hf : ∀ a b, R a b → R (f a) b) (index : Nat) : List.Forall₂ R (l.modify index f) m := by
  have hboth := forall₂_modify (g := id) h hf index
  rwa [List.modify_id] at hboth

/-- Sorting by an order that sees no difference puts related entries at the same places. -/
theorem forall₂_mergeSort {le : α → α → Bool} {le' : β → β → Bool} (h : List.Forall₂ R l m)
    (hle : ∀ a a' b b', R a b → R a' b' → le a a' = le' b b') :
    List.Forall₂ R (l.mergeSort le) (m.mergeSort le') := by
  -- The pairs are sorted by their first components, and by their second ones as well.
  obtain ⟨hlength, hzip⟩ := List.forall₂_iff_zip.mp h
  have hfst : (List.zip l m).map Prod.fst = l := List.map_fst_zip (Nat.le_of_eq hlength)
  have hsnd : (List.zip l m).map Prod.snd = m := List.map_snd_zip (Nat.le_of_eq hlength.symm)
  have hleft := List.map_mergeSort (r := fun x y : α × β => le x.1 y.1) (s := le) (f := Prod.fst)
    (l := List.zip l m) fun _ _ _ _ => rfl
  have hright := List.map_mergeSort (r := fun x y : α × β => le x.1 y.1) (s := le') (f := Prod.snd)
    (l := List.zip l m) fun x hx y hy => hle x.1 y.1 x.2 y.2 (hzip hx) (hzip hy)
  rw [hfst] at hleft
  rw [hsnd] at hright
  rw [← hleft, ← hright, List.forall₂_map_left_iff, List.forall₂_map_right_iff, List.forall₂_same]
  intro x hx
  exact hzip (List.mem_mergeSort.mp hx)

end Lists

/-! ## Twins -/

/-- A function without what is read from literals and comments. -/
def FunctionEntry.shell (entry : FunctionEntry) : FunctionEntry :=
  { entry with parameters := [], returnType := none, docstring := "", testCandidates := [] }

/-- A class without its members and its documentation. -/
def ClassEntry.shell (entry : ClassEntry) : ClassEntry :=
  { entry with methods := [], properties := [], docstring := "" }

/-- Classes with one shell, whose methods are related. -/
structure ClassEntry.Twin (R : FunctionEntry → FunctionEntry → Prop) (a b : ClassEntry) : Prop where
  shell : a.shell = b.shell
  methods : List.Forall₂ R a.methods b.methods

structure ClassDraft.Twin (R : FunctionEntry → FunctionEntry → Prop) (a b : ClassDraft) : Prop where
  entry : a.entry.Twin R b.entry
  opening : a.opening = b.opening
  close : a.close = b.close
  nested : a.nested = b.nested
  defaultVisibility : a.defaultVisibility = b.defaultVisibility
  labels : a.labels = b.labels

namespace ClassEntry.Twin

variable {R : FunctionEntry → FunctionEntry → Prop} {a b : ClassEntry}

theorem name_eq (h : a.Twin R b) : a.name = b.name := by
  show a.shell.name = b.shell.name
  rw [h.shell]

theorem kind_eq (h : a.Twin R b) : a.kind = b.kind := by
  show a.shell.kind = b.shell.kind
  rw [h.shell]

end ClassEntry.Twin

theorem ClassDraft.Twin.visibilityAt_eq {R : FunctionEntry → FunctionEntry → Prop}
    {a b : ClassDraft} (h : a.Twin R b) (offset : Nat) :
    a.visibilityAt offset = b.visibilityAt offset := by
  rw [visibilityAt, visibilityAt, h.labels, h.defaultVisibility]

/-- The same finding, or one about related entries. -/
inductive Finding.Twin (R : FunctionEntry → FunctionEntry → Prop) : Finding → Finding → Prop
  | package (name : String) : Twin R (.package name) (.package name)
  | block (opening : Nat) (block : Block) : Twin R (.block opening block) (.block opening block)
  | classBody {a b : ClassDraft} (h : a.Twin R b) : Twin R (.classBody a) (.classBody b)
  | label (index offset : Nat) (visibility : Visibility) :
      Twin R (.label index offset visibility) (.label index offset visibility)
  | abstractClass (index : Nat) : Twin R (.abstractClass index) (.abstractClass index)
  | method (index : Nat) {a b : FunctionEntry} (h : R a b) :
      Twin R (.method index a) (.method index b)
  | function {a b : FunctionEntry} (h : R a b) : Twin R (.function a) (.function b)

/-- Whether a finding is one that no recognizer of structure asks for. -/
def Finding.isLoose : Finding → Bool
  | .imported _ | .property .. | .error _ | .warning _ => true
  | _ => false

/-- The findings are twins one by one, loose ones aside. -/
inductive Finding.Twins (R : FunctionEntry → FunctionEntry → Prop) :
    List Finding → List Finding → Prop
  | nil : Twins R [] []
  | cons {f g : Finding} {fs gs : List Finding} (h : f.Twin R g) (hs : Twins R fs gs) :
      Twins R (f :: fs) (g :: gs)
  | left {f : Finding} {fs gs : List Finding} (h : f.isLoose = true) (hs : Twins R fs gs) :
      Twins R (f :: fs) gs
  | right {g : Finding} {fs gs : List Finding} (h : g.isLoose = true) (hs : Twins R fs gs) :
      Twins R fs (g :: gs)

namespace Finding.Twins

variable {R : FunctionEntry → FunctionEntry → Prop} {fs gs fs' gs' : List Finding}

theorem append (h : Twins R fs gs) (k : Twins R fs' gs') : Twins R (fs ++ fs') (gs ++ gs') := by
  induction h with
  | nil => exact k
  | cons h _ ih => exact .cons h ih
  | left h _ ih => exact .left h ih
  | right h _ ih => exact .right h ih

theorem single {f g : Finding} (h : f.Twin R g) : Twins R [f] [g] := .cons h .nil

theorem append_loose (h : Twins R fs gs) (hf : ∀ f ∈ fs', f.isLoose = true)
    (hg : ∀ g ∈ gs', g.isLoose = true) : Twins R (fs ++ fs') (gs ++ gs') := by
  refine h.append ?_
  induction fs' with
  | cons f fs' ih => exact .left (hf f (by simp)) (ih fun x hx => hf x (by simp [hx]))
  | nil =>
    induction gs' with
    | nil => exact .nil
    | cons g gs' ih => exact .right (hg g (by simp)) (ih fun x hx => hg x (by simp [hx]))

theorem of_loose (hf : ∀ f ∈ fs, f.isLoose = true) (hg : ∀ g ∈ gs, g.isLoose = true) :
    Twins R fs gs := append_loose .nil hf hg

end Finding.Twins

/-- All that an attempt finds is loose. -/
def Loose (attempt : Except ExtractError (List Finding)) : Prop :=
  Allows attempt fun fs => ∀ f ∈ fs, f.isLoose = true

/-- Both runs go on from loose findings of their own. -/
theorem Loose.bind {α β : Type} {S : α → β → Prop} {x y : Except ExtractError (List Finding)}
    {f : List Finding → Except ExtractError α} {g : List Finding → Except ExtractError β}
    (hx : Loose x) (hy : Loose y)
    (hn : ∀ fs gs, (∀ f ∈ fs, f.isLoose = true) → (∀ g ∈ gs, g.isLoose = true) →
      Relates S (f fs) (g gs)) : Relates S (x >>= f) (y >>= g) := by
  have h : Relates (fun fs gs => (∀ f ∈ fs, f.isLoose = true) ∧ ∀ g ∈ gs, g.isLoose = true) x y :=
    .of_allows hx hy fun _ _ hf hg => ⟨hf, hg⟩
  exact h.bind fun fs gs hs => hn fs gs hs.1 hs.2

/-- What the scans of two runs have in common. -/
structure Scan.Twin (R : FunctionEntry → FunctionEntry → Prop) (a b : Scan) : Prop where
  package : a.package = b.package
  blocks : a.blocks = b.blocks
  classes : List.Forall₂ (ClassDraft.Twin R) a.classes b.classes
  functions : List.Forall₂ R a.functions b.functions

namespace Scan.Twin

variable {R : FunctionEntry → FunctionEntry → Prop} {a b : Scan}

theorem empty : Scan.Twin R .empty .empty := ⟨rfl, rfl, .nil, .nil⟩

/-! ## Recording -/

theorem record (h : a.Twin R b) {f g : Finding} (hf : f.Twin R g) :
    (a.record f).Twin R (b.record g) := by
  cases hf with
  | package name => exact ⟨rfl, h.blocks, h.classes, h.functions⟩
  | block opening block =>
    exact ⟨h.package, congrArg ((opening, block) :: ·) h.blocks, h.classes, h.functions⟩
  | classBody hd =>
    -- A block refers to its class by index, so both lists of classes are equally long.
    refine ⟨h.package, ?_, List.rel_append h.classes (.cons hd .nil), h.functions⟩
    rw [Scan.record, Scan.record, hd.opening, h.classes.length_eq, h.blocks]
  | label index offset visibility =>
    refine ⟨h.package, h.blocks, forall₂_modify h.classes (fun d e hd => ?_) index, h.functions⟩
    exact { hd with labels := by rw [hd.labels] }
  | abstractClass index =>
    refine ⟨h.package, h.blocks, forall₂_modify h.classes (fun d e hd => ?_) index, h.functions⟩
    have hshell := congrArg (fun entry : ClassEntry => { entry with isAbstract := true })
      hd.entry.shell
    exact { hd with entry := ⟨hshell, hd.entry.methods⟩ }
  | method index he =>
    refine ⟨h.package, h.blocks, forall₂_modify h.classes (fun d e hd => ?_) index, h.functions⟩
    exact { hd with entry := ⟨hd.entry.shell, List.rel_append hd.entry.methods (.cons he .nil)⟩ }
  | function he =>
    exact ⟨h.package, h.blocks, h.classes, List.rel_append h.functions (.cons he .nil)⟩

theorem record_loose (h : a.Twin R b) {f : Finding} (hf : f.isLoose = true) :
    (a.record f).Twin R b := by
  cases f with
  | package | block | classBody | label | abstractClass | method | function =>
    simp [Finding.isLoose] at hf
  | imported | error | warning => exact ⟨h.package, h.blocks, h.classes, h.functions⟩
  | property index entry =>
    refine ⟨h.package, h.blocks, forall₂_modify_left h.classes (fun d e hd => ?_) index,
      h.functions⟩
    exact { hd with entry := ⟨hd.entry.shell, hd.entry.methods⟩ }

theorem flip (h : a.Twin R b) : b.Twin (fun x y => R y x) a where
  package := h.package.symm
  blocks := h.blocks.symm
  classes := .flip <| h.classes.imp fun _ _ hd =>
    ⟨⟨hd.entry.shell.symm, hd.entry.methods.flip⟩, hd.opening.symm, hd.close.symm, hd.nested.symm,
      hd.defaultVisibility.symm, hd.labels.symm⟩
  functions := h.functions.flip

theorem recordAll (h : a.Twin R b) {fs gs : List Finding} (hs : Finding.Twins R fs gs) :
    (a.recordAll fs).Twin R (b.recordAll gs) := by
  induction hs generalizing a b with
  | nil => exact h
  | cons hf _ ih => exact ih (h.record hf)
  | left hf _ ih => exact ih (h.record_loose hf)
  | right hg _ ih => exact ih (h.flip.record_loose hg).flip

/-! ## What recognizers ask of a scan -/

variable {subject : Subject} {offset : Nat}

theorem blockAt?_eq (h : a.Twin R b) (opening : Nat) : a.blockAt? opening = b.blockAt? opening := by
  rw [Scan.blockAt?, Scan.blockAt?, h.blocks]

/-- In both runs no class contains an offset directly, or one does with the same index. -/
theorem classAt?_cases (h : a.Twin R b) (subject : Subject) (offset : Nat) :
    (a.classAt? subject offset = none ∧ b.classAt? subject offset = none) ∨
      ∃ index d e, a.classAt? subject offset = some (index, d) ∧
        b.classAt? subject offset = some (index, e) ∧ d.Twin R e := by
  rw [Scan.classAt?, Scan.classAt?, funext h.blockAt?_eq]
  split
  · next index _ =>
    rcases Nat.lt_or_ge index a.classes.length with hlt | hge
    · have hlt' : index < b.classes.length := h.classes.length_eq ▸ hlt
      refine .inr ⟨index, a.classes[index], b.classes[index], ?_, ?_, ?_⟩
      · rw [List.getElem?_eq_getElem hlt, Option.map_some]
      · rw [List.getElem?_eq_getElem hlt', Option.map_some]
      · exact h.classes.get hlt hlt'
    · rw [List.getElem?_eq_none hge, List.getElem?_eq_none (h.classes.length_eq ▸ hge)]
      exact .inl ⟨rfl, rfl⟩
  · exact .inl ⟨rfl, rfl⟩

theorem inAnyClass_eq (h : a.Twin R b) (offset : Nat) :
    a.inAnyClass offset = b.inAnyClass offset := by
  have hclasses := h.classes
  rw [Scan.inAnyClass, Scan.inAnyClass]
  generalize a.classes = l at hclasses ⊢
  generalize b.classes = m at hclasses ⊢
  induction hclasses with
  | nil => rfl
  | cons hd _ ih => rw [List.any_cons, List.any_cons, ih, hd.opening, hd.close]

theorem atTopLevel_eq (h : a.Twin R b) (subject : Subject) (offset : Nat) :
    a.atTopLevel subject offset = b.atTopLevel subject offset := by
  rw [Scan.atTopLevel, Scan.atTopLevel, h.inAnyClass_eq]
  simp only [h.blockAt?_eq]

theorem scopesAt_eq (h : a.Twin R b) (subject : Subject) (offset : Nat) :
    a.scopesAt subject offset = b.scopesAt subject offset := by
  simp only [Scan.scopesAt, h.blockAt?_eq]

theorem scopeAt_eq (h : a.Twin R b) (subject : Subject) (offset : Nat) :
    a.scopeAt subject offset = b.scopeAt subject offset := by
  rw [Scan.scopeAt, Scan.scopeAt, h.scopesAt_eq, h.package]

theorem inAnonymousScope_eq (h : a.Twin R b) (subject : Subject) (offset : Nat) :
    a.inAnonymousScope subject offset = b.inAnonymousScope subject offset := by
  rw [Scan.inAnonymousScope, Scan.inAnonymousScope, h.scopesAt_eq]

/-- What is asked of the class around an offset has one answer, if it is about what twins
have in common. -/
theorem map_classAt?_eq {α : Type} (h : a.Twin R b) (subject : Subject) (offset : Nat)
    {f : Nat × ClassDraft → α} (hf : ∀ index d e, d.Twin R e → f (index, d) = f (index, e)) :
    (a.classAt? subject offset).map f = (b.classAt? subject offset).map f := by
  obtain ⟨ha, hb⟩ | ⟨index, d, e, ha, hb, hd⟩ := h.classAt?_cases subject offset
  · rw [ha, hb]
  · rw [ha, hb, Option.map_some, Option.map_some, hf index d e hd]

end Scan.Twin

/-! ## Summaries -/

/-- The functions and the classes of two summaries, one by one. -/
structure Summary.Twin (R : FunctionEntry → FunctionEntry → Prop) (a b : Summary) : Prop where
  functions : List.Forall₂ R a.functions b.functions
  classes : List.Forall₂ (ClassEntry.Twin R) a.classes b.classes

theorem Scan.Twin.finish {R : FunctionEntry → FunctionEntry → Prop} {a b : Scan} (h : a.Twin R b)
    (hR : ∀ x y, R x y → x.shell = y.shell) (language : String) :
    (a.finish language).Twin R (b.finish language) := by
  have hle : ∀ x x' y y', R x y → R x' y' →
      decide (x.startLine ≤ x'.startLine) = decide (y.startLine ≤ y'.startLine) := by
    intro x x' y y' hxy hxy'
    have hline : ∀ x y, R x y → x.startLine = y.startLine := by
      intro x y hxy
      show x.shell.startLine = y.shell.startLine
      rw [hR x y hxy]
    rw [hline x y hxy, hline x' y' hxy']
  refine ⟨forall₂_mergeSort h.functions hle, ?_⟩
  show List.Forall₂ (ClassEntry.Twin R) (a.classes.map finishClass) (b.classes.map finishClass)
  rw [List.forall₂_map_left_iff, List.forall₂_map_right_iff]
  exact h.classes.imp fun _ _ hd => ⟨hd.entry.shell, forall₂_mergeSort hd.entry.methods hle⟩

/-! ## Two subjects -/

/-- A subject with another text behind its masked view. -/
def Subject.reread (subject : Subject) (text stripped : List Char) (lines : List (List Char)) :
    Subject :=
  { subject with source := { subject.source with text, stripped, lines } }

section Reread

variable (subject : Subject) (scan : Scan) (text stripped : List Char) (lines : List (List Char))
  (offset start stop : Nat)

@[simp] theorem Subject.masked_reread :
    (subject.reread text stripped lines).masked = subject.masked := rfl

@[simp] theorem Subject.lineOf_reread :
    (subject.reread text stripped lines).lineOf offset = subject.lineOf offset := rfl

@[simp] theorem Subject.body_reread :
    (subject.reread text stripped lines).body offset = subject.body offset := rfl

@[simp] theorem Subject.maskedPart_reread :
    (subject.reread text stripped lines).source.maskedPart start stop =
      subject.source.maskedPart start stop := rfl

@[simp] theorem Scan.classAt?_reread :
    scan.classAt? (subject.reread text stripped lines) offset = scan.classAt? subject offset := rfl

@[simp] theorem Scan.atTopLevel_reread :
    scan.atTopLevel (subject.reread text stripped lines) offset = scan.atTopLevel subject offset :=
  rfl

@[simp] theorem Scan.scopeAt_reread :
    scan.scopeAt (subject.reread text stripped lines) offset = scan.scopeAt subject offset := rfl

@[simp] theorem Scan.inAnonymousScope_reread :
    scan.inAnonymousScope (subject.reread text stripped lines) offset =
      scan.inAnonymousScope subject offset := rfl

end Reread

/-- Texts of one language with one masked view make subjects that differ in what is
behind it. -/
theorem Language.subject_eq_reread {language : Language} {text text' : List Char}
    (h : Mask.masked language.maskRules text = Mask.masked language.maskRules text') :
    language.subject text' = (language.subject text).reread text'
      (Mask.stripped language.maskRules text') (Text.lines text') := by
  have hindex : LineIndex.ofText text = LineIndex.ofText text' := by
    rw [← (Mask.blanks_masked language.maskRules text).lineIndex_eq, h,
      (Mask.blanks_masked language.maskRules text').lineIndex_eq]
  simp [Language.subject, Subject.reread, SourceText.ofText, h, hindex]

theorem Subject.isLoose_of_mem_checkTerminated {subject : Subject} {body : Body} {name : List Char}
    {offset : Nat} {f : Finding} (h : f ∈ subject.checkTerminated body name offset) :
    f.isLoose = true := by
  rw [checkTerminated] at h
  split at h
  · simp at h
  · rw [List.mem_singleton.mp h]
    rfl

/-- Entries with one shell, whose parameters are read from between the same parentheses
of two sources. -/
structure FunctionEntry.ReadAlike (rules : ParameterRules) (s t : Subject) (x y : FunctionEntry) :
    Prop where
  shell : x.shell = y.shell
  parameters : ∃ paren stop left right, Text.charAt? s.masked paren = some '(' ∧
    Delimiter.find s.masked paren = ⟨stop, true⟩ ∧
    s.source.strippedPart (paren + 1) stop = .ok left ∧
    t.source.strippedPart (paren + 1) stop = .ok right ∧
    x.parameters = Parameter.ofList rules left ∧ y.parameters = Parameter.ofList rules right

/-! ## Rules -/

/-- A rule finds twins in two subjects, given twins. -/
def Rule.FindsTwins (R : FunctionEntry → FunctionEntry → Prop) (rule : Rule) (s t : Subject) :
    Prop :=
  ∀ a b : Scan, a.Twin R b → Relates (Scan.Twin R) (rule.run s a) (rule.run t b)

section Rules

variable {R : FunctionEntry → FunctionEntry → Prop} {rule : Rule} {s t : Subject}

theorem Rule.step_twin {a b : Scan} {found : Match} (h : a.Twin R b)
    (hr : Relates (Finding.Twins R) (rule.apply s a found) (rule.apply t b found)) :
    Relates (Scan.Twin R) (rule.step s a found) (rule.step t b found) :=
  hr.map fun _ _ hs => h.recordAll hs

/-- A rule that reads one view in both runs looks at the same matches. -/
theorem Rule.findsTwins_of_apply (htext : rule.text s.source = rule.text t.source)
    (h : ∀ a b : Scan, a.Twin R b → ∀ found ∈ rule.pattern.findAll (rule.text s.source),
      Relates (Finding.Twins R) (rule.apply s a found) (rule.apply t b found)) :
    rule.FindsTwins R s t := by
  intro a b hab
  rw [Rule.run, Rule.run, ← htext]
  refine Relates.foldlM (fun c d hcd found hf => ?_) hab
  exact Rule.step_twin hcd (h c d hcd found hf)

/-- A rule that finds nothing but loose findings leaves a scan a twin of what it was. -/
theorem Rule.run_loose (h : ∀ a found, Loose (rule.apply s a found))
    {a b : Scan} (hab : a.Twin R b) : Allows (rule.run s a) fun a' => a'.Twin R b := by
  refine Allows.foldlM (fun c hc found _ => ?_) hab
  refine (h c found).map fun fs hfs => ?_
  have hs : Finding.Twins R fs [] := .of_loose hfs (by simp)
  exact hc.recordAll hs

theorem Rule.findsTwins_of_loose
    (hs : ∀ a found, Loose (rule.apply s a found)) (ht : ∀ a found, Loose (rule.apply t a found)) :
    rule.FindsTwins R s t := by
  -- The runs need not find as many, so each is held against the scan the other began with.
  intro a b hab a' b' ha hb
  have hleft : a'.Twin R b := Rule.run_loose hs hab a' ha
  exact (Rule.run_loose ht hleft.flip b' hb).flip

theorem Language.scan_twin {language : Language}
    (h : ∀ rule ∈ language.rules, rule.FindsTwins R s t) :
    Relates (Scan.Twin R) (language.scan s) (language.scan t) :=
  Relates.foldlM (fun a b hab rule hr => h rule hr a b hab) .empty

theorem Language.isLoose_of_mem_hints {language : Language} {f : Finding}
    (h : f ∈ language.hints s) : f.isLoose = true := by
  rw [Language.hints, List.mem_append, List.mem_map, List.mem_map] at h
  obtain ⟨_, _, rfl⟩ | ⟨_, _, rfl⟩ := h <;> rfl

/-- Two extractions have twin summaries when each rule finds twins. -/
theorem Language.extract_twin {language : Language} {text text' : List Char}
    (hR : ∀ x y, R x y → x.shell = y.shell)
    (h : ∀ rule ∈ language.rules,
      rule.FindsTwins R (language.subject text) (language.subject text')) :
    Relates (Summary.Twin R) (language.extract text) (language.extract text') := by
  refine (Language.scan_twin h).bind fun a b hab => .ok ?_
  refine Scan.Twin.finish (hab.recordAll ?_) hR language.id
  exact .of_loose (fun _ => Language.isLoose_of_mem_hints) fun _ => Language.isLoose_of_mem_hints

end Rules

end Outline
