import Outline.Proofs.Source.Delimiter
import Outline.Proofs.Text.Utf8

/-!
# Code, comments and quoted text

The matcher of delimiters goes through a text character by character and keeps the mode it
is in.  What it takes for code is told here without a mode, from where comments and quoted
text begin and how far they reach, for the bytes of a text.
-/

namespace Outline
namespace Delimiter

open Utf8 (units unitsOf units_cons units_cons_of_ascii head?_units_eq_some le_of_mem_unitsOf
  length_unitsOf)

/-! ## Comments and quoted text -/

/-- What a byte belongs to. -/
inductive Part
  | code
  | comment
  | quoted
  deriving DecidableEq, Repr

/-- The number of bytes in front of the end of the line. -/
def lineSpan (bytes : List Char) : Nat := (bytes.takeWhile (· != '\n')).length

/-- The number of bytes up to the first `*/` and with it, and of all bytes where there is none. -/
def blockSpan : List Char → Nat
  | [] => 0
  | c :: rest => if c = '*' ∧ rest.head? = some '/' then 2 else blockSpan rest + 1

/-- The number of bytes up to the quote or line feed that ends quoted text and with it, and of
all bytes where there is none.  A backslash takes the next byte along. -/
def quotedSpan (quote : Char) : List Char → Nat
  | [] => 0
  | ['\\'] => 1
  | '\\' :: _ :: rest => quotedSpan quote rest + 2
  | c :: rest => if c = quote ∨ c = '\n' then 1 else quotedSpan quote rest + 1

/-- What the bytes of a text belong to, one after the other.  A line comment goes from `//` to
the end of the line, another comment from `/*` to `*/`, and quoted text from a quote to the
same quote or the end of the line. -/
def parts : List Char → List Part
  | [] => []
  | c :: rest =>
    if c = '"' ∨ c = '\'' then
      List.replicate (quotedSpan c rest + 1) .quoted ++ parts (rest.drop (quotedSpan c rest))
    else if c = '/' ∧ rest.head? = some '/' then
      List.replicate (lineSpan rest + 1) .comment ++ parts (rest.drop (lineSpan rest))
    else if c = '/' ∧ rest.head? = some '*' then
      List.replicate (blockSpan rest.tail + 2) .comment ++
        parts (rest.tail.drop (blockSpan rest.tail))
    else .code :: parts rest
termination_by bytes => bytes.length

theorem lineSpan_le (bytes : List Char) : lineSpan bytes ≤ bytes.length :=
  (List.takeWhile_prefix _).length_le

theorem blockSpan_le (bytes : List Char) : blockSpan bytes ≤ bytes.length := by
  fun_induction blockSpan bytes with
  | case1 => exact Nat.le_refl 0
  | case2 c rest h =>
    obtain ⟨after, rfl⟩ := List.head?_eq_some_iff.mp h.2
    simp
  | case3 c rest _ ih => exact Nat.succ_le_succ ih

theorem quotedSpan_le (quote : Char) (bytes : List Char) :
    quotedSpan quote bytes ≤ bytes.length := by
  fun_induction quotedSpan quote bytes with
  | case1 => exact Nat.le_refl 0
  | case2 => exact Nat.le_refl 1
  | case3 _ rest ih => exact Nat.add_le_add_right ih 2
  | case4 => exact Nat.succ_le_succ (Nat.zero_le _)
  | case5 _ _ _ _ _ ih => exact Nat.succ_le_succ ih

/-- Each byte belongs to one part. -/
theorem length_parts (bytes : List Char) : (parts bytes).length = bytes.length := by
  have hspan : ∀ {rest : List Char} {n : Nat} {part : Part}, n ≤ rest.length →
      (parts (rest.drop n)).length = (rest.drop n).length →
      (List.replicate n part ++ parts (rest.drop n)).length = rest.length := by
    intro rest n part hle h
    rw [List.length_append, List.length_replicate, h, List.length_drop]
    omega
  fun_induction parts bytes with
  | case1 => rfl
  | case2 c rest _ ih => exact congrArg Nat.succ (hspan (quotedSpan_le c rest) ih)
  | case3 c rest _ _ ih => exact congrArg Nat.succ (hspan (lineSpan_le rest) ih)
  | case4 c rest _ _ h ih =>
    obtain ⟨after, rfl⟩ := List.head?_eq_some_iff.mp h.2
    exact congrArg (· + 2) (hspan (blockSpan_le after) ih)
  | case5 c rest _ _ _ ih => exact congrArg Nat.succ ih

/-! ## Reading on from within -/

/-- What the bytes belong to when the first `n` of them belong to one part. -/
def partsAfter (part : Part) (n : Nat) (bytes : List Char) : List Part :=
  List.replicate n part ++ parts (bytes.drop n)

/-- What the bytes belong to when the first of them is read in a mode. -/
def partsFrom : Mode → List Char → List Part
  | .code, bytes => parts bytes
  | .lineComment, bytes => partsAfter .comment (lineSpan bytes) bytes
  | .blockComment, bytes => partsAfter .comment (blockSpan bytes) bytes
  | .quoted quote, bytes => partsAfter .quoted (quotedSpan quote bytes) bytes
  | .escape _, [] => []
  | .escape quote, _ :: bytes => .quoted :: partsAfter .quoted (quotedSpan quote bytes) bytes
  | .pass _, [] => []
  | .pass next, _ :: bytes => .comment :: partsFrom next bytes

/-- What a character belongs to. -/
def partOf (mode : Mode) (c : Char) (rest : List Char) : Part :=
  match mode with
  | .code =>
    match mode.after c rest with
    | .code => .code
    | .quoted _ => .quoted
    | _ => .comment
  | .lineComment => if c = '\n' then .code else .comment
  | .blockComment | .pass _ => .comment
  | .quoted _ | .escape _ => .quoted

/-- What the reader relies on in a mode: quotes are ASCII, and what is passed over is the
second character of `/*` or `*/`. -/
def Mode.Fits : Mode → List Char → Prop
  | .quoted quote, _ | .escape quote, _ => quote.toNat < 128
  | .pass next, text =>
    next = .blockComment ∧ text.head? = some '*' ∨ next = .code ∧ text.head? = some '/'
  | _, _ => True

theorem Mode.Fits.after {mode : Mode} {c : Char} {rest : List Char} (h : mode.Fits (c :: rest)) :
    (mode.after c rest).Fits rest := by
  cases mode with
  | code =>
    simp only [Mode.after]
    split
    · next hq => rcases hq with rfl | rfl <;> exact show (_ : Nat) < 128 by decide
    split
    · trivial
    split
    · next hs => exact .inl ⟨rfl, hs.2⟩
    · trivial
  | lineComment => simp only [Mode.after]; split <;> trivial
  | blockComment =>
    simp only [Mode.after]
    split
    · next hs => exact .inr ⟨rfl, hs.2⟩
    · trivial
  | quoted quote =>
    simp only [Mode.after]
    split
    · exact h
    split
    · trivial
    · exact h
  | escape quote => exact h
  | pass next => rcases h with ⟨rfl, -⟩ | ⟨rfl, -⟩ <;> trivial

section

variable {us bytes : List Char}

theorem partsAfter_append (part : Part) (n : Nat) (us bytes : List Char) :
    partsAfter part (us.length + n) (us ++ bytes) =
      List.replicate us.length part ++ partsAfter part n bytes := by
  rw [partsAfter, partsAfter, ← List.replicate_append_replicate, List.append_assoc,
    List.drop_length_add_append]

theorem partsAfter_zero (part : Part) (bytes : List Char) : partsAfter part 0 bytes = parts bytes :=
  rfl

theorem partsAfter_cons (part : Part) (n : Nat) (c : Char) (bytes : List Char) :
    partsAfter part (n + 1) (c :: bytes) = part :: partsAfter part n bytes := rfl

theorem ne_of_wide {c x : Char} (hc : 128 ≤ c.toNat) (hx : x.toNat < 128) : c ≠ x := by
  rintro rfl
  omega

theorem parts_wide (h : ∀ u ∈ us, 128 ≤ u.toNat) :
    parts (us ++ bytes) = List.replicate us.length .code ++ parts bytes := by
  induction us with
  | nil => rfl
  | cons u us ih =>
    obtain ⟨hu, hus⟩ := List.forall_mem_cons.mp h
    have hne := fun x hx => @ne_of_wide u x hu hx
    rw [List.cons_append, parts, if_neg (by simp [hne '"' (by decide), hne '\'' (by decide)]),
      if_neg (by simp [hne '/' (by decide)]), if_neg (by simp [hne '/' (by decide)]), ih hus]
    rfl

theorem lineSpan_wide (h : ∀ u ∈ us, 128 ≤ u.toNat) :
    lineSpan (us ++ bytes) = us.length + lineSpan bytes := by
  have hall : ∀ u ∈ us, (u != '\n') = true := fun u hu =>
    bne_iff_ne.mpr (ne_of_wide (h u hu) (by decide))
  rw [lineSpan, List.takeWhile_append_of_pos hall, List.length_append, lineSpan]

theorem blockSpan_wide (h : ∀ u ∈ us, 128 ≤ u.toNat) :
    blockSpan (us ++ bytes) = us.length + blockSpan bytes := by
  induction us with
  | nil => exact (Nat.zero_add _).symm
  | cons u us ih =>
    obtain ⟨hu, hus⟩ := List.forall_mem_cons.mp h
    rw [List.cons_append, blockSpan,
      if_neg (by simp [ne_of_wide hu (show '*'.toNat < 128 by decide)]),
      ih hus, List.length_cons]
    omega

theorem quotedSpan_cons {quote c : Char} (hc : c ≠ '\\') :
    quotedSpan quote (c :: bytes) =
      if c = quote ∨ c = '\n' then 1 else quotedSpan quote bytes + 1 := by
  rw [quotedSpan]
  · exact fun h _ => hc h
  · exact fun _ _ h _ => hc h

theorem quotedSpan_wide {quote : Char} (hq : quote.toNat < 128) (h : ∀ u ∈ us, 128 ≤ u.toNat) :
    quotedSpan quote (us ++ bytes) = us.length + quotedSpan quote bytes := by
  induction us with
  | nil => exact (Nat.zero_add _).symm
  | cons u us ih =>
    obtain ⟨hu, hus⟩ := List.forall_mem_cons.mp h
    have hne := fun x hx => @ne_of_wide u x hu hx
    rw [List.cons_append, quotedSpan_cons (hne '\\' (by decide)),
      if_neg (by simp [hne quote hq, hne '\n' (by decide)]), ih hus, List.length_cons]
    omega

end

/-- A character out of ASCII belongs to one part as a whole, and nothing begins or ends there. -/
theorem partsFrom_wide {mode : Mode} {c : Char} {rest : List Char} (hm : mode.Fits (c :: rest))
    (hc : 128 ≤ c.toNat) : partsFrom mode (units (c :: rest)) =
      List.replicate c.utf8Size (partOf mode c rest) ++
        partsFrom (mode.after c rest) (units rest) := by
  have hwide := le_of_mem_unitsOf hc
  have hne := fun x hx => @ne_of_wide c x hc hx
  rw [units_cons, ← length_unitsOf]
  cases mode with
  | code =>
    have hafter : Mode.code.after c rest = .code := by
      rw [Mode.after, if_neg (by simp [hne '"' (by decide), hne '\'' (by decide)]),
        if_neg (by simp [hne '/' (by decide)]), if_neg (by simp [hne '/' (by decide)])]
    rw [partOf, hafter]
    exact parts_wide hwide
  | lineComment =>
    have hafter : Mode.lineComment.after c rest = .lineComment := if_neg (hne '\n' (by decide))
    rw [partOf, hafter, if_neg (hne '\n' (by decide)), partsFrom, lineSpan_wide hwide,
      partsAfter_append]
    rfl
  | blockComment =>
    have hafter : Mode.blockComment.after c rest = .blockComment :=
      if_neg (by simp [hne '*' (by decide)])
    rw [hafter, partsFrom, blockSpan_wide hwide, partsAfter_append]
    rfl
  | quoted quote =>
    have hafter : (Mode.quoted quote).after c rest = .quoted quote := by
      rw [Mode.after, if_neg (hne '\\' (by decide)),
        if_neg (by simp [hne quote hm, hne '\n' (by decide)])]
    rw [hafter, partsFrom, quotedSpan_wide hm hwide, partsAfter_append]
    rfl
  | escape quote =>
    cases hu : unitsOf c with
    | nil => exact absurd hu (Utf8.unitsOf_ne_nil c)
    | cons u us =>
      have hus : ∀ u ∈ us, 128 ≤ u.toNat := fun v hv => hwide v (hu ▸ List.mem_cons_of_mem u hv)
      rw [List.cons_append, partsFrom, quotedSpan_wide hm hus, partsAfter_append]
      rfl
  | pass next =>
    rcases hm with ⟨-, hhead⟩ | ⟨-, hhead⟩
    · exact absurd (Option.some.inj hhead) (hne '*' (by decide))
    · exact absurd (Option.some.inj hhead) (hne '/' (by decide))

/-- An ASCII character is a byte, and ends a part or begins one. -/
theorem partsFrom_cons (mode : Mode) (c : Char) (rest : List Char) :
    partsFrom mode (c :: units rest) =
      partOf mode c rest :: partsFrom (mode.after c rest) (units rest) := by
  have hslash := head?_units_eq_some (x := '/') (by decide) rest
  have hstar := head?_units_eq_some (x := '*') (by decide) rest
  cases mode with
  | code =>
    rw [partsFrom, parts, partOf, Mode.after]
    simp only [hslash, hstar]
    split
    · rfl
    split
    · rfl
    split
    · next hs =>
      obtain ⟨bytes, hbytes⟩ := List.head?_eq_some_iff.mp (hstar.mpr hs.2)
      rw [hbytes]
      rfl
    · rfl
  | lineComment =>
    rw [partsFrom, partOf, Mode.after]
    by_cases hc : c = '\n'
    · subst hc
      rw [if_pos rfl, if_pos rfl, partsFrom, show lineSpan ('\n' :: units rest) = 0 from rfl,
        partsAfter_zero, parts, if_neg (by decide), if_neg (by simp), if_neg (by simp)]
    · have hspan : lineSpan (c :: units rest) = lineSpan (units rest) + 1 := by
        rw [lineSpan, List.takeWhile_cons_of_pos (by simpa using hc), List.length_cons, lineSpan]
      rw [if_neg hc, if_neg hc, hspan, partsAfter_cons]
      rfl
  | blockComment =>
    rw [partsFrom, partOf, Mode.after, blockSpan]
    simp only [hslash]
    split
    · next hs =>
      obtain ⟨bytes, hbytes⟩ := List.head?_eq_some_iff.mp (hslash.mpr hs.2)
      rw [hbytes]
      rfl
    · rfl
  | quoted quote =>
    rw [partsFrom, partOf, Mode.after]
    by_cases hc : c = '\\'
    · subst hc
      rw [if_pos rfl]
      cases units rest with
      | nil =>
        show partsAfter .quoted 1 ['\\'] = [.quoted]
        rw [partsAfter_cons, partsAfter_zero, parts]
      | cons u us => rfl
    · rw [if_neg hc, quotedSpan_cons hc]
      split
      · rfl
      · rfl
  | escape quote => rfl
  | pass next => rfl

end Delimiter
end Outline
