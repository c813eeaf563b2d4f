import Outline.Proofs.Source.Lexing
import Mathlib.Order.Bounds.Basic

/-!
# The first place where delimiters are even

A delimiter is matched with the first place in code up to which as many delimiters were
closed as were opened, and with the last place of the text where there is none.  Comments and
quoted text do not count.
-/

namespace Outline
namespace Delimiter

open Utf8 (units unitsOf units_cons units_cons_of_ascii length_unitsOf)

/-! ## The bytes of code -/

/-- The bytes of code, each at its place; where others are there is nothing. -/
def codeFrom (mode : Mode) (bytes : List Char) : List (Option Char) :=
  List.zipWith (fun part c => if part = .code then some c else none) (partsFrom mode bytes) bytes

theorem codeFrom_cons {mode : Mode} {c : Char} {rest : List Char} (hm : mode.Fits (c :: rest)) :
    codeFrom mode (units (c :: rest)) =
      (unitsOf c).map (fun u => if partOf mode c rest = .code then some u else none) ++
        codeFrom (mode.after c rest) (units rest) := by
  by_cases hc : c.toNat < 128
  · rw [units_cons_of_ascii hc, Utf8.unitsOf_of_ascii hc, codeFrom, partsFrom_cons]
    rfl
  · have hzip : ∀ us : List Char,
        List.zipWith (fun part c => if part = Part.code then some c else none)
        (List.replicate us.length (partOf mode c rest)) us =
          us.map fun u => if partOf mode c rest = .code then some u else none := by
      intro us
      induction us with
      | nil => rfl
      | cons u us ih => rw [List.length_cons, List.replicate_succ, List.zipWith_cons_cons, ih]; rfl
    rw [codeFrom, partsFrom_wide hm (Nat.le_of_not_lt hc), units_cons, ← length_unitsOf,
      List.zipWith_append (by rw [List.length_replicate]), hzip]
    rfl

/-! ## The depth -/

/-- What a byte of code adds to the depth. -/
def weight (opening closing : Char) (mark : Option Char) : Int :=
  if mark = some opening then 1 else if mark = some closing then -1 else 0

/-- The depth behind the first `n` bytes, with what is opened in code less what is closed. -/
def level (opening closing : Char) (marks : List (Option Char)) (n : Nat) : Int :=
  (marks.take n).count (some opening) - (marks.take n).count (some closing)

/-- Where a depth first comes to zero. -/
def closeIn (opening closing : Char) : Int → Nat → List (Option Char) → Option Nat
  | _, _, [] => none
  | depth, offset, mark :: marks =>
    if depth + weight opening closing mark = 0 then some offset
    else closeIn opening closing (depth + weight opening closing mark) (offset + 1) marks

section

variable {opening closing : Char} {depth : Int} {offset : Nat} {marks : List (Option Char)}

theorem level_zero : level opening closing marks 0 = 0 := rfl

theorem level_cons (hne : opening ≠ closing) (mark : Option Char) (n : Nat) :
    level opening closing (mark :: marks) (n + 1) =
      weight opening closing mark + level opening closing marks n := by
  have hmarks : some opening ≠ some closing := fun h => hne (Option.some.inj h)
  rw [level, level, weight, List.take_succ_cons]
  split
  · next ho =>
    rw [ho, List.count_cons_self, List.count_cons_of_ne hmarks]
    omega
  · next ho =>
    rw [List.count_cons_of_ne ho]
    split
    · next hc =>
      rw [hc, List.count_cons_self]
      omega
    · next hc =>
      rw [List.count_cons_of_ne hc]
      omega

theorem neg_one_le_weight (mark : Option Char) : -1 ≤ weight opening closing mark := by
  rw [weight]
  split
  · decide
  · split <;> decide

theorem eq_closing_of_weight {mark : Option Char} (h : weight opening closing mark < 0) :
    mark = some closing := by
  rw [weight] at h
  split at h
  · cases h
  · split at h
    · next hc => exact hc
    · cases h

/-- Where a depth comes to zero a delimiter is closed, and it was positive up to there. -/
theorem of_closeIn (hne : opening ≠ closing) (hdepth : 0 < depth) {close : Nat}
    (h : closeIn opening closing depth offset marks = some close) :
    ∃ n, close = offset + n ∧ marks[n]? = some (some closing) ∧
      depth + level opening closing marks (n + 1) = 0 ∧
      ∀ k ≤ n, 0 < depth + level opening closing marks k := by
  induction marks generalizing depth offset with
  | nil => cases h
  | cons mark marks ih =>
    have hstep : -1 ≤ weight opening closing mark := neg_one_le_weight mark
    have hfirst : 0 < depth + level opening closing (mark :: marks) 0 := by
      rw [level_zero]
      omega
    rw [closeIn] at h
    split at h
    · next hzero =>
      refine ⟨0, (Option.some.inj h).symm, ?_, ?_, fun k hk => Nat.le_zero.mp hk ▸ hfirst⟩
      · have hweight : weight opening closing mark < 0 := by omega
        rw [List.getElem?_cons_zero, eq_closing_of_weight hweight]
      · rw [level_cons hne, level_zero]
        omega
    · next hzero =>
      obtain ⟨n, rfl, hclosing, hend, hbefore⟩ := ih (by omega) h
      refine ⟨n + 1, by omega, hclosing, ?_, fun k hk => ?_⟩
      · rw [level_cons hne]
        omega
      · cases k with
        | zero => exact hfirst
        | succ k =>
          have hk := hbefore k (Nat.le_of_succ_le_succ hk)
          rw [level_cons hne]
          omega

/-- A depth that does not come to zero stays positive. -/
theorem of_closeIn_eq_none (hne : opening ≠ closing) (hdepth : 0 < depth)
    (h : closeIn opening closing depth offset marks = none) (k : Nat) :
    0 < depth + level opening closing marks k := by
  induction marks generalizing depth offset k with
  | nil => rw [level, List.take_nil]; simpa using hdepth
  | cons mark marks ih =>
    have hstep : -1 ≤ weight opening closing mark := neg_one_le_weight mark
    rw [closeIn] at h
    split at h
    · cases h
    · next hzero =>
      cases k with
      | zero =>
        rw [level_zero]
        omega
      | succ k =>
        have hk := ih (by omega) h k
        rw [level_cons hne]
        omega

theorem closeIn_append (hdepth : 0 < depth) {others : List (Option Char)}
    (h : ∀ mark ∈ others, weight opening closing mark = 0) :
    closeIn opening closing depth offset (others ++ marks) =
      closeIn opening closing depth (offset + others.length) marks := by
  induction others generalizing offset with
  | nil => rfl
  | cons mark others ih =>
    obtain ⟨hmark, hothers⟩ := List.forall_mem_cons.mp h
    rw [List.cons_append, closeIn, hmark, Int.add_zero, if_neg (by omega), ih hothers,
      List.length_cons, Nat.add_assoc, Nat.add_comm 1]

/-! ## The matcher and the depth -/

/-- A character that begins and ends neither a comment nor quoted text. -/
def IsInert (c : Char) : Prop := c ≠ '"' ∧ c ≠ '\'' ∧ c ≠ '/' ∧ c ≠ '\n' ∧ c.toNat < 128

theorem isInert_of_closing? (hd : closing? opening = some closing) :
    IsInert opening ∧ IsInert closing := by
  unfold closing? at hd
  split at hd <;> cases hd <;> exact ⟨by unfold IsInert; decide, by unfold IsInert; decide⟩

theorem IsInert.partOf_eq_code_iff {c : Char} (h : IsInert c) (mode : Mode) (rest : List Char) :
    partOf mode c rest = .code ↔ mode = .code := by
  obtain ⟨hdouble, hsingle, hslash, hfeed, -⟩ := h
  cases mode with
  | code => simp [partOf, Mode.after, hdouble, hsingle, hslash]
  | lineComment => simp [partOf, hfeed]
  | blockComment | quoted | escape | pass => simp [partOf]

theorem IsInert.after_code {c : Char} (h : IsInert c) (rest : List Char) :
    Mode.code.after c rest = .code := by
  rw [Mode.after, if_neg (by simp [h.1, h.2.1]), if_neg (by simp [h.2.2.1]),
    if_neg (by simp [h.2.2.1])]

theorem IsInert.codeFrom_cons {c : Char} (h : IsInert c) (rest : List Char) :
    codeFrom .code (units (c :: rest)) =
      some c :: codeFrom (Mode.code.after c rest) (units rest) := by
  have hm : Mode.code.Fits (c :: rest) := trivial
  rw [Delimiter.codeFrom_cons hm, Utf8.unitsOf_of_ascii h.2.2.2.2, List.map_singleton,
    if_pos ((h.partOf_eq_code_iff .code rest).mpr rfl), List.singleton_append]

/-- A character that is not in code or is another one gives no mark of a delimiter. -/
theorem IsInert.not_marked {c d : Char} {mode : Mode} {rest : List Char} (h : IsInert d)
    (hne : ¬ (mode = .code ∧ c = d)) :
    ∀ mark ∈ (unitsOf c).map (fun u => if partOf mode c rest = .code then some u else none),
      mark ≠ some d := by
  rintro mark hmark rfl
  obtain ⟨u, hu, hmark⟩ := List.mem_map.mp hmark
  split at hmark
  · next hcode =>
    obtain rfl := Option.some.inj hmark
    have hmem : u ∈ units [c] := by rwa [units_cons, units, List.flatMap_nil, List.append_nil]
    obtain rfl := List.mem_singleton.mp ((Utf8.mem_units h.2.2.2.2 [c]).mp hmem)
    exact hne ⟨(h.partOf_eq_code_iff mode rest).mp hcode, rfl⟩
  · cases hmark

/-- The matcher counts the depth over the bytes of code. -/
theorem closeFrom_eq_closeIn (hd : closing? opening = some closing) {mode : Mode} {depth : Nat}
    {text : List Char} (hm : mode.Fits text) (hdepth : 0 < depth) :
    closeFrom opening closing mode depth offset text =
      closeIn opening closing depth offset (codeFrom mode (units text)) := by
  obtain ⟨hopening, hclosing⟩ := isInert_of_closing? hd
  obtain ⟨hone, hone', hne, -⟩ := closing?_some hd
  have hwo : weight opening closing (some opening) = 1 := if_pos rfl
  have hwc : weight opening closing (some closing) = -1 := by
    rw [weight, if_neg fun h => hne (Option.some.inj h).symm, if_pos rfl]
  induction text generalizing mode depth offset with
  | nil =>
    have hnil : codeFrom mode (units []) = [] := List.zipWith_nil_right
    rw [hnil]
    rfl
  | cons c rest ih =>
    have hmark : ∀ d, IsInert d → mode = .code → c = d →
        codeFrom mode (units (c :: rest)) =
          some d :: codeFrom (mode.after c rest) (units rest) := by
      rintro d h rfl rfl
      exact h.codeFrom_cons rest
    rw [closeFrom]
    split
    · next ho =>
      rw [hmark opening hopening ho.1 ho.2, closeIn, hwo, if_neg (by omega),
        ih hm.after (Nat.succ_pos depth), ho.2, hone]
      rfl
    · next ho =>
      split
      · next hc =>
        rw [hmark closing hclosing hc.1 hc.2, closeIn, hwc]
        split
        · rw [if_pos (by omega)]
        · rw [if_neg (by omega), ih hm.after (by omega), hc.2, hone',
            Int.ofNat_sub hdepth]
          rfl
      · next hc =>
        have hothers : ∀ mark ∈ (unitsOf c).map (fun u =>
            if partOf mode c rest = .code then some u else none), weight opening closing mark = 0 :=
          fun mark h => by
            rw [weight, if_neg (hopening.not_marked ho mark h),
              if_neg (hclosing.not_marked hc mark h)]
        rw [codeFrom_cons hm, closeIn_append (by omega) hothers, List.length_map, length_unitsOf,
          ih hm.after hdepth]

end

/-! ## The match -/

/-- The delimiters that are matched, each with the one that closes it. -/
def pairs : List (Char × Char) := [('\x7b', '\x7d'), ('(', ')'), ('[', ']'), ('<', '>')]

theorem closing?_of_mem_pairs {opening closing : Char} (h : (opening, closing) ∈ pairs) :
    closing? opening = some closing := by
  simp only [pairs, List.mem_cons, Prod.mk.injEq, List.not_mem_nil, or_false] at h
  rcases h with ⟨rfl, rfl⟩ | ⟨rfl, rfl⟩ | ⟨rfl, rfl⟩ | ⟨rfl, rfl⟩ <;> rfl

/-- The bytes of code of a text, each at its place. -/
def codeOf (bytes : List Char) : List (Option Char) :=
  List.zipWith (fun part c => if part = .code then some c else none) (parts bytes) bytes

/-- Place `c` is in code, behind place `i`, and from `i` up to `c` code closes as many delimiters
as it opens. -/
structure Evens (opening closing : Char) (bytes : List Char) (i c : Nat) : Prop where
  lt : i < c
  code : (parts (bytes.drop i))[c - i]? = some .code
  even : ((codeOf (bytes.drop i)).take (c - i + 1)).count (some closing) =
    ((codeOf (bytes.drop i)).take (c - i + 1)).count (some opening)

section

variable {opening closing : Char} {text : List Char} {i : Nat}

theorem of_getElem?_codeOf {bytes : List Char} {n : Nat} {c : Char}
    (h : (codeOf bytes)[n]? = some (some c)) :
    (parts bytes)[n]? = some .code ∧ bytes[n]? = some c := by
  rw [codeOf, List.getElem?_zipWith] at h
  split at h
  · next part u hpart hu =>
    rw [Option.some.injEq] at h
    split at h
    · next hcode => exact ⟨hcode ▸ hpart, hu.trans h⟩
    · cases h
  · cases h

/-- The match of an opening delimiter is looked for among what is code behind it. -/
theorem find_eq_closeIn (hd : closing? opening = some closing) (before rest : List Char) :
    find (before ++ opening :: rest) (Text.width before) =
      ((closeIn opening closing 1 (Text.width before + 1) (codeFrom .code (units rest))).map
        fun close => ⟨close, true⟩).getD
          ⟨(units (before ++ opening :: rest)).length - 1, false⟩ := by
  obtain ⟨hopening, -⟩ := isInert_of_closing? hd
  obtain ⟨hone, -⟩ := closing?_some hd
  have hclose : closeOf? (Text.width before) (opening :: rest) =
      closeIn opening closing 1 (Text.width before + 1) (codeFrom .code (units rest)) := by
    rw [closeOf?, hd, Option.bind_some, closeFrom, if_pos ⟨rfl, rfl⟩, hopening.after_code, hone]
    exact closeFrom_eq_closeIn hd trivial (Nat.succ_pos 0)
  rw [find, Text.dropWidth?_width_append]
  simp only [hd, Option.isNone_some, Bool.false_eq_true, if_false, hclose, lastOffset,
    Utf8.length_units]
  cases closeIn opening closing 1 (Text.width before + 1) (codeFrom .code (units rest)) <;> rfl

/-- The match is where the depth first comes to zero behind an opening delimiter, and where it does
not the last place. -/
theorem find_of_opening (hd : closing? opening = some closing)
    (hi : (units text)[i]? = some opening) :
    (∃ n, 0 < n ∧ find text i = ⟨i + n, true⟩ ∧
      (codeOf ((units text).drop i))[n]? = some (some closing) ∧
      level opening closing (codeOf ((units text).drop i)) (n + 1) = 0 ∧
      ∀ k, 0 < k → k ≤ n → 0 < level opening closing (codeOf ((units text).drop i)) k) ∨
    find text i = ⟨(units text).length - 1, false⟩ ∧
      ∀ k, 0 < k → 0 < level opening closing (codeOf ((units text).drop i)) k := by
  obtain ⟨hopening, -⟩ := isInert_of_closing? hd
  obtain ⟨-, -, hne, -⟩ := closing?_some hd
  obtain ⟨before, rest, rfl, rfl⟩ := Utf8.exists_of_getElem?_units hopening.2.2.2.2 hi
  have hmarks : codeOf ((units (before ++ opening :: rest)).drop (Text.width before)) =
      some opening :: codeFrom .code (units rest) := by
    have hcons := hopening.codeFrom_cons rest
    rw [hopening.after_code] at hcons
    rw [Utf8.units_append, ← Utf8.length_units, List.drop_left]
    exact hcons
  have hweight : weight opening closing (some opening) = 1 := if_pos rfl
  rw [hmarks, find_eq_closeIn hd]
  cases hclose :
      closeIn opening closing 1 (Text.width before + 1) (codeFrom .code (units rest)) with
  | some close =>
    obtain ⟨n, rfl, hclosing, hend, hbefore⟩ := of_closeIn hne (by decide) hclose
    refine .inl ⟨n + 1, Nat.succ_pos n, ?_, hclosing, ?_, ?_⟩
    · rw [Option.map_some, Option.getD_some, Nat.add_assoc, Nat.add_comm 1]
    · rw [level_cons hne, hweight]
      exact hend
    · rintro (_ | k) hpos hk
      · cases hpos
      · rw [level_cons hne, hweight]
        exact hbefore k (Nat.le_of_succ_le_succ hk)
  | none =>
    refine .inr ⟨rfl, ?_⟩
    rintro (_ | k) hpos
    · cases hpos
    · rw [level_cons hne, hweight]
      exact of_closeIn_eq_none hne (by decide) hclose k

theorem Evens.level_eq_zero {bytes : List Char} {c : Nat} (h : Evens opening closing bytes i c) :
    level opening closing (codeOf (bytes.drop i)) (c - i + 1) = 0 := by
  rw [level, h.even, Int.sub_self]

theorem evens_of_level {bytes : List Char} {n : Nat} (hpos : 0 < n)
    (hclosing : (codeOf (bytes.drop i))[n]? = some (some closing))
    (hzero : level opening closing (codeOf (bytes.drop i)) (n + 1) = 0) :
    Evens opening closing bytes i (i + n) := by
  refine ⟨Nat.lt_add_of_pos_right hpos, ?_, ?_⟩
  · rw [Nat.add_sub_cancel_left]
    exact (of_getElem?_codeOf hclosing).1
  · rw [Nat.add_sub_cancel_left]
    rw [level] at hzero
    omega

/-- A delimiter is matched with the first place behind it where code is even, and with the last
place of the text where there is none.  Up to there the depth is never negative. -/
theorem find_isLeast (hd : (opening, closing) ∈ pairs) (hi : (units text)[i]? = some opening) :
    ((∃ c, Evens opening closing (units text) i c) → (find text i).terminated = true ∧
      IsLeast {c | Evens opening closing (units text) i c} (find text i).close) ∧
    ((¬ ∃ c, Evens opening closing (units text) i c) →
      find text i = ⟨(units text).length - 1, false⟩) ∧
    i ≤ (find text i).close ∧ (find text i).close < (units text).length ∧
    ∀ n ≤ (find text i).close + 1 - i,
      0 ≤ level opening closing (codeOf ((units text).drop i)) n := by
  have hlength : i < (units text).length := (List.getElem?_eq_some_iff.mp hi).1
  rcases find_of_opening (closing?_of_mem_pairs hd) hi with
    ⟨n, hpos, hfind, hclosing, hzero, hbefore⟩ | ⟨hfind, hbefore⟩
  · have hevens : Evens opening closing (units text) i (i + n) :=
      evens_of_level hpos hclosing hzero
    have hbyte := (of_getElem?_codeOf hclosing).2
    rw [List.getElem?_drop] at hbyte
    rw [hfind]
    refine ⟨fun _ => ⟨rfl, hevens, fun c hc => ?_⟩, fun hnone => absurd ⟨_, hevens⟩ hnone,
      Nat.le_add_right i n, (List.getElem?_eq_some_iff.mp hbyte).1, fun k hk => ?_⟩
    · by_contra hle
      have hlt : c < i + n := Nat.lt_of_not_le hle
      have hpositive := hbefore (c - i + 1) (Nat.succ_pos _) (by omega)
      exact absurd hc.level_eq_zero (Int.ne_of_gt hpositive)
    · rcases Nat.eq_zero_or_pos k with rfl | hk0
      · exact Int.le_refl 0
      · rcases Nat.lt_or_ge n k with hnk | hnk
        · have hlast : k ≤ i + n + 1 - i := hk
          obtain rfl : k = n + 1 := by omega
          exact Int.le_of_eq hzero.symm
        · exact Int.le_of_lt (hbefore k hk0 hnk)
  · have hnone : ¬ ∃ c, Evens opening closing (units text) i c := fun hsome => by
      obtain ⟨c, hc⟩ := hsome
      exact absurd hc.level_eq_zero (Int.ne_of_gt (hbefore (c - i + 1) (Nat.succ_pos _)))
    rw [hfind]
    refine ⟨fun hsome => absurd hsome hnone, fun _ => rfl, Nat.le_sub_one_of_lt hlength,
      Nat.sub_one_lt_of_lt hlength, fun k _ => ?_⟩
    rcases Nat.eq_zero_or_pos k with rfl | hk0
    · exact Int.le_refl 0
    · exact Int.le_of_lt (hbefore k hk0)

end

theorem find_isLeast_quoted :
    IsLeast {c | Evens '\x7b' '\x7d' (units "é \x7b '\\'\x7d' /* \x7d */ \x7d".toList) 3 c} 19 := by
  have h := @find_isLeast '\x7b' '\x7d' "é \x7b '\\'\x7d' /* \x7d */ \x7d".toList 3
    (by decide) (by decide)
  have hfind : find "é \x7b '\\'\x7d' /* \x7d */ \x7d".toList 3 = ⟨19, true⟩ := by decide
  rw [hfind] at h
  by_cases hsome : ∃ c, Evens '\x7b' '\x7d' (units "é \x7b '\\'\x7d' /* \x7d */ \x7d".toList) 3 c
  · exact (h.1 hsome).2
  · cases h.2.1 hsome

end Delimiter
end Outline
