import Outline.Proofs.Text.Boundary
import Outline.Text.Utf8

/-!
# The bytes of a text

Decoding the bytes of a text gives the text back.  A character of one byte is
that byte, and all bytes of a wider character are out of the range of ASCII.
-/

namespace Outline
namespace Utf8

/-! ## Reading one character -/

theorem decodeFrom_partly {byte : UInt8} {pending : Pending}
    (h : Start.ofByte byte = .partly pending) (rest : List UInt8) :
    decodeFrom none (byte :: rest) = decodeFrom (some pending) rest := by
  rw [decodeFrom, h]

theorem decodeFrom_more {bits missing low high n : Nat} {byte : UInt8} (hn : byte.toNat = n)
    (hl : low ≤ n) (hh : n ≤ high) (rest : List UInt8) :
    decodeFrom (some ⟨bits, missing + 2, low, high⟩) (byte :: rest) =
      decodeFrom (some ⟨bits * 64 + (n - 0x80), missing + 1, 0x80, 0xBF⟩) rest := by
  have ht : (⟨bits, missing + 2, low, high⟩ : Pending).takes byte = true := by
    simp [Pending.takes, hn, hl, hh]
  have hadd : (⟨bits, missing + 2, low, high⟩ : Pending).add byte =
      ⟨bits * 64 + (n - 0x80), missing + 1, 0x80, 0xBF⟩ := by
    subst hn
    rfl
  rw [decodeFrom, if_pos ht, if_neg (by simp), hadd]

theorem decodeFrom_last {bits low high n : Nat} {byte : UInt8} (hn : byte.toNat = n)
    (hl : low ≤ n) (hh : n ≤ high) (rest : List UInt8) :
    decodeFrom (some ⟨bits, 1, low, high⟩) (byte :: rest) =
      some (Char.ofNat (bits * 64 + (n - 0x80))) :: decodeFrom none rest := by
  have ht : (⟨bits, 1, low, high⟩ : Pending).takes byte = true := by
    simp [Pending.takes, hn, hl, hh]
  have hadd : ((⟨bits, 1, low, high⟩ : Pending).add byte).bits = bits * 64 + (n - 0x80) := by
    subst hn
    rfl
  rw [decodeFrom, if_pos ht, if_pos (Nat.le_refl 1), hadd]

theorem toNat_ofNat {n : Nat} (h : n < 256) : (UInt8.ofNat n).toNat = n := UInt8.toNat_ofNat_of_lt h

/-- The first byte of three opens a range for the second one that keeps out what
is no character. -/
theorem ofByte_three {v : Nat} (hlow : 0x800 ≤ v) (hhigh : v ≤ 0xFFFF)
    (hvalid : v < 0xD800 ∨ 0xDFFF < v) :
    ∃ low high, Start.ofByte (UInt8.ofNat (v / 4096 % 16 + 0xE0)) =
        .partly ⟨v / 4096, 2, low, high⟩ ∧
      low ≤ v / 64 % 64 + 0x80 ∧ v / 64 % 64 + 0x80 ≤ high := by
  have hn := toNat_ofNat (n := v / 4096 % 16 + 0xE0) (by omega)
  rw [Start.ofByte, hn]
  by_cases h0 : v / 4096 = 0
  · exact ⟨0xA0, 0xBF, by simp [h0], by omega, by omega⟩
  · by_cases hd : v / 4096 = 0xD
    · exact ⟨0x80, 0x9F, by simp [hd], by omega, by omega⟩
    · refine ⟨0x80, 0xBF, ?_, by omega, by omega⟩
      rw [if_neg (by omega), if_neg (by omega), if_neg (by omega), if_neg (by omega),
        if_neg (by omega), if_pos (by omega), show v / 4096 % 16 + 0xE0 - 0xE0 = v / 4096 by omega]

/-- The same for the first byte of four. -/
theorem ofByte_four {v : Nat} (hlow : 0xFFFF < v) (hhigh : v < 0x110000) :
    ∃ low high, Start.ofByte (UInt8.ofNat (v / 262144 % 8 + 0xF0)) =
        .partly ⟨v / 262144, 3, low, high⟩ ∧
      low ≤ v / 4096 % 64 + 0x80 ∧ v / 4096 % 64 + 0x80 ≤ high := by
  have hn := toNat_ofNat (n := v / 262144 % 8 + 0xF0) (by omega)
  rw [Start.ofByte, hn]
  by_cases h0 : v / 262144 = 0
  · exact ⟨0x90, 0xBF, by simp [h0], by omega, by omega⟩
  · by_cases h4 : v / 262144 = 4
    · exact ⟨0x80, 0x8F, by simp [h4], by omega, by omega⟩
    · refine ⟨0x80, 0xBF, ?_, by omega, by omega⟩
      rw [if_neg (by omega), if_neg (by omega), if_neg (by omega), if_neg (by omega),
        if_neg (by omega), if_neg (by omega), if_neg (by omega), if_pos (by omega),
        show v / 262144 % 8 + 0xF0 - 0xF0 = v / 262144 by omega]

/-- Decoding goes through one character after the other. -/
theorem decodeFrom_utf8EncodeChar (c : Char) (rest : List UInt8) :
    decodeFrom none (String.utf8EncodeChar c ++ rest) = some c :: decodeFrom none rest := by
  have hvalid : c.toNat < 0xD800 ∨ (0xDFFF < c.toNat ∧ c.toNat < 0x110000) := c.valid
  have hchar : Char.ofNat c.toNat = c := Char.ofNat_toNat c
  rw [String.utf8EncodeChar]
  simp only [show c.val.toNat = c.toNat from rfl]
  generalize c.toNat = v at hvalid hchar
  have hlast := toNat_ofNat (n := v % 64 + 0x80) (by omega)
  have htail : ∀ n, 0x80 ≤ n % 64 + 0x80 ∧ n % 64 + 0x80 ≤ 0xBF := by omega
  split
  · have hfirst := toNat_ofNat (n := v) (by omega)
    simp only [List.cons_append, List.nil_append, decodeFrom, Start.ofByte, hfirst]
    rw [if_pos (by omega)]
    simp only [hchar]
  · split
    · have hfirst := toNat_ofNat (n := v / 64 % 32 + 0xC0) (by omega)
      have hstart : Start.ofByte (UInt8.ofNat (v / 64 % 32 + 0xC0)) =
          .partly ⟨v / 64, 1, 0x80, 0xBF⟩ := by
        rw [Start.ofByte, hfirst, if_neg (by omega), if_neg (by omega), if_pos (by omega),
          show v / 64 % 32 + 0xC0 - 0xC0 = v / 64 by omega]
      simp only [List.cons_append, List.nil_append]
      rw [decodeFrom_partly hstart, decodeFrom_last hlast (htail _).1 (htail _).2,
        show v / 64 * 64 + (v % 64 + 0x80 - 0x80) = v by omega, hchar]
    · have hmiddle := toNat_ofNat (n := v / 64 % 64 + 0x80) (by omega)
      split
      · obtain ⟨low, high, hstart, hl, hh⟩ := ofByte_three (v := v) (by omega) (by omega) (by omega)
        simp only [List.cons_append, List.nil_append]
        rw [decodeFrom_partly hstart, decodeFrom_more hmiddle hl hh,
          decodeFrom_last hlast (htail _).1 (htail _).2,
          show (v / 4096 * 64 + (v / 64 % 64 + 0x80 - 0x80)) * 64 + (v % 64 + 0x80 - 0x80) = v by
            omega, hchar]
      · have hsecond := toNat_ofNat (n := v / 4096 % 64 + 0x80) (by omega)
        obtain ⟨low, high, hstart, hl, hh⟩ := ofByte_four (v := v) (by omega) (by omega)
        simp only [List.cons_append, List.nil_append]
        rw [decodeFrom_partly hstart, decodeFrom_more hsecond hl hh,
          decodeFrom_more hmiddle (htail _).1 (htail _).2,
          decodeFrom_last hlast (htail _).1 (htail _).2,
          show ((v / 262144 * 64 + (v / 4096 % 64 + 0x80 - 0x80)) * 64
            + (v / 64 % 64 + 0x80 - 0x80)) * 64 + (v % 64 + 0x80 - 0x80) = v by omega, hchar]

theorem encode_cons (c : Char) (text : List Char) :
    encode (c :: text) = String.utf8EncodeChar c ++ encode text := List.flatMap_cons

theorem encode_append (a b : List Char) : encode (a ++ b) = encode a ++ encode b :=
  List.flatMap_append

theorem decodeFrom_encode_append (text : List Char) (rest : List UInt8) :
    decodeFrom none (encode text ++ rest) = text.map some ++ decodeFrom none rest := by
  induction text with
  | nil => rfl
  | cons c text ih =>
    rw [encode_cons, List.append_assoc, decodeFrom_utf8EncodeChar, ih, List.map_cons,
      List.cons_append]

/-- The bytes of a text are decoded to the text. -/
theorem decode?_encode (text : List Char) : decode? (encode text) = some text := by
  have h := decodeFrom_encode_append text []
  rw [List.append_nil, decodeFrom, List.append_nil] at h
  have hsome : List.mapM (m := Option) some text = some text := by
    rw [show (some : Char → Option Char) = fun c => pure (id c) from rfl, List.mapM_pure,
      List.map_id]
    rfl
  rw [decode?, decode, h, List.mapM_map]
  exact hsome

theorem length_encode (text : List Char) : (encode text).length = Text.width text := by
  induction text with
  | nil => rfl
  | cons c text ih =>
    rw [encode_cons, List.length_append, String.length_utf8EncodeChar, ih, Text.width_cons]

/-! ## Bytes in and out of the range of ASCII -/

theorem utf8EncodeChar_of_ascii {c : Char} (h : c.toNat < 128) :
    String.utf8EncodeChar c = [UInt8.ofNat c.toNat] := by
  rw [String.utf8EncodeChar]
  simp only [show c.val.toNat = c.toNat from rfl]
  rw [if_pos (by omega)]

theorem le_of_mem_utf8EncodeChar {c : Char} (h : 128 ≤ c.toNat) :
    ∀ byte ∈ String.utf8EncodeChar c, 128 ≤ byte.toNat := by
  intro byte hb
  rw [String.utf8EncodeChar] at hb
  simp only [show c.val.toNat = c.toNat from rfl] at hb
  rw [if_neg (by omega)] at hb
  split at hb
  · simp only [List.mem_cons, List.not_mem_nil, or_false] at hb
    rcases hb with rfl | rfl
    · rw [toNat_ofNat (by omega)]; omega
    · rw [toNat_ofNat (by omega)]; omega
  · split at hb
    · simp only [List.mem_cons, List.not_mem_nil, or_false] at hb
      rcases hb with rfl | rfl | rfl
      · rw [toNat_ofNat (by omega)]; omega
      · rw [toNat_ofNat (by omega)]; omega
      · rw [toNat_ofNat (by omega)]; omega
    · simp only [List.mem_cons, List.not_mem_nil, or_false] at hb
      rcases hb with rfl | rfl | rfl | rfl
      · rw [toNat_ofNat (by omega)]; omega
      · rw [toNat_ofNat (by omega)]; omega
      · rw [toNat_ofNat (by omega)]; omega
      · rw [toNat_ofNat (by omega)]; omega

end Utf8
end Outline

/-!
## Bytes as characters

A pass that goes through a text byte by byte sees each byte as a character of its
own.  For ASCII nothing changes by that: an ASCII character stands at the same
places, and what comes next, whether a word comes next and how far a delimiter
reaches is the same in both readings.
-/

namespace Outline
namespace Utf8

/-- A byte as the character with its number. -/
def charOfByte (byte : UInt8) : Char := Char.ofNat byte.toNat

/-- The bytes of a character, each as a character. -/
def unitsOf (c : Char) : List Char := (String.utf8EncodeChar c).map charOfByte

/-- The bytes of a text, each as a character. -/
def units (text : List Char) : List Char := text.flatMap unitsOf

theorem toNat_charOfByte (byte : UInt8) : (charOfByte byte).toNat = byte.toNat := by
  have h : byte.toNat < 256 := byte.toNat_lt
  rw [charOfByte, Char.ofNat, dif_pos (Or.inl (by omega))]
  rfl

theorem charOfByte_inj {a b : UInt8} (h : charOfByte a = charOfByte b) : a = b := by
  have hn := congrArg Char.toNat h
  rw [toNat_charOfByte, toNat_charOfByte] at hn
  exact UInt8.toNat_inj.mp hn

theorem map_charOfByte_encode (text : List Char) : (encode text).map charOfByte = units text :=
  List.map_flatMap

theorem units_cons (c : Char) (text : List Char) : units (c :: text) = unitsOf c ++ units text :=
  List.flatMap_cons

theorem units_append (a b : List Char) : units (a ++ b) = units a ++ units b := List.flatMap_append

theorem length_unitsOf (c : Char) : (unitsOf c).length = c.utf8Size := by
  rw [unitsOf, List.length_map, String.length_utf8EncodeChar]

theorem length_units (text : List Char) : (units text).length = Text.width text := by
  rw [← map_charOfByte_encode, List.length_map, length_encode]

theorem unitsOf_of_ascii {c : Char} (h : c.toNat < 128) : unitsOf c = [c] := by
  rw [unitsOf, utf8EncodeChar_of_ascii h, List.map_singleton, charOfByte,
    toNat_ofNat (by omega), Char.ofNat_toNat]

theorem le_of_mem_unitsOf {c : Char} (h : 128 ≤ c.toNat) : ∀ u ∈ unitsOf c, 128 ≤ u.toNat := by
  intro u hu
  obtain ⟨byte, hb, rfl⟩ := List.mem_map.mp hu
  rw [toNat_charOfByte]
  exact le_of_mem_utf8EncodeChar h byte hb

theorem units_cons_of_ascii {c : Char} (h : c.toNat < 128) (text : List Char) :
    units (c :: text) = c :: units text := by
  rw [units_cons, unitsOf_of_ascii h, List.singleton_append]

theorem unitsOf_ne_nil (c : Char) : unitsOf c ≠ [] := by
  intro h
  have hlen := length_unitsOf c
  have hpos := Char.utf8Size_pos c
  rw [h, List.length_nil] at hlen
  omega

/-! ### Looking ahead -/

/-- A test that only ASCII characters pass tells the same of the next byte and of
the next character. -/
theorem any_head?_units (test : Char → Bool) (ht : ∀ c, 128 ≤ c.toNat → test c = false)
    (text : List Char) : (units text).head?.any test = text.head?.any test := by
  cases text with
  | nil => rfl
  | cons c text =>
    by_cases hc : c.toNat < 128
    · rw [units_cons_of_ascii hc]
      rfl
    · cases hu : unitsOf c with
      | nil => exact absurd hu (unitsOf_ne_nil c)
      | cons u us =>
        have hwide := @le_of_mem_unitsOf c (by omega) u (by rw [hu]; exact List.mem_cons_self)
        rw [units_cons, hu]
        simp only [List.cons_append, List.head?_cons, Option.any_some, ht u hwide,
          ht c (by omega)]

theorem head?_units_eq_some {x : Char} (hx : x.toNat < 128) (text : List Char) :
    (units text).head? = some x ↔ text.head? = some x := by
  have h := any_head?_units (· == x)
    (fun c hc => beq_false_of_ne (by rintro rfl; omega)) text
  have hany : ∀ o : Option Char, o.any (· == x) = true ↔ o = some x := by
    intro o
    cases o <;> simp
  rw [← hany, ← hany, h]

/-- A text begins with a word as soon as its bytes begin with those of the word. -/
theorem startsWith_units (text word : List Char) :
    Text.startsWith (units text) (units word) = Text.startsWith text word := by
  rw [Bool.eq_iff_iff, Text.startsWith_iff, Text.startsWith_iff]
  constructor
  · rintro ⟨rest, h⟩
    rw [← map_charOfByte_encode, ← map_charOfByte_encode, List.map_eq_append_iff] at h
    obtain ⟨a, b, hab, ha, _⟩ := h
    have hword : a = encode word := (List.map_inj_right fun _ _ => charOfByte_inj).mp ha
    have hdecode := congrArg (decodeFrom none) hab
    rw [hword, decodeFrom_encode_append] at hdecode
    have htext := decodeFrom_encode_append text []
    rw [List.append_nil, decodeFrom, List.append_nil] at htext
    rw [htext] at hdecode
    obtain ⟨a', b', rfl, hmap, _⟩ := List.map_eq_append_iff.mp hdecode
    exact ⟨b', by rw [(List.map_inj_right fun _ _ => Option.some.inj).mp hmap]⟩
  · rintro ⟨rest, rfl⟩
    exact ⟨units rest, units_append _ _⟩

theorem mem_units {x : Char} (hx : x.toNat < 128) (text : List Char) :
    x ∈ units text ↔ x ∈ text := by
  induction text with
  | nil => rfl
  | cons c text ih =>
    by_cases hc : c.toNat < 128
    · rw [units_cons_of_ascii hc, List.mem_cons, List.mem_cons, ih]
    · have hu : x ∉ unitsOf c := fun h => by
        have := @le_of_mem_unitsOf c (by omega) x h
        omega
      have hne : x ≠ c := by rintro rfl; omega
      rw [units_cons, List.mem_append, List.mem_cons, ih]
      simp [hu, hne]

/-- An ASCII byte is a character of the text. -/
theorem exists_of_getElem?_units {x : Char} (hx : x.toNat < 128) {text : List Char} {i : Nat}
    (h : (units text)[i]? = some x) :
    ∃ before rest, text = before ++ x :: rest ∧ Text.width before = i := by
  induction text generalizing i with
  | nil => cases h
  | cons c text ih =>
    rw [units_cons] at h
    rcases Nat.lt_or_ge i (unitsOf c).length with hi | hi
    · rw [List.getElem?_append_left hi] at h
      by_cases hc : c.toNat < 128
      · rw [unitsOf_of_ascii hc] at h hi
        obtain rfl := Nat.lt_one_iff.mp hi
        obtain rfl := Option.some.inj h
        exact ⟨[], text, rfl, rfl⟩
      · have hle := @le_of_mem_unitsOf c (by omega) x (List.mem_of_getElem? h)
        omega
    · rw [List.getElem?_append_right hi] at h
      obtain ⟨before, rest, rfl, hwidth⟩ := ih h
      rw [length_unitsOf] at hi hwidth
      exact ⟨c :: before, rest, rfl, by rw [Text.width_cons]; omega⟩

/-- An ASCII character of a text stands at its place among the bytes. -/
theorem getElem?_units_width {before rest : List Char} {c : Char} (hc : c.toNat < 128) :
    (units (before ++ c :: rest))[Text.width before]? = some c := by
  rw [units_append, units_cons_of_ascii hc, ← length_units,
    List.getElem?_append_right (Nat.le_refl _), Nat.sub_self, List.getElem?_cons_zero]

/-- What a text has at the bytes of one of its characters: the character, or no ASCII. -/
theorem getElem?_units_append {before rest : List Char} {c u : Char} {i : Nat}
    (hle : Text.width before ≤ i) (hlt : i < Text.width before + c.utf8Size)
    (h : (units (before ++ c :: rest))[i]? = some u) :
    u = c ∧ i = Text.width before ∨ 128 ≤ u.toNat := by
  rw [units_append, List.getElem?_append_right (by rwa [length_units]), length_units, units_cons,
    List.getElem?_append_left (by rw [length_unitsOf]; omega)] at h
  by_cases hc : c.toNat < 128
  · rw [unitsOf_of_ascii hc] at h
    have hzero : i - Text.width before = 0 := Nat.lt_one_iff.mp (List.getElem?_eq_some_iff.mp h).1
    rw [hzero, List.getElem?_cons_zero, Option.some.injEq] at h
    exact .inl ⟨h.symm, by omega⟩
  · exact .inr (le_of_mem_unitsOf (Nat.le_of_not_lt hc) u (List.mem_of_getElem? h))

theorem takeWhile_units {x : Char} (hx : x.toNat < 128) (text : List Char) :
    (units text).takeWhile (· != x) = units (text.takeWhile (· != x)) := by
  induction text with
  | nil => rfl
  | cons c text ih =>
    by_cases hc : c.toNat < 128
    · rw [units_cons_of_ascii hc]
      by_cases hcx : c = x
      · subst hcx
        simp [units]
      · rw [List.takeWhile_cons_of_pos (by simpa using hcx),
          List.takeWhile_cons_of_pos (by simpa using hcx), units_cons_of_ascii hc, ih]
    · have hne : c ≠ x := by rintro rfl; omega
      have hall : ∀ u ∈ unitsOf c, (u != x) = true := by
        intro u hu
        have := @le_of_mem_unitsOf c (by omega) u hu
        rw [bne_iff_ne]
        rintro rfl
        omega
      rw [units_cons, List.takeWhile_append_of_pos hall, ih,
        List.takeWhile_cons_of_pos (by simpa using hne), units_cons]

end Utf8
end Outline
