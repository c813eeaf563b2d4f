import Outline.Proofs.Pattern.Matches

/-!
# What the shape of a pattern tells about its matches

The functions here look at a pattern only, so for a given pattern they are
computed.  Each comes with the statement about all matches that it decides.
-/

namespace Outline

namespace Cursor

/-- A place is reached from another by reading a text. -/
def Reads (c : Cursor) (text : List Char) (d : Cursor) : Prop :=
  c.rest = text ++ d.rest ∧ d.offset = c.offset + Text.width text

theorem Reads.refl (c : Cursor) : c.Reads [] c := ⟨rfl, rfl⟩

theorem Reads.trans {c d e : Cursor} {a b : List Char} (h : c.Reads a d) (k : d.Reads b e) :
    c.Reads (a ++ b) e := by
  refine ⟨by rw [h.1, k.1, List.append_assoc], ?_⟩
  rw [k.2, h.2, Text.width_append, Nat.add_assoc]

theorem Reads.offset_le {c d : Cursor} {text : List Char} (h : c.Reads text d) :
    c.offset ≤ d.offset := by
  rw [h.2]
  exact Nat.le_add_right _ _

/-- The stretch from a place to one that is reached from it holds what is read. -/
theorem Reads.capture_eq {c d : Cursor} {text : List Char} (h : c.Reads text d) (base : Nat) :
    c.capture base d.offset = ⟨base + c.offset, text⟩ := by
  have hw : d.offset - c.offset = Text.width text := by rw [h.2]; omega
  rw [capture, hw, h.1, Text.takeWidth?_width_append, Option.getD_some]

end Cursor

/-- A mark lies on the way from one place to another. -/
def Mark.Within (mark : Mark) (c d : Cursor) : Prop :=
  ∃ lead part trail stop, c.Reads lead mark.start ∧ mark.start.Reads part stop ∧
    stop.offset = mark.stop ∧ stop.Reads trail d

/-- The latest mark with a label, of marks listed latest first. -/
def latest (label : Part) (marks : List Mark) : Option Mark := marks.find? (·.label == label)

theorem latest_append (label : Part) (ns ms : List Mark) :
    latest label (ns ++ ms) = (latest label ns).or (latest label ms) := List.find?_append

theorem latest_cons_self (mark : Mark) (ms : List Mark) :
    latest mark.label (mark :: ms) = some mark := List.find?_cons_of_pos (by simp)

theorem latest_cons_of_ne {label : Part} {mark : Mark} (h : mark.label ≠ label) (ms : List Mark) :
    latest label (mark :: ms) = latest label ms := List.find?_cons_of_neg (by simpa using h)

theorem mem_of_latest {label : Part} {marks : List Mark} {mark : Mark}
    (h : latest label marks = some mark) : mark ∈ marks ∧ mark.label = label :=
  ⟨List.mem_of_find?_eq_some h, by simpa using List.find?_some h⟩

namespace Mark

theorem Within.mono {mark : Mark} {b c d e : Cursor} {s t : List Char} (h : mark.Within c d)
    (hs : b.Reads s c) (ht : d.Reads t e) : mark.Within b e := by
  obtain ⟨lead, part, trail, stop, hl, hp, ho, hr⟩ := h
  exact ⟨s ++ lead, part, trail ++ t, stop, hs.trans hl, hp, ho, hr.trans ht⟩

theorem Within.le_start {mark : Mark} {c d : Cursor} (h : mark.Within c d) :
    c.offset ≤ mark.start.offset := by
  obtain ⟨_, _, _, _, hl, _⟩ := h
  exact hl.offset_le

theorem Within.start_le {mark : Mark} {c d : Cursor} (h : mark.Within c d) :
    mark.start.offset ≤ d.offset := by
  obtain ⟨_, _, _, stop, _, hp, _, hr⟩ := h
  exact Nat.le_trans hp.offset_le hr.offset_le

end Mark

namespace Pattern

/-! ## Where a match leads, and where its marks lie -/

theorem Matches.reads {p : Pattern} {c d : Cursor} {ms : List Mark} (h : Matches p c d ms) :
    ∃ text, c.Reads text d := by
  induction h with
  | empty c => exact ⟨[], .refl c⟩
  | @char _ _ _ a _ _ => exact ⟨[a], rfl, by simp⟩
  | word text => exact ⟨text, rfl, rfl⟩
  | seq _ _ ihp ihq =>
    obtain ⟨s, hs⟩ := ihp
    obtain ⟨t, ht⟩ := ihq
    exact ⟨s ++ t, hs.trans ht⟩
  | altLeft _ _ ih => exact ih
  | altRight _ _ ih => exact ih
  | starNil _ _ c => exact ⟨[], .refl c⟩
  | starCons _ _ ihp ihq =>
    obtain ⟨s, hs⟩ := ihp
    obtain ⟨t, ht⟩ := ihq
    exact ⟨s ++ t, hs.trans ht⟩
  | runNil _ _ c => exact ⟨[], .refl c⟩
  | runCons _ _ ihp ihq =>
    obtain ⟨s, hs⟩ := ihp
    obtain ⟨t, ht⟩ := ihq
    exact ⟨s ++ t, hs.trans ht⟩
  | part _ _ ih => exact ih
  | @boundary c _ => exact ⟨[], .refl c⟩
  | @lineStart c _ => exact ⟨[], .refl c⟩
  | @textStart c _ => exact ⟨[], .refl c⟩
  | @textEnd c _ => exact ⟨[], .refl c⟩

theorem Matches.offset_le {p : Pattern} {c d : Cursor} {ms : List Mark} (h : Matches p c d ms) :
    c.offset ≤ d.offset := by
  obtain ⟨_, ht⟩ := h.reads
  exact ht.offset_le

/-- The marks of two matches in a row lie on the way of both. -/
theorem within_append {p q : Pattern} {c d e : Cursor} {ms ns : List Mark} (hp : Matches p c d ms)
    (hq : Matches q d e ns) (ihp : ∀ m ∈ ms, m.Within c d) (ihq : ∀ m ∈ ns, m.Within d e) :
    ∀ m ∈ ns ++ ms, m.Within c e := by
  intro m hm
  obtain ⟨s, hs⟩ := hp.reads
  obtain ⟨t, ht⟩ := hq.reads
  rcases List.mem_append.mp hm with hm | hm
  · exact (ihq m hm).mono hs (.refl e)
  · exact (ihp m hm).mono (.refl c) ht

theorem Matches.within {p : Pattern} {c d : Cursor} {ms : List Mark} (h : Matches p c d ms) :
    ∀ m ∈ ms, m.Within c d := by
  induction h with
  | seq hp hq ihp ihq => exact within_append hp hq ihp ihq
  | starCons hp hq ihp ihq => exact within_append hp hq ihp ihq
  | runCons hp hq ihp ihq => exact within_append hp hq ihp ihq
  | altLeft _ _ ih => exact ih
  | altRight _ _ ih => exact ih
  | @part label _ c d ms h ih =>
    intro m hm
    rcases List.mem_cons.mp hm with rfl | hm
    · obtain ⟨t, ht⟩ := h.reads
      exact ⟨[], t, [], d, .refl c, ht, rfl, .refl d⟩
    · exact ih m hm
  | _ => simp

/-! ## Labels -/

/-- Whether some match of the pattern may leave a mark with a label. -/
def mentions (label : Part) : Pattern → Bool
  | .seq p q | .alt p q => p.mentions label || q.mentions label
  | .star _ p => p.mentions label
  | .part l p => l == label || p.mentions label
  | _ => false

/-- Whether every match of the pattern leaves a mark with a label. -/
def always (label : Part) : Pattern → Bool
  | .seq p q => p.always label || q.always label
  | .alt p q => p.always label && q.always label
  | .part l p => l == label || p.always label
  | _ => false

theorem Matches.label_ne {p : Pattern} {c d : Cursor} {ms : List Mark} {label : Part}
    (h : Matches p c d ms) (hp : p.mentions label = false) : ∀ m ∈ ms, m.label ≠ label := by
  induction h with
  | seq _ _ ihp ihq =>
    rw [mentions, Bool.or_eq_false_iff] at hp
    intro m hm
    rcases List.mem_append.mp hm with hm | hm
    · exact ihq hp.2 m hm
    · exact ihp hp.1 m hm
  | altLeft _ _ ih => exact ih (Bool.or_eq_false_iff.mp hp).1
  | altRight _ _ ih => exact ih (Bool.or_eq_false_iff.mp hp).2
  | starCons _ _ ihp ihq =>
    intro m hm
    rcases List.mem_append.mp hm with hm | hm
    · exact ihq hp m hm
    · exact ihp hp m hm
  | runCons _ _ ihp ihq =>
    intro m hm
    rcases List.mem_append.mp hm with hm | hm
    · exact ihq rfl m hm
    · exact ihp rfl m hm
  | part l _ ih =>
    rw [mentions, Bool.or_eq_false_iff] at hp
    intro m hm
    rcases List.mem_cons.mp hm with rfl | hm
    · simpa using hp.1
    · exact ih hp.2 m hm
  | _ => simp

theorem Matches.latest_eq_none {p : Pattern} {c d : Cursor} {ms : List Mark} {label : Part}
    (h : Matches p c d ms) (hp : p.mentions label = false) : latest label ms = none := by
  rw [latest, List.find?_eq_none]
  intro m hm
  simpa using h.label_ne hp m hm

theorem Matches.latest_isSome {p : Pattern} {c d : Cursor} {ms : List Mark} {label : Part}
    (h : Matches p c d ms) (hp : p.always label = true) : ∃ m, latest label ms = some m := by
  induction h with
  | seq _ _ ihp ihq =>
    rw [latest_append]
    rcases Bool.or_eq_true_iff.mp hp with hp | hp
    · obtain ⟨m, hm⟩ := ihp hp
      rw [hm]
      cases latest label _ with
      | none => exact ⟨m, rfl⟩
      | some n => exact ⟨n, rfl⟩
    · obtain ⟨m, hm⟩ := ihq hp
      exact ⟨m, by rw [hm]; rfl⟩
  | altLeft _ _ ih => exact ih (Bool.and_eq_true_iff.mp hp).1
  | altRight _ _ ih => exact ih (Bool.and_eq_true_iff.mp hp).2
  | @part l _ c d ms _ ih =>
    by_cases hl : l = label
    · exact hl ▸ ⟨_, latest_cons_self ⟨l, c, d.offset⟩ ms⟩
    · rw [always, Bool.or_eq_true, beq_iff_eq] at hp
      obtain ⟨m, hm⟩ := ih (hp.resolve_left hl)
      exact ⟨m, by rw [latest_cons_of_ne hl, hm]⟩
  | _ => simp [always] at hp

/-- Whether the latest part `x` of a match, if there is one, starts no later than
the latest part `y`, which then exists. -/
def startsBefore (x y : Part) : Pattern → Bool
  | .seq p q =>
    (q.startsBefore x y && (q.always y || !p.mentions x))
      || (p.startsBefore x y && !q.mentions x && !q.mentions y)
      || (q.always y && !q.mentions x)
  | .alt p q => p.startsBefore x y && q.startsBefore x y
  | .part label p =>
    x != y && ((label == x && p.always y && !p.mentions x)
      || (label == y && !p.mentions x)
      || (label != x && label != y && p.startsBefore x y))
  | _ => false

theorem Matches.startsBefore {p : Pattern} {c d : Cursor} {ms : List Mark} {x y : Part} {mx : Mark}
    (h : Matches p c d ms) (hp : p.startsBefore x y = true) (hx : latest x ms = some mx) :
    ∃ my, latest y ms = some my ∧ mx.start.offset ≤ my.start.offset := by
  induction h with
  | @seq p q c d e ms ns hm hn ihp ihq =>
    rw [latest_append] at hx ⊢
    simp only [Pattern.startsBefore, Bool.or_eq_true, Bool.and_eq_true, Bool.not_eq_true'] at hp
    -- A mark of the second match starts where the first one stops, or later.
    have hlater : ∀ {my}, latest y ns = some my → latest x ms = some mx →
        mx.start.offset ≤ my.start.offset := fun hy hx =>
      Nat.le_trans (hm.within _ (mem_of_latest hx).1).start_le
        (hn.within _ (mem_of_latest hy).1).le_start
    rcases hp with (⟨hq, hor⟩ | ⟨⟨hp, hnx⟩, hny⟩) | ⟨hy, hnx⟩
    · cases hqx : latest x ns with
      | some m =>
        rw [hqx, Option.some_or, Option.some.injEq] at hx
        obtain ⟨my, hmy, hle⟩ := ihq hq (hx ▸ hqx)
        exact ⟨my, by rw [hmy, Option.some_or], hle⟩
      | none =>
        rw [hqx, Option.none_or] at hx
        rcases hor with hy | hpx
        · obtain ⟨my, hmy⟩ := hn.latest_isSome hy
          exact ⟨my, by rw [hmy, Option.some_or], hlater hmy hx⟩
        · rw [hm.latest_eq_none hpx] at hx
          exact absurd hx (by simp)
    · rw [hn.latest_eq_none hnx, Option.none_or] at hx
      rw [hn.latest_eq_none hny, Option.none_or]
      exact ihp hp hx
    · rw [hn.latest_eq_none hnx, Option.none_or] at hx
      obtain ⟨my, hmy⟩ := hn.latest_isSome hy
      exact ⟨my, by rw [hmy, Option.some_or], hlater hmy hx⟩
  | altLeft _ _ ih => exact ih (Bool.and_eq_true_iff.mp hp).1 hx
  | altRight _ _ ih => exact ih (Bool.and_eq_true_iff.mp hp).2 hx
  | @part label p c d ms hm ih =>
    simp only [Pattern.startsBefore, Bool.or_eq_true, Bool.and_eq_true, Bool.not_eq_true',
      bne_iff_ne, beq_iff_eq] at hp
    obtain ⟨hxy, (⟨⟨rfl, hy⟩, _⟩ | ⟨rfl, hnx⟩) | ⟨⟨hlx, hly⟩, hp⟩⟩ := hp
    · obtain ⟨my, hmy⟩ := hm.latest_isSome hy
      rw [latest_cons_self ⟨label, c, d.offset⟩, Option.some.injEq] at hx
      subst hx
      exact ⟨my, by rw [latest_cons_of_ne hxy, hmy], (hm.within _ (mem_of_latest hmy).1).le_start⟩
    · rw [latest_cons_of_ne (Ne.symm hxy), hm.latest_eq_none hnx] at hx
      exact absurd hx (by simp)
    · rw [latest_cons_of_ne hlx] at hx
      obtain ⟨my, hmy, hle⟩ := ih hp hx
      exact ⟨my, by rw [latest_cons_of_ne hly, hmy], hle⟩
  | _ => simp [Pattern.startsBefore] at hp

/-! ## First characters -/

/-- Whether every match of the pattern reads at least one character. -/
def consumes : Pattern → Bool
  | .char _ => true
  | .word text => !text.isEmpty
  | .seq p q => p.consumes || q.consumes
  | .alt p q => p.consumes && q.consumes
  | .part _ p => p.consumes
  | _ => false

/-- Whether no match of the pattern begins by reading a character. -/
def avoids (bad : Char) : Pattern → Bool
  | .char test | .run _ test => !test bad
  | .word text => text.head? != some bad
  | .seq p q => p.avoids bad && (p.consumes || q.avoids bad)
  | .alt p q => p.avoids bad && q.avoids bad
  | .star _ p | .part _ p => p.avoids bad
  | _ => true

/-- Whether all parts with a label begin with a character other than a given
one. -/
def partAvoids (label : Part) (bad : Char) : Pattern → Bool
  | .seq p q | .alt p q => p.partAvoids label bad && q.partAvoids label bad
  | .star _ p => p.partAvoids label bad
  | .part l p => (l != label || (p.consumes && p.avoids bad)) && p.partAvoids label bad
  | _ => true

theorem Matches.offset_lt {p : Pattern} {c d : Cursor} {ms : List Mark} (h : Matches p c d ms)
    (hp : p.consumes = true) : c.offset < d.offset := by
  induction h with
  | @char _ _ offset a _ _ =>
    have ha : 0 < a.utf8Size := Char.utf8Size_pos a
    show offset < offset + a.utf8Size
    omega
  | word text _ offset =>
    cases text with
    | nil => simp [consumes] at hp
    | cons a text =>
      have ha : 0 < a.utf8Size := Char.utf8Size_pos a
      show offset < offset + Text.width (a :: text)
      rw [Text.width_cons]
      omega
  | seq hm hn ihp ihq =>
    rcases Bool.or_eq_true_iff.mp hp with hp | hp
    · exact Nat.lt_of_lt_of_le (ihp hp) hn.offset_le
    · exact Nat.lt_of_le_of_lt hm.offset_le (ihq hp)
  | altLeft _ _ ih => exact ih (Bool.and_eq_true_iff.mp hp).1
  | altRight _ _ ih => exact ih (Bool.and_eq_true_iff.mp hp).2
  | part _ _ ih => exact ih hp
  | _ => simp [consumes] at hp

theorem Matches.ne_nil {p : Pattern} {c d : Cursor} {ms : List Mark} {text : List Char}
    (h : Matches p c d ms) (hp : p.consumes = true) (ht : c.Reads text d) : text ≠ [] := by
  have hlt := h.offset_lt hp
  intro hnil
  rw [ht.2, hnil, Text.width_nil] at hlt
  omega

/-- The first character of two texts read in a row. -/
theorem head?_append_ne {a b : List Char} {bad : Char} (ha : a.head? ≠ some bad)
    (hb : a = [] → b.head? ≠ some bad) : (a ++ b).head? ≠ some bad := by
  cases a with
  | nil => exact hb rfl
  | cons c a => exact ha

theorem Matches.head?_ne {p : Pattern} {c d : Cursor} {ms : List Mark} {bad : Char}
    (h : Matches p c d ms) (hp : p.avoids bad = true) :
    ∃ text, c.Reads text d ∧ text.head? ≠ some bad := by
  induction h with
  | @char test _ _ a _ ht =>
    refine ⟨[a], ⟨rfl, by simp⟩, fun he => ?_⟩
    rw [List.head?_cons, Option.some.injEq] at he
    subst he
    simp [avoids, ht] at hp
  | word text => exact ⟨text, ⟨rfl, rfl⟩, by simpa [avoids] using hp⟩
  | seq hm hn ihp ihq =>
    simp only [avoids, Bool.and_eq_true, Bool.or_eq_true] at hp
    obtain ⟨s, hs, hsb⟩ := ihp hp.1
    rcases hp.2 with hc | hq
    · obtain ⟨t, ht⟩ := hn.reads
      exact ⟨s ++ t, hs.trans ht, head?_append_ne hsb fun he => absurd he (hm.ne_nil hc hs)⟩
    · obtain ⟨t, ht, htb⟩ := ihq hq
      exact ⟨s ++ t, hs.trans ht, head?_append_ne hsb fun _ => htb⟩
  | altLeft _ _ ih => exact ih (Bool.and_eq_true_iff.mp hp).1
  | altRight _ _ ih => exact ih (Bool.and_eq_true_iff.mp hp).2
  | starCons _ _ ihp ihq =>
    obtain ⟨s, hs, hsb⟩ := ihp hp
    obtain ⟨t, ht, htb⟩ := ihq hp
    exact ⟨s ++ t, hs.trans ht, head?_append_ne hsb fun _ => htb⟩
  | runCons _ _ ihp ihq =>
    obtain ⟨s, hs, hsb⟩ := ihp hp
    obtain ⟨t, ht, htb⟩ := ihq hp
    exact ⟨s ++ t, hs.trans ht, head?_append_ne hsb fun _ => htb⟩
  | part _ _ ih => exact ih hp
  | _ => exact ⟨[], .refl _, by simp⟩

/-- A part whose pattern avoids a character begins with another one. -/
theorem Matches.partAvoids {p : Pattern} {c d : Cursor} {ms : List Mark} {label : Part} {bad : Char}
    (h : Matches p c d ms) (hp : p.partAvoids label bad = true) :
    ∀ m ∈ ms, m.label = label →
      ∃ a rest, m.start.rest = a :: rest ∧ a ≠ bad ∧ m.start.offset < m.stop := by
  induction h with
  | seq _ _ ihp ihq =>
    rw [Pattern.partAvoids, Bool.and_eq_true] at hp
    intro m hm
    rcases List.mem_append.mp hm with hm | hm
    · exact ihq hp.2 m hm
    · exact ihp hp.1 m hm
  | altLeft _ _ ih => exact ih (Bool.and_eq_true_iff.mp hp).1
  | altRight _ _ ih => exact ih (Bool.and_eq_true_iff.mp hp).2
  | starCons _ _ ihp ihq =>
    intro m hm
    rcases List.mem_append.mp hm with hm | hm
    · exact ihq hp m hm
    · exact ihp hp m hm
  | runCons _ _ ihp ihq =>
    intro m hm
    rcases List.mem_append.mp hm with hm | hm
    · exact ihq rfl m hm
    · exact ihp rfl m hm
  | @part l p c d ms hm ih =>
    simp only [Pattern.partAvoids, Bool.and_eq_true, Bool.or_eq_true, bne_iff_ne] at hp
    intro m hmem hl
    rcases List.mem_cons.mp hmem with rfl | hmem
    · obtain ⟨hc, ha⟩ := hp.1.resolve_left fun hne => hne hl
      obtain ⟨text, ht, hb⟩ := hm.head?_ne ha
      cases text with
      | nil => exact absurd rfl (hm.ne_nil hc ht)
      | cons a text =>
        refine ⟨a, text ++ d.rest, ht.1, fun he => hb ?_, hm.offset_lt hc⟩
        rw [he, List.head?_cons]
    · exact ih hp.2 m hmem hl
  | _ => simp

/-! ## Parts and their bodies -/

/-- What the parts with a label are made of. -/
def bodies (label : Part) : Pattern → List Pattern
  | .seq p q | .alt p q => p.bodies label ++ q.bodies label
  | .star _ p => p.bodies label
  | .part l p => if l = label then p :: p.bodies label else p.bodies label
  | _ => []

/-- A mark is left by a match of the body of a part with its label. -/
theorem Matches.exists_body {p : Pattern} {c d : Cursor} {ms : List Mark} (h : Matches p c d ms) :
    ∀ m ∈ ms, ∃ q ∈ p.bodies m.label, ∃ stop ns,
      Matches q m.start stop ns ∧ stop.offset = m.stop := by
  induction h with
  | seq _ _ ihp ihq =>
    intro m hm
    rcases List.mem_append.mp hm with hm | hm
    · obtain ⟨q, hq, hmatch⟩ := ihq m hm
      exact ⟨q, List.mem_append_right _ hq, hmatch⟩
    · obtain ⟨q, hq, hmatch⟩ := ihp m hm
      exact ⟨q, List.mem_append_left _ hq, hmatch⟩
  | altLeft _ _ ih =>
    intro m hm
    obtain ⟨q, hq, hmatch⟩ := ih m hm
    exact ⟨q, List.mem_append_left _ hq, hmatch⟩
  | altRight _ _ ih =>
    intro m hm
    obtain ⟨q, hq, hmatch⟩ := ih m hm
    exact ⟨q, List.mem_append_right _ hq, hmatch⟩
  | starCons _ _ ihp ihq =>
    intro m hm
    rcases List.mem_append.mp hm with hm | hm
    · exact ihq m hm
    · exact ihp m hm
  | runCons _ _ ihp ihq =>
    intro m hm
    rcases List.mem_append.mp hm with hm | hm
    · exact ihq m hm
    · exact ihp m hm
  | @part label p c d ms hm ih =>
    intro m hmem
    rcases List.mem_cons.mp hmem with rfl | hmem
    · exact ⟨p, by simp [bodies], d, ms, hm, rfl⟩
    · obtain ⟨q, hq, hmatch⟩ := ih m hmem
      refine ⟨q, ?_, hmatch⟩
      rw [bodies]
      split
      · exact List.mem_cons_of_mem p hq
      · exact hq
  | _ => simp

/-! ## Last characters -/

/-- Whether every match of the pattern ends by reading a character. -/
def closesWith (last : Char) : Pattern → Bool
  | .word text => text.getLast? == some last
  | .seq _ q => q.closesWith last
  | .alt p q => p.closesWith last && q.closesWith last
  | .part _ p => p.closesWith last
  | _ => false

theorem Matches.closesWith {p : Pattern} {c d : Cursor} {ms : List Mark} {last : Char}
    (h : Matches p c d ms) (hp : p.closesWith last = true) :
    ∃ text, c.Reads (text ++ [last]) d := by
  induction h with
  | word text =>
    rw [Pattern.closesWith, beq_iff_eq, List.getLast?_eq_some_iff] at hp
    obtain ⟨lead, rfl⟩ := hp
    exact ⟨lead, rfl, rfl⟩
  | seq hm _ _ ih =>
    obtain ⟨s, hs⟩ := hm.reads
    obtain ⟨t, ht⟩ := ih hp
    exact ⟨s ++ t, by rw [List.append_assoc]; exact hs.trans ht⟩
  | altLeft _ _ ih => exact ih (Bool.and_eq_true_iff.mp hp).1
  | altRight _ _ ih => exact ih (Bool.and_eq_true_iff.mp hp).2
  | part _ _ ih => exact ih hp
  | _ => simp [Pattern.closesWith] at hp

/-- Whether no match of the pattern ends by reading a character. -/
def avoidsLast (bad : Char) : Pattern → Bool
  | .char test | .run _ test => !test bad
  | .word text => text.getLast? != some bad
  | .seq p q => q.avoidsLast bad && (q.consumes || p.avoidsLast bad)
  | .alt p q => p.avoidsLast bad && q.avoidsLast bad
  | .star _ p | .part _ p => p.avoidsLast bad
  | _ => true

/-- The last character of two texts read in a row. -/
theorem getLast?_append_ne {a b : List Char} {bad : Char} (hb : b.getLast? ≠ some bad)
    (ha : b = [] → a.getLast? ≠ some bad) : (a ++ b).getLast? ≠ some bad := by
  cases b with
  | nil => simpa using ha rfl
  | cons c b => rwa [List.getLast?_append, List.getLast?_cons, Option.some_or, ← List.getLast?_cons]

theorem Matches.getLast?_ne {p : Pattern} {c d : Cursor} {ms : List Mark} {bad : Char}
    (h : Matches p c d ms) (hp : p.avoidsLast bad = true) :
    ∃ text, c.Reads text d ∧ text.getLast? ≠ some bad := by
  induction h with
  | @char test _ _ a _ ht =>
    refine ⟨[a], ⟨rfl, by simp⟩, fun he => ?_⟩
    rw [List.getLast?_singleton, Option.some.injEq] at he
    subst he
    simp [avoidsLast, ht] at hp
  | word text => exact ⟨text, ⟨rfl, rfl⟩, by simpa [avoidsLast] using hp⟩
  | seq hm hn ihp ihq =>
    simp only [avoidsLast, Bool.and_eq_true, Bool.or_eq_true] at hp
    obtain ⟨t, ht, htb⟩ := ihq hp.1
    rcases hp.2 with hc | hq
    · obtain ⟨s, hs⟩ := hm.reads
      exact ⟨s ++ t, hs.trans ht, getLast?_append_ne htb fun he => absurd he (hn.ne_nil hc ht)⟩
    · obtain ⟨s, hs, hsb⟩ := ihp hq
      exact ⟨s ++ t, hs.trans ht, getLast?_append_ne htb fun _ => hsb⟩
  | altLeft _ _ ih => exact ih (Bool.and_eq_true_iff.mp hp).1
  | altRight _ _ ih => exact ih (Bool.and_eq_true_iff.mp hp).2
  | starCons _ _ ihp ihq =>
    obtain ⟨s, hs, hsb⟩ := ihp hp
    obtain ⟨t, ht, htb⟩ := ihq hp
    exact ⟨s ++ t, hs.trans ht, getLast?_append_ne htb fun _ => hsb⟩
  | runCons _ _ ihp ihq =>
    obtain ⟨s, hs, hsb⟩ := ihp hp
    obtain ⟨t, ht, htb⟩ := ihq hp
    exact ⟨s ++ t, hs.trans ht, getLast?_append_ne htb fun _ => hsb⟩
  | part _ _ ih => exact ih hp
  | _ => exact ⟨[], .refl _, by simp⟩

end Pattern
end Outline
