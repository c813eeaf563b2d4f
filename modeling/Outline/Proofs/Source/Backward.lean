import Mathlib.Data.List.Induction
import Outline.Proofs.Source.Balanced
import Outline.Proofs.Text.Utf8

/-!
# The braces around a place, found from behind

The index of braces is made in one pass forward.  Walking back from a place, past what is
closed in front of it, finds the same braces, for each place and each text, however its
braces are paired.  So does a pass that keeps the stack of open braces for itself and
writes down two tables, the innermost brace of each stretch and the brace around each
brace, in which the answers are looked up.
-/

namespace Outline

namespace Brace

theorem openBefore_close (closed : Nat) (before : List UInt8) :
    openBefore closed (0x7d :: before) = openBefore (closed + 1) before := by
  cases closed <;> rfl

theorem openBefore_other {byte : UInt8} (ho : byte ≠ 0x7b) (hc : byte ≠ 0x7d) (closed : Nat)
    (before : List UInt8) : openBefore closed (byte :: before) = openBefore closed before := by
  cases closed <;> rw [openBefore, if_neg hc, if_neg ho]

/-- What is found backward lies further and further in front. -/
theorem pairwise_enclosingChain (text : List Char) (offset : Nat) :
    (offset :: enclosingChain text offset).Pairwise (· > ·) := by
  fun_induction enclosingChain text offset with
  | case1 offset _ => exact List.pairwise_singleton _ _
  | case2 offset p h ih =>
    have hlt := lt_of_enclosingOpen h
    refine List.pairwise_cons.mpr ⟨fun q hq => ?_, ih⟩
    rcases List.mem_cons.mp hq with rfl | hq
    · exact hlt
    · exact Nat.lt_trans ((List.pairwise_cons.mp ih).1 q hq) hlt

/-- The walk ends at a brace with none around it. -/
theorem enclosingOpen_of_getLast? {text : List Char} {offset p : Nat}
    (h : (enclosingChain text offset).getLast? = some p) : enclosingOpen text p = none := by
  fun_induction enclosingChain text offset with
  | case1 => cases h
  | case2 offset q _ ih =>
    cases hopen : enclosingOpen text q with
    | none =>
      have hend : enclosingChain text q = [] := by
        rw [enclosingChain]
        split
        · rfl
        · next h' => cases hopen.symm.trans h'
      rw [hend, List.getLast?_singleton] at h
      exact Option.some.inj h ▸ hopen
    | some r =>
      have hgoes : enclosingChain text q = r :: enclosingChain text r := by
        rw [enclosingChain]
        split
        · next h' => cases hopen.symm.trans h'
        · next h' => rw [Option.some.inj (h'.symm.trans hopen)]
      rw [hgoes, List.getLast?_cons_cons, ← hgoes] at h
      exact ih h

end Brace

/-! ## A pass with tables -/

/-- What a pass over the bytes of a text knows of its braces. -/
structure BracePass where
  /-- The innermost open brace from an offset on, up to the offset of the next entry. -/
  spans : List (Nat × Option Nat)
  /-- The brace around each opening brace, the latest first. -/
  parents : List (Nat × Option Nat)
  /-- The open braces, innermost first. -/
  stack : List Nat

namespace BracePass

def empty : BracePass := ⟨[], [], []⟩

/-- Go on over the byte at an offset. -/
def read (pass : BracePass) (entry : UInt8 × Nat) : BracePass :=
  if entry.1 = 0x7b then
    { spans := pass.spans ++ [(entry.2 + 1, some entry.2)]
      parents := (entry.2, pass.stack.head?) :: pass.parents
      stack := entry.2 :: pass.stack }
  else if entry.1 = 0x7d then
    match pass.stack with
    | [] => pass
    | _ :: outer =>
      { pass with spans := pass.spans ++ [(entry.2 + 1, outer.head?)], stack := outer }
  else pass

def ofBytes (bytes : List UInt8) : BracePass := bytes.zipIdx.foldl read empty

theorem ofBytes_concat (bytes : List UInt8) (byte : UInt8) :
    ofBytes (bytes ++ [byte]) = (ofBytes bytes).read (byte, bytes.length) := by
  rw [ofBytes, List.zipIdx_append, List.foldl_append, ofBytes, Nat.zero_add]
  rfl

section

variable (pass : BracePass) (offset : Nat)

theorem read_open : pass.read (0x7b, offset) =
    ⟨pass.spans ++ [(offset + 1, some offset)], (offset, pass.stack.head?) :: pass.parents,
      offset :: pass.stack⟩ := rfl

theorem read_close : pass.read (0x7d, offset) =
    match pass.stack with
    | [] => pass
    | _ :: outer =>
      { pass with spans := pass.spans ++ [(offset + 1, outer.head?)], stack := outer } := rfl

theorem stack_read_close : (pass.read (0x7d, offset)).stack = pass.stack.tail := by
  rw [read_close]
  split
  · next h => rw [h, List.tail_nil]
  · next h => rw [h, List.tail_cons]

theorem parents_read {byte : UInt8} (h : byte ≠ 0x7b) :
    (pass.read (byte, offset)).parents = pass.parents := by
  rw [read, if_neg h]
  split
  · split <;> rfl
  · rfl

theorem read_other {byte : UInt8} (ho : byte ≠ 0x7b) (hc : byte ≠ 0x7d) :
    pass.read (byte, offset) = pass := by
  rw [read, if_neg ho, if_neg hc]

end

/-- The walk back from the end of bytes finds the innermost of the open braces, and with
closing braces in hand one of those further out. -/
theorem openBefore_eq (closed : Nat) (bytes : List UInt8) :
    Brace.openBefore closed bytes.reverse = (ofBytes bytes).stack[closed]? := by
  induction bytes using List.reverseRecOn generalizing closed with
  | nil => rfl
  | append_singleton bytes byte ih =>
    rw [List.reverse_append, List.reverse_singleton, List.singleton_append, ofBytes_concat]
    by_cases hc : byte = 0x7d
    · rw [hc, Brace.openBefore_close, stack_read_close, List.getElem?_tail, ih]
    · by_cases ho : byte = 0x7b
      · rw [ho, read_open]
        cases closed with
        | zero => simp [Brace.openBefore]
        | succ closed => exact (ih closed).trans List.getElem?_cons_succ.symm
      · rw [Brace.openBefore_other ho hc, read_other _ _ ho hc, ih]

/-- An open brace was read when exactly those that are open around it were. -/
theorem of_stack_eq {bytes : List UInt8} {inner outer : List Nat} {p : Nat}
    (h : (ofBytes bytes).stack = inner ++ p :: outer) :
    bytes[p]? = some 0x7b ∧ (ofBytes (bytes.take p)).stack = outer := by
  induction bytes using List.reverseRecOn generalizing inner with
  | nil => simp [ofBytes, empty] at h
  | append_singleton bytes byte ih =>
    have hold : ∀ inner, (ofBytes bytes).stack = inner ++ p :: outer →
        (bytes ++ [byte])[p]? = some 0x7b ∧ (ofBytes ((bytes ++ [byte]).take p)).stack = outer := by
      intro inner hstack
      obtain ⟨hbyte, htake⟩ := ih hstack
      have hlt : p < bytes.length := (List.getElem?_eq_some_iff.mp hbyte).1
      rw [List.getElem?_append_left hlt, List.take_append_of_le_length (Nat.le_of_lt hlt)]
      exact ⟨hbyte, htake⟩
    rw [ofBytes_concat] at h
    by_cases ho : byte = 0x7b
    · rw [ho, read_open] at h
      cases inner with
      | nil =>
        obtain ⟨rfl, rfl⟩ := List.cons.inj h
        simp [ho]
      | cons first inner => exact hold inner (List.cons.inj h).2
    · by_cases hc : byte = 0x7d
      · rw [hc, stack_read_close] at h
        cases hstack : (ofBytes bytes).stack with
        | nil => simp [hstack] at h
        | cons first rest =>
          rw [hstack, List.tail_cons] at h
          exact hold (first :: inner) (by rw [hstack, h, List.cons_append])
      · rw [read_other _ _ ho hc] at h
        exact hold inner h

theorem enclosingOpen_eq_stack (text : List Char) (offset : Nat) :
    Brace.enclosingOpen text offset =
      (ofBytes ((Utf8.encode text).take offset)).stack.head? := by
  rw [Brace.enclosingOpen, openBefore_eq, List.head?_eq_getElem?]

/-- The walk repeated finds all braces that are open in front of an offset. -/
theorem enclosingChain_eq_stack (text : List Char) (offset : Nat) :
    Brace.enclosingChain text offset = (ofBytes ((Utf8.encode text).take offset)).stack := by
  induction offset using Nat.strongRecOn with
  | _ offset ih =>
    rw [Brace.enclosingChain]
    have hopen := enclosingOpen_eq_stack text offset
    split
    · next hnone =>
      rw [hnone] at hopen
      exact (List.head?_eq_none_iff.mp hopen.symm).symm
    · next p hsome =>
      rw [hsome] at hopen
      obtain ⟨outer, houter⟩ := List.head?_eq_some_iff.mp hopen.symm
      have hlt := Brace.lt_of_enclosingOpen hsome
      obtain ⟨-, htake⟩ := of_stack_eq (houter.trans (List.nil_append _).symm)
      rw [List.take_take, Nat.min_eq_left (Nat.le_of_lt hlt)] at htake
      rw [ih p hlt, htake, houter]

/-! ## The tables -/

/-- The pass keeps of each opening brace which one was around it. -/
theorem lookup_parents {bytes : List UInt8} {p : Nat} (h : bytes[p]? = some 0x7b) :
    (ofBytes bytes).parents.lookup p = some (ofBytes (bytes.take p)).stack.head? := by
  induction bytes using List.reverseRecOn with
  | nil => simp at h
  | append_singleton bytes byte ih =>
    rw [ofBytes_concat]
    by_cases hp : p < bytes.length
    · rw [List.getElem?_append_left hp] at h
      rw [List.take_append_of_le_length (Nat.le_of_lt hp), ← ih h]
      by_cases ho : byte = 0x7b
      · rw [ho, read_open, List.lookup_cons, beq_false_of_ne (Nat.ne_of_lt hp)]
      · rw [parents_read _ _ ho]
    · have hlast : p = bytes.length := by
        have hlt := (List.getElem?_eq_some_iff.mp h).1
        rw [List.length_append, List.length_singleton] at hlt
        omega
      subst hlast
      rw [List.getElem?_concat_length, Option.some.injEq] at h
      rw [h, read_open, List.lookup_cons, beq_self_eq_true, List.take_left]

end BracePass

/-! ## A search by halving -/

/-- The number of leading entries that pass a test, found by halving the range in which the
first one that fails is looked for. -/
def partitionPoint {α : Type} (test : α → Bool) (entries : List α) (low high : Nat) : Nat :=
  if low < high then
    let middle := low + (high - low) / 2
    if entries[middle]?.any test then partitionPoint test entries (middle + 1) high
    else partitionPoint test entries low middle
  else low
termination_by high - low

/-- Where all entries in front of one that passes pass as well, the search finds their number. -/
theorem partitionPoint_eq {α : Type} {test : α → Bool} {front back : List α}
    (hf : ∀ a ∈ front, test a = true) (hb : ∀ a ∈ back, test a = false) {low high : Nat}
    (hl : low ≤ front.length) (hh : front.length ≤ high) :
    partitionPoint test (front ++ back) low high = front.length := by
  fun_induction partitionPoint test (front ++ back) low high with
  | case1 low high hlt middle htest ih =>
    refine ih ?_ hh
    by_contra hle
    obtain ⟨a, ha, htest⟩ := (Option.any_eq_true _ _).mp htest
    rw [List.getElem?_append_right (by omega)] at ha
    rw [hb a (List.mem_of_getElem? ha)] at htest
    cases htest
  | case2 low high hlt middle htest ih =>
    refine ih hl ?_
    by_contra hle
    have hin : middle < front.length := by omega
    refine htest ((Option.any_eq_true _ _).mpr ⟨front[middle], ?_, hf _ (List.getElem_mem hin)⟩)
    rw [List.getElem?_append_left hin, List.getElem?_eq_getElem hin]
  | case3 low high hlt => omega

/-- Where the entries that pass come first, the search over all of them finds how many they are. -/
theorem partitionPoint_length {α : Type} {test : α → Bool} {entries : List α}
    (h : entries.Pairwise fun a b => test b = true → test a = true) :
    partitionPoint test entries 0 entries.length = (entries.takeWhile test).length := by
  have hback : ∀ a ∈ entries.dropWhile test, test a = false := by
    induction entries with
    | nil => exact fun a ha => absurd ha List.not_mem_nil
    | cons first entries ih =>
      obtain ⟨hfirst, hrest⟩ := List.pairwise_cons.mp h
      by_cases ht : test first = true
      · rw [List.dropWhile_cons_of_pos ht]
        exact ih hrest
      · rw [List.dropWhile_cons_of_neg ht]
        intro a ha
        rw [Bool.eq_false_iff]
        rcases List.mem_cons.mp ha with rfl | ha
        · exact ht
        · exact fun hpass => ht (hfirst a ha hpass)
  have hfront : ∀ a ∈ entries.takeWhile test, test a = true :=
    List.all_eq_true.mp List.all_takeWhile
  have hsplit :=
    partitionPoint_eq hfront hback (Nat.zero_le _) (List.takeWhile_prefix test).length_le
  rwa [List.takeWhile_append_dropWhile] at hsplit

namespace BracePass

/-- The innermost open brace around an offset, looked up among the spans. -/
def enclosingOpen (pass : BracePass) (offset : Nat) : Option Nat :=
  match partitionPoint (·.1 ≤ offset) pass.spans 0 pass.spans.length with
  | 0 => none
  | i + 1 => pass.spans[i]?.bind (·.2)

/-- From a brace the loop goes on to the brace around it, and stops where there is none. -/
inductive Follows (pass : BracePass) : Option Nat → List Nat → Prop
  | stop : Follows pass none []
  | step {p : Nat} {outer : List Nat} :
    Follows pass (pass.parents.lookup p).join outer → Follows pass (some p) (p :: outer)

/-- The spans are the entries of the index with the innermost brace alone. -/
def spanOf (entry : Nat × List Nat) : Nat × Option Nat := (entry.1, entry.2.head?)

/-- Bytes that are no braces change nothing. -/
theorem foldl_read_of_not_brace {bytes : List UInt8} (h : ∀ byte ∈ bytes, byte ≠ 0x7b ∧ byte ≠ 0x7d)
    (offset : Nat) (pass : BracePass) : (bytes.zipIdx offset).foldl read pass = pass := by
  induction bytes generalizing offset with
  | nil => rfl
  | cons byte bytes ih =>
    obtain ⟨⟨ho, hc⟩, hrest⟩ := List.forall_mem_cons.mp h
    rw [List.zipIdx_cons, List.foldl_cons, read_other _ _ ho hc, ih hrest]

theorem not_brace_of_mem {c : Char} (ho : c ≠ '\x7b') (hc : c ≠ '\x7d') :
    ∀ byte ∈ String.utf8EncodeChar c, byte ≠ 0x7b ∧ byte ≠ 0x7d := by
  intro byte hb
  by_cases hascii : c.toNat < 128
  · rw [Utf8.utf8EncodeChar_of_ascii hascii, List.mem_singleton] at hb
    subst hb
    constructor <;> intro heq <;>
      [refine ho (Char.toNat_inj.mp ?_); refine hc (Char.toNat_inj.mp ?_)] <;>
      · have hn := congrArg UInt8.toNat heq
        rwa [Utf8.toNat_ofNat (by omega)] at hn
  · have hle := Utf8.le_of_mem_utf8EncodeChar (Nat.le_of_not_lt hascii) byte hb
    constructor <;> (rintro rfl; revert hle; decide)

/-- The spans of the pass over a text are those of the index. -/
theorem spans_foldl (text : List Char) (offset : Nat) (pass : BracePass) :
    (((Utf8.encode text).zipIdx offset).foldl read pass).spans =
      pass.spans ++ (BraceIndex.entriesFrom pass.stack offset text).map spanOf := by
  induction text generalizing offset pass with
  | nil => rw [BraceIndex.entriesFrom, List.map_nil, List.append_nil]; rfl
  | cons c rest ih =>
    rw [Utf8.encode_cons, List.zipIdx_append, List.foldl_append, String.length_utf8EncodeChar, ih]
    by_cases ho : c = '\x7b'
    · subst ho
      show ((pass.read (0x7b, offset)).spans) ++ _ = _
      rw [read_open, List.append_assoc]
      rfl
    · by_cases hc : c = '\x7d'
      · subst hc
        show ((pass.read (0x7d, offset)).spans) ++
          (BraceIndex.entriesFrom (pass.read (0x7d, offset)).stack (offset + 1) rest).map spanOf = _
        cases hstack : pass.stack with
        | nil =>
          rw [read_close, hstack]
          show _ ++ (BraceIndex.entriesFrom pass.stack (offset + 1) rest).map spanOf = _
          rw [hstack]
          rfl
        | cons p outer =>
          rw [read_close, hstack, List.append_assoc]
          rfl
      · rw [foldl_read_of_not_brace (not_brace_of_mem ho hc)]
        cases hstack : pass.stack <;> rw [BraceIndex.entriesFrom, if_neg ho, if_neg hc]

/-- The braces that are open where the pass over a text is cut off are those of the index. -/
theorem stack_foldl (q : Nat) (text : List Char) (offset : Nat) (pass : BracePass) :
    ((((Utf8.encode text).take (q - offset)).zipIdx offset).foldl read pass).stack =
      BraceIndex.stackFrom q pass.stack offset text := by
  induction text generalizing offset pass with
  | nil => rw [BraceIndex.stackFrom_nil, Utf8.encode, List.flatMap_nil, List.take_nil]; rfl
  | cons c rest ih =>
    by_cases hq : q ≤ offset
    · rw [BraceIndex.stackFrom_of_le hq, Nat.sub_eq_zero_of_le hq, List.take_zero]
      rfl
    have hsucc : q - offset = q - (offset + 1) + 1 := by omega
    by_cases ho : c = '\x7b'
    · subst ho
      rw [BraceIndex.stackFrom_open, if_pos (by omega), hsucc]
      exact ih (offset + 1) (pass.read (0x7b, offset))
    by_cases hc : c = '\x7d'
    · subst hc
      rw [hsucc]
      refine (ih (offset + 1) (pass.read (0x7d, offset))).trans ?_
      rw [stack_read_close]
      cases pass.stack with
      | nil => rw [BraceIndex.stackFrom_close_nil, List.tail_nil]
      | cons p outer => rw [BraceIndex.stackFrom_close_cons, if_pos (by omega), List.tail_cons]
    have hplain : ∀ byte ∈ (String.utf8EncodeChar c).take (q - offset), byte ≠ 0x7b ∧ byte ≠ 0x7d :=
      fun byte hb => not_brace_of_mem ho hc byte (List.mem_of_mem_take hb)
    rw [BraceIndex.stackFrom_other _ _ _ _ ho hc, Utf8.encode_cons, List.take_append,
      List.zipIdx_append, List.foldl_append, foldl_read_of_not_brace hplain, List.length_take,
      String.length_utf8EncodeChar, ← ih, Nat.sub_add_eq]
    -- The character may be cut, and then nothing is read behind it.
    by_cases hcut : q - offset ≤ c.utf8Size
    · rw [Nat.sub_eq_zero_of_le hcut]
      rfl
    · rw [Nat.min_eq_right (by omega)]

theorem enclosingChain_eq (text : List Char) (offset : Nat) :
    (BraceIndex.ofText text).enclosingChain offset =
      (ofBytes ((Utf8.encode text).take offset)).stack :=
  (stack_foldl offset text 0 empty).symm

/-- The entries of the index come in increasing order. -/
theorem pairwise_entriesFrom (stack : List Nat) (offset : Nat) (text : List Char) :
    (offset :: (BraceIndex.entriesFrom stack offset text).map Prod.fst).Pairwise (· < ·) := by
  have hbelow : ∀ {n m : Nat} {later : List Nat}, n < m → (m :: later).Pairwise (· < ·) →
      ∀ x ∈ m :: later, n < x := by
    intro n m later hn h x hx
    rcases List.mem_cons.mp hx with rfl | hx
    · exact hn
    · exact Nat.lt_trans hn ((List.pairwise_cons.mp h).1 x hx)
  fun_induction BraceIndex.entriesFrom stack offset text with
  | case1 => exact List.pairwise_singleton _ _
  | case2 stack offset rest ih | case4 offset rest _ top outer ih =>
    exact List.pairwise_cons.mpr ⟨hbelow (Nat.lt_succ_self offset) ih, ih⟩
  | case3 offset rest _ ih =>
    have hall := hbelow (Nat.lt_succ_self offset) ih
    exact List.pairwise_cons.mpr
      ⟨fun x hx => hall x (List.mem_cons_of_mem _ hx), (List.pairwise_cons.mp ih).2⟩
  | case5 stack offset c rest _ _ ih =>
    have hall := hbelow (Nat.lt_add_of_pos_right (Char.utf8Size_pos c)) ih
    exact List.pairwise_cons.mpr
      ⟨fun x hx => hall x (List.mem_cons_of_mem _ hx), (List.pairwise_cons.mp ih).2⟩

theorem enclosingOpen_eq (text : List Char) (offset : Nat) :
    (BraceIndex.ofText text).enclosingOpen offset =
      (ofBytes (Utf8.encode text)).enclosingOpen offset := by
  have hspans : (ofBytes (Utf8.encode text)).spans = (BraceIndex.ofText text).entries.map spanOf :=
    spans_foldl text 0 empty
  have hsorted : (ofBytes (Utf8.encode text)).spans.Pairwise fun a b =>
      decide (b.1 ≤ offset) = true → decide (a.1 ≤ offset) = true := by
    rw [hspans, List.pairwise_map]
    refine (List.pairwise_map.mp (List.pairwise_cons.mp (pairwise_entriesFrom [] 0 text)).2).imp ?_
    intro a b hab hb
    exact decide_eq_true (Nat.le_trans (Nat.le_of_lt hab) (of_decide_eq_true hb))
  have hlast : ((ofBytes (Utf8.encode text)).spans.takeWhile (·.1 ≤ offset)).getLast? =
      ((BraceIndex.ofText text).entries.takeWhile (·.1 ≤ offset)).getLast?.map spanOf := by
    rw [hspans, List.takeWhile_map, List.getLast?_map]
    rfl
  have hindex : (BraceIndex.ofText text).enclosingOpen offset =
      ((ofBytes (Utf8.encode text)).spans.takeWhile (·.1 ≤ offset)).getLast?.bind (·.2) := by
    rw [hlast, BraceIndex.enclosingOpen, BraceIndex.enclosingChain]
    cases ((BraceIndex.ofText text).entries.takeWhile (·.1 ≤ offset)).getLast? <;> rfl
  rw [hindex, enclosingOpen, partitionPoint_length hsorted, List.getLast?_eq_getElem?]
  generalize hlen : ((ofBytes (Utf8.encode text)).spans.takeWhile (·.1 ≤ offset)).length = n
  cases n with
  | zero => rw [List.eq_nil_of_length_eq_zero hlen]; rfl
  | succ n =>
    rw [Nat.add_sub_cancel]
    congr 1
    have hfront := List.prefix_iff_getElem?.mp
      (List.takeWhile_prefix (l := (ofBytes (Utf8.encode text)).spans) (·.1 ≤ offset))
    rw [hfront n (by omega), List.getElem?_eq_getElem]

/-- Going on from brace to brace around it gives the chain of open braces. -/
theorem follows (bytes : List UInt8) (offset : Nat) :
    (ofBytes bytes).Follows (ofBytes (bytes.take offset)).stack.head?
      (ofBytes (bytes.take offset)).stack := by
  generalize hstack : (ofBytes (bytes.take offset)).stack = stack
  have hsuffix : ∀ inner outer, stack = inner ++ outer →
      (ofBytes bytes).Follows outer.head? outer := by
    intro inner outer
    induction outer generalizing inner with
    | nil => exact fun _ => .stop
    | cons p outer ih =>
      intro hsplit
      obtain ⟨hbyte, htake⟩ := of_stack_eq (hstack.trans hsplit)
      rw [List.getElem?_take] at hbyte
      split at hbyte
      · next hlt =>
        rw [List.take_take, Nat.min_eq_left (Nat.le_of_lt hlt)] at htake
        refine .step ?_
        rw [lookup_parents hbyte, htake]
        exact ih (inner ++ [p]) (by rw [hsplit, List.append_assoc]; rfl)
      · cases hbyte
  exact hsuffix [] stack rfl

end BracePass

namespace BraceIndex

/-- The braces around an offset that the index holds are those that are found by walking back
from the offset, and from each of them again: further and further in front, up to a brace
with none around it.  The tables of the pass give the same. -/
theorem enclosing_eq_walk (text : List Char) (offset : Nat) :
    (ofText text).enclosingOpen offset = Brace.enclosingOpen text offset ∧
    (ofText text).enclosingChain offset = Brace.enclosingChain text offset ∧
    (offset :: (ofText text).enclosingChain offset).Pairwise (· > ·) ∧
    (∀ p ∈ (ofText text).enclosingChain offset, (Utf8.encode text)[p]? = some 0x7b) ∧
    (∀ p, ((ofText text).enclosingChain offset).getLast? = some p →
      Brace.enclosingOpen text p = none) ∧
    (BracePass.ofBytes (Utf8.encode text)).enclosingOpen offset =
      (ofText text).enclosingOpen offset ∧
    (BracePass.ofBytes (Utf8.encode text)).Follows
      ((BracePass.ofBytes (Utf8.encode text)).enclosingOpen offset)
      ((ofText text).enclosingChain offset) := by
  have hchain : (ofText text).enclosingChain offset = Brace.enclosingChain text offset :=
    (BracePass.enclosingChain_eq text offset).trans
      (BracePass.enclosingChain_eq_stack text offset).symm
  have hopen : (ofText text).enclosingOpen offset = Brace.enclosingOpen text offset := by
    rw [enclosingOpen, BracePass.enclosingChain_eq, BracePass.enclosingOpen_eq_stack]
  refine ⟨hopen, hchain, ?_, ?_, ?_, ?_, ?_⟩
  · rw [hchain]
    exact Brace.pairwise_enclosingChain text offset
  · intro p hp
    rw [BracePass.enclosingChain_eq] at hp
    obtain ⟨inner, outer, hstack⟩ := List.append_of_mem hp
    have hbyte := (BracePass.of_stack_eq hstack).1
    rw [List.getElem?_take] at hbyte
    split at hbyte
    · exact hbyte
    · cases hbyte
  · intro p hp
    rw [hchain] at hp
    exact Brace.enclosingOpen_of_getLast? hp
  · exact (BracePass.enclosingOpen_eq text offset).symm
  · rw [← BracePass.enclosingOpen_eq, enclosingOpen, BracePass.enclosingChain_eq]
    exact BracePass.follows (Utf8.encode text) offset

end BraceIndex
end Outline
