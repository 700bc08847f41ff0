import Mcprog.Library.Relational
import Mcprog.Programmer.ConfCalls

/-!
# Configurations with other line ends

A configuration says the same with a carriage return before each newline. In a name the carriage
return is a space at its end, which does not count, in a value it is skipped, and in a comment it is
a part of it. So the two runs stand before corresponding characters with buffers that agree as far
as they are written.
-/

namespace Mcprog

open Interaction Cells Program

/-- The character before the newline in the other texts. -/
def carriageReturn : Byte := 0x0D

/-- The text with a carriage return before each newline. -/
def crlf (text : List Byte) : List Byte :=
  text.flatMap fun c => if c = newline then [carriageReturn, newline] else [c]

/-- An end of a line is two characters. -/
theorem crlf_newline (fp : List Byte) : crlf (newline :: fp) = carriageReturn :: newline :: crlf fp := rfl

/-- Any other character stays. -/
theorem crlf_char {c : Byte} (hc : c ≠ newline) (fp : List Byte) : crlf (c :: fp) = c :: crlf fp := by
  rw [crlf, List.flatMap_cons, if_neg hc]
  rfl

theorem length_le_crlf (text : List Byte) : text.length ≤ (crlf text).length := by
  induction text with
  | nil => exact le_refl _
  | cons c fp ih =>
    by_cases hnl : c = newline
    · rw [hnl, crlf_newline]
      simp only [List.length_cons]
      omega
    · rw [crlf_char hnl]
      exact Nat.succ_le_succ ih

/-- What is left of a text and of the other one before corresponding characters. The carriage return
of the next line may have been read already. -/
inductive SameRest : List Byte → List Byte → Prop
  | nil : SameRest [] []
  | char {c : Byte} {fp : List Byte} (hc : c ≠ newline) (hcr : c ≠ carriageReturn)
      (hfp : carriageReturn ∉ fp) : SameRest (c :: fp) (c :: crlf fp)
  | line {fp : List Byte} (hfp : carriageReturn ∉ fp) : SameRest (newline :: fp) (newline :: crlf fp)

variable {fp : List Byte}

/-- Spaces are skipped, the carriage return among them. -/
theorem sameRest_eatWhitespace (h : carriageReturn ∉ fp) :
    SameRest (eatWhitespace fp) (eatWhitespace (crlf fp)) := by
  induction fp with
  | nil => exact .nil
  | cons c fp ih =>
    have hc := List.ne_of_not_mem_cons h
    have hfp := List.not_mem_of_not_mem_cons h
    by_cases hnl : c = newline
    · rw [hnl]
      exact .line hfp
    · rw [crlf_char hnl]
      by_cases hspace : isspace c = true
      · have hskip : ∀ rest, eatWhitespace (c :: rest) = eatWhitespace rest := fun rest =>
          List.dropWhile_cons_of_pos (decide_eq_true ⟨hspace, hnl⟩)
        rw [hskip, hskip]
        exact ih hfp
      · rw [eatWhitespace_cons fun hand => hspace hand.1, eatWhitespace_cons fun hand => hspace hand.1]
        exact .char hnl (Ne.symm hc) hfp

/-- A comment is skipped with the carriage return that ends it. -/
theorem sameRest_eatComment (h : carriageReturn ∉ fp) : SameRest (eatComment fp) (eatComment (crlf fp)) := by
  induction fp with
  | nil => exact .nil
  | cons c fp ih =>
    have hc := List.ne_of_not_mem_cons h
    have hfp := List.not_mem_of_not_mem_cons h
    by_cases hnl : c = newline
    · rw [hnl]
      exact .line hfp
    · rw [crlf_char hnl]
      by_cases hzero : c = 0
      · rw [hzero]
        exact .char (by decide) (by decide) hfp
      · have hskip : ∀ rest, eatComment (c :: rest) = eatComment rest := fun rest =>
          List.dropWhile_cons_of_pos (decide_eq_true ⟨hzero, hnl⟩)
        rw [hskip, hskip]
        exact ih hfp

/-- Where a text and the other one start to differ there is a carriage return before the newline. -/
theorem sameRest_or_line {l l' : List Byte} (h : SameRest l l' ∨ (carriageReturn ∉ l ∧ l' = crlf l)) :
    SameRest l l' ∨ ∃ fp, carriageReturn ∉ fp ∧ l = newline :: fp ∧ l' = crlf l := by
  rcases h with h | ⟨hcr, rfl⟩
  · exact .inl h
  · cases l with
    | nil => exact .inl .nil
    | cons c fp =>
      have hfp := List.not_mem_of_not_mem_cons hcr
      by_cases hnl : c = newline
      · exact .inr ⟨fp, hfp, by rw [hnl], rfl⟩
      · rw [crlf_char hnl]
        exact .inl (.char hnl (List.ne_of_not_mem_cons hcr).symm hfp)

/-- Behind the next character the texts correspond as they did at their start. -/
theorem SameRest.tail {l l' : List Byte} (h : SameRest l l') :
    l'.tail = crlf l.tail ∧ carriageReturn ∉ l.tail := by
  cases h with
  | nil => exact ⟨rfl, List.not_mem_nil⟩
  | char hc hcr hfp => exact ⟨rfl, hfp⟩
  | line hfp => exact ⟨rfl, hfp⟩

/-- What is left behind the line that `c` ends or starts a comment in. -/
theorem tail_lineEnd {c : Byte} (hfp : carriageReturn ∉ fp) :
    (lineEnd c (crlf fp)).tail = crlf (lineEnd c fp).tail ∧ carriageReturn ∉ (lineEnd c fp).tail := by
  unfold lineEnd
  split
  · exact ⟨rfl, hfp⟩
  · exact (sameRest_eatComment hfp).tail

/-- The position is the end of what counts, or there is a space between them. -/
def AtEnd (b : ConfBuffer) (i stop : Nat) : Prop :=
  i = stop ∨ (i = stop + 1 ∧ b.bufr.get stop = ascii ' ')

/-- The two buffers agree below a position. -/
def AgreeBelow (b b' : ConfBuffer) (n : Nat) : Prop := ∀ j < n, b.bufr.get j = b'.bufr.get j

variable {b b' : ConfBuffer} {i i' k n stop start : Nat} {c : Byte}

/-- Buffers agree on fewer characters as well. -/
theorem AgreeBelow.of_le (h : AgreeBelow b b' n) (hk : k ≤ n) : AgreeBelow b b' k :=
  fun j hj => h j (lt_of_lt_of_le hj hk)

/-- The size of a buffer does not matter. -/
theorem AgreeBelow.of_eq (h : AgreeBelow b b' n) {b₁ b₁' : ConfBuffer} (hb : b₁.bufr = b.bufr)
    (hb' : b₁'.bufr = b'.bufr) : AgreeBelow b₁ b₁' n := by
  intro j hj
  rw [hb, hb']
  exact h j hj

/-- A character that both store goes with what they agree on. -/
theorem AgreeBelow.set (h : AgreeBelow b b' n) (c : Byte) : AgreeBelow (b.set n c) (b'.set n c) (n + 1) := by
  intro j hj
  rcases Nat.lt_succ_iff_lt_or_eq.mp hj with hlt | rfl
  · change (b.bufr.set n c).get j = (b'.bufr.set n c).get j
    rw [Buffer.get_set_of_lt _ _ hlt, Buffer.get_set_of_lt _ _ hlt]
    exact h j hlt
  · change (b.bufr.set j c).get j = (b'.bufr.set j c).get j
    rw [Buffer.get_set_self, Buffer.get_set_self]

/-- What is stored further up does not matter. -/
theorem AgreeBelow.set_of_le (h : AgreeBelow b b' n) (hk : n ≤ k) (c : Byte) :
    AgreeBelow b (b'.set k c) n := by
  intro j hj
  change b.bufr.get j = (b'.bufr.set k c).get j
  rw [Buffer.get_set_of_lt _ _ (by omega)]
  exact h j hj

/-- The strings in both buffers are the same. -/
theorem AgreeBelow.string (h : AgreeBelow b b' stop) (start : Nat) :
    b.string start stop = b'.string start stop := by
  unfold ConfBuffer.string
  congr 1
  refine Buffer.slice_congr fun j hj hlt => h j ?_
  omega

/-- The end is not behind what has been stored. -/
theorem AtEnd.le (h : AtEnd b i stop) : stop ≤ i := by
  rcases h with rfl | ⟨rfl, -⟩ <;> omega

/-- The size of a buffer does not matter. -/
theorem AtEnd.of_eq (h : AtEnd b i stop) {b₁ : ConfBuffer} (hb : b₁.bufr = b.bufr) : AtEnd b₁ i stop := by
  unfold AtEnd
  rw [hb]
  exact h

/-- A buffer that agrees below the position ends there as well. -/
theorem AtEnd.of_agree (h : AtEnd b i stop) (hb : AgreeBelow b b' i) : AtEnd b' i stop := by
  rcases h with heq | ⟨heq, hspace⟩
  · exact .inl heq
  · exact .inr ⟨heq, by rw [← hb stop (by omega), hspace]⟩

/-- A space at the end is not part of the string. -/
theorem atEnd_space (b : ConfBuffer) (stop : Nat) : AtEnd (b.set stop (ascii ' ')) (stop + 1) stop :=
  .inr ⟨rfl, b.bufr.get_set_self stop _⟩

/-- The search only looks at what is below its start. -/
theorem findContinuation_congr {line line' : Nat → Byte} (h : ∀ j < i, line j = line' j) :
    findContinuation line i = findContinuation line' i := by
  induction i with
  | zero => rfl
  | succ i ih =>
    rw [findContinuation, findContinuation, h i (Nat.lt_succ_self i),
      ih fun j hj => h j (Nat.lt_succ_of_lt hj)]

/-- A continued line ends before where the search began. -/
theorem lt_of_findContinuation {line : Nat → Byte} (h : findContinuation line i = some k) : k < i := by
  induction i with
  | zero => cases h
  | succ i ih =>
    rw [findContinuation] at h
    split_ifs at h
    · exact Nat.lt_succ_of_lt (ih h)
    · exact Nat.lt_succ_of_le (Option.some.inj h).ge

/-- The space behind the end does not matter. -/
theorem AtEnd.findContinuation (h : AtEnd b i stop) :
    findContinuation b.bufr.get i = findContinuation b.bufr.get stop := by
  rcases h with rfl | ⟨rfl, hspace⟩
  · rfl
  · rw [Mcprog.findContinuation, hspace, if_pos (by decide)]

/-- The mark of a continued line is inside the string. -/
theorem AtEnd.lt_of_findContinuation (h : AtEnd b i stop)
    (hk : Mcprog.findContinuation b.bufr.get i = some k) : k < stop := by
  rw [h.findContinuation] at hk
  exact Mcprog.lt_of_findContinuation hk

/-- Both look for a continuation with the same outcome. -/
theorem AgreeBelow.findContinuation (h : AgreeBelow b b' stop) (hi : AtEnd b i stop)
    (hi' : AtEnd b' i' stop) : findContinuation b'.bufr.get i' = findContinuation b.bufr.get i := by
  rw [hi.findContinuation, hi'.findContinuation]
  exact (findContinuation_congr h).symm

/-- After a continued line only spaces are behind the end. -/
theorem atEnd_continuedEnd (b : ConfBuffer) (k : Nat) : AtEnd b k (continuedEnd b k) := by
  unfold continuedEnd
  split
  · rename_i h
    exact .inr ⟨by omega, h.2⟩
  · exact .inl rfl

/-- The end of a continued line is the same in both buffers. -/
theorem AgreeBelow.continuedEnd (h : AgreeBelow b b' k) : continuedEnd b' k = continuedEnd b k := by
  unfold Mcprog.continuedEnd
  by_cases hk : k > 0
  · rw [h (k - 1) (by omega)]
  · rw [if_neg fun hand => hk hand.1, if_neg fun hand => hk hand.1]

/-- Both go on from the same place of a continued line, or from none. -/
theorem AgreeBelow.continuation (h : AgreeBelow b b' stop) (hi : AtEnd b i stop)
    (hi' : AtEnd b' i' stop) :
    Mcprog.findContinuation b'.bufr.get i' = Mcprog.findContinuation b.bufr.get i ∧
      ∀ k, Mcprog.findContinuation b.bufr.get i = some k →
        AgreeBelow b b' k ∧ Mcprog.continuedEnd b' k = Mcprog.continuedEnd b k := by
  refine ⟨h.findContinuation hi hi', fun k hk => ?_⟩
  have hbelow : AgreeBelow b b' k := h.of_le (hi.lt_of_findContinuation hk).le
  exact ⟨hbelow, hbelow.continuedEnd⟩

/-- The two loops over a name end in the same way, at corresponding characters, of which fewer than
`n` are left. -/
inductive SameEnd (n : Nat) : NameEnd → NameEnd → Prop
  | value {fp : List Byte} {b b' : ConfBuffer} {vstart : Nat} (hfp : carriageReturn ∉ fp)
      (hlen : fp.length < n) (hb : AgreeBelow b b' vstart) :
      SameEnd n (.value fp b vstart) (.value (crlf fp) b' vstart)
  | badLine {fp : List Byte} {b b' : ConfBuffer} (hfp : carriageReturn ∉ fp) (hlen : fp.length < n) :
      SameEnd n (.badLine fp b) (.badLine (crlf fp) b')

section Loops

variable {heap : Heap} (hheap : ∀ n, heap n = true)

include hheap in
/-- Both buffers are enlarged, and agree as before. -/
theorem AgreeBelow.reserve (h : AgreeBelow b b' k) (i i' : Nat) :
    ∃ b₁ b₁', b.reserve heap i = .ok b₁ ∧ b'.reserve heap i' = .ok b₁' ∧ b₁.bufr = b.bufr ∧
      b₁'.bufr = b'.bufr ∧ AgreeBelow b₁ b₁' k := by
  obtain ⟨b₁, hb₁, hbufr⟩ := reserve_granted hheap b i
  obtain ⟨b₁', hb₁', hbufr'⟩ := reserve_granted hheap b' i'
  exact ⟨b₁, b₁', hb₁, hb₁', hbufr, hbufr', h.of_eq hbufr hbufr'⟩

/-- The end of a line in a parameter name. -/
theorem nameLoop_break (hb : b.reserve heap i = .ok b') (hc : c = ascii ';' ∨ c = ascii '#' ∨ c = newline) :
    nameLoop heap (c :: fp) b i stop = match findContinuation b'.bufr.get i with
      | none => .ok (.badLine (lineEnd c fp).tail (b'.set stop 0))
      | some k => nameLoop heap (lineEnd c fp).tail b' k (continuedEnd b' k) := by
  have hne : c ≠ ascii '=' := by
    rcases hc with rfl | rfl | rfl <;> decide
  rw [nameLoop, hb]
  change (if c = ascii '=' then _ else _) = _
  rw [if_neg hne, if_pos hc]
  rfl

/-- A NUL ends the name with the message about the end of the file. -/
theorem nameLoop_zero (hb : b.reserve heap i = .ok b') : nameLoop heap (0 :: fp) b i stop =
    .error (.exit (-1) "%s: unexpected end-of-file at %s: func\n" []) := by
  rw [nameLoop, hb]
  rfl

/-- So does the end of the file. -/
theorem nameLoop_nil (hb : b.reserve heap i = .ok b') : nameLoop heap [] b i stop =
    .error (.exit (-1) "%s: unexpected end-of-file at %s: func\n" []) := by
  rw [nameLoop, hb]
  rfl

/-- There is no parameter without a name. -/
theorem nameLoop_noName (hb : b.reserve heap i = .ok b') : nameLoop heap (ascii '=' :: fp) b i 0 =
    .error (.exit (-1) "%s: invalid parameter name\n" []) := by
  rw [nameLoop, hb]
  rfl

/-- Behind a character without a meaning the loops over a name go on alike, and those over a section name. -/
theorem alike_nameChar {α : Type} {loop : List Byte → ConfBuffer → Nat → Nat → Except Fatal α} {R : α → α → Prop}
    (c : Byte) (hfp : carriageReturn ∉ fp) (hagree : AgreeBelow b b' i) (hle : stop ≤ i)
    (hgo : ∀ {l l' : List Byte} {b b' : ConfBuffer} {i stop : Nat},
      SameRest l l' ∨ (carriageReturn ∉ l ∧ l' = crlf l) → l.length ≤ fp.length → AgreeBelow b b' i →
      AtEnd b i stop → Alike R (loop l b i stop) (loop l' b' i stop)) :
    Alike R
      (if isspace c then loop (eatWhitespace fp) (b.set stop (ascii ' ')) (stop + 1) stop
        else loop fp (b.set i c) (i + 1) (i + 1))
      (if isspace c then loop (eatWhitespace (crlf fp)) (b'.set stop (ascii ' ')) (stop + 1) stop
        else loop (crlf fp) (b'.set i c) (i + 1) (i + 1)) := by
  by_cases hspace : isspace c = true
  · rw [if_pos hspace, if_pos hspace]
    exact hgo (.inl (sameRest_eatWhitespace hfp)) (length_eatWhitespace fp) ((hagree.of_le hle).set _)
      (atEnd_space b stop)
  · rw [if_neg hspace, if_neg hspace]
    exact hgo (.inr ⟨hfp, rfl⟩) (le_refl _) (hagree.set c) (.inl rfl)

include hheap in
/-- The two loops over a name end in the same way. -/
theorem nameLoop_sameEnd {l l' : List Byte} (h : SameRest l l' ∨ (carriageReturn ∉ l ∧ l' = crlf l))
    (hlen : l.length ≤ n) (hb : AgreeBelow b b' i) (hi : AtEnd b i stop) :
    Alike (SameEnd n) (nameLoop heap l b i stop) (nameLoop heap l' b' i stop) := by
  induction hm : l.length using Nat.strong_induction_on generalizing l l' b b' i stop with
  | _ m ih =>
    have hbreak : ∀ {c : Byte} {fp : List Byte} {b b' : ConfBuffer} {i i' stop : Nat},
        c = ascii ';' ∨ c = ascii '#' ∨ c = newline → carriageReturn ∉ fp → fp.length < m →
        AgreeBelow b b' stop → AtEnd b i stop → AtEnd b' i' stop →
        Alike (SameEnd n) (nameLoop heap (c :: fp) b i stop) (nameLoop heap (c :: crlf fp) b' i' stop) := by
      intro c fp b b' i i' stop hc hfp hlt hb hi hi'
      obtain ⟨b₁, b₁', hb₁, hb₁', hbufr, hbufr', hagree⟩ := hb.reserve hheap i i'
      obtain ⟨hfind, hnext⟩ := hagree.continuation (hi.of_eq hbufr) (hi'.of_eq hbufr')
      obtain ⟨htail, hcr⟩ := tail_lineEnd (c := c) hfp
      have hshort := (length_tail_lineEnd c fp).trans_lt hlt
      rw [nameLoop_break hb₁ hc, nameLoop_break hb₁' hc, hfind, htail]
      cases hk : findContinuation b₁.bufr.get i with
      | none => exact .ok (.badLine hcr (by omega))
      | some k =>
        obtain ⟨hbelow, hend⟩ := hnext k hk
        dsimp only
        rw [hend]
        exact ih _ hshort (.inr ⟨hcr, rfl⟩) (by omega) hbelow (atEnd_continuedEnd b₁ k) rfl
    obtain ⟨b₁, b₁', hb₁, hb₁', hbufr, hbufr', hagree⟩ := hb.reserve hheap i i
    have hi' := hi.of_agree hb
    rcases sameRest_or_line h with h | ⟨fp, hfp, rfl, rfl⟩
    · cases h with
      | nil =>
        rw [nameLoop_nil hb₁, nameLoop_nil hb₁']
        exact .error _
      | @char c fp hnl hcr hfp =>
        have hlt : fp.length < m := hm ▸ Nat.lt_succ_self _
        by_cases heq : c = ascii '='
        · rw [heq]
          by_cases hstop : stop = 0
          · rw [hstop, nameLoop_noName hb₁, nameLoop_noName hb₁']
            exact .error _
          · rw [nameLoop_equals hb₁ hstop, nameLoop_equals hb₁' hstop]
            have hname := ((hagree.of_le hi.le).set 0).set 0
            exact .ok (.value hfp (by omega) (hname.of_le (Nat.le_succ _)))
        by_cases hmark : c = ascii ';' ∨ c = ascii '#'
        · have hc : c = ascii ';' ∨ c = ascii '#' ∨ c = newline := hmark.imp_right .inl
          exact hbreak hc hfp hlt (hb.of_le hi.le) hi hi'
        by_cases hzero : c = 0
        · rw [hzero, nameLoop_zero hb₁, nameLoop_zero hb₁']
          exact .error _
        have hplain : c ∉ [0, newline, ascii '=', ascii ';', ascii '#'] := by
          simp only [List.mem_cons, List.not_mem_nil, or_false, not_or] at hmark ⊢
          exact ⟨hzero, hnl, heq, hmark.1, hmark.2⟩
        rw [nameLoop_plain hb₁ hplain, nameLoop_plain hb₁' hplain]
        exact alike_nameChar c hfp hagree hi.le fun hrest hshort hbelow hend =>
          ih _ (by omega) hrest (by omega) hbelow hend rfl
      | @line fp hfp =>
        have hlt : fp.length < m := hm ▸ Nat.lt_succ_self _
        exact hbreak (.inr (.inr rfl)) hfp hlt (hb.of_le hi.le) hi hi'
    · -- the carriage return is a space behind the name
      have hlt : fp.length < m := hm ▸ Nat.lt_succ_self _
      have hspace : isspace carriageReturn = true := by decide
      rw [crlf_newline, nameLoop_plain hb₁' (by decide), if_pos hspace,
        eatWhitespace_cons (fun hand => hand.2 rfl)]
      have hagree' : AgreeBelow b (b₁'.set stop (ascii ' ')) stop :=
        ((hb.of_eq rfl hbufr').of_le hi.le).set_of_le (le_refl _) _
      exact hbreak (.inr (.inr rfl)) hfp hlt hagree' hi (atEnd_space b₁' stop)

/-- The two loops over a value end in the same way, with the same value. -/
structure SameValue (n : Nat) (r r' : List Byte × ConfBuffer × Nat) : Prop where
  rest : carriageReturn ∉ r.1 ∧ r'.1 = crlf r.1
  length : r.1.length ≤ n
  stop : r'.2.2 = r.2.2
  agree : AgreeBelow r.2.1 r'.2.1 r.2.2

include hheap in
/-- The value is the same with either ends of lines, by induction on what is left of the text. -/
theorem valueLoop_sameValue {l l' : List Byte} (h : SameRest l l' ∨ (carriageReturn ∉ l ∧ l' = crlf l))
    (hlen : l.length ≤ n) (hb : AgreeBelow b b' i) (hle : stop ≤ i) :
    Alike (SameValue n) (valueLoop heap l b i stop) (valueLoop heap l' b' i stop) := by
  induction hm : l.length using Nat.strong_induction_on generalizing l l' b b' i stop with
  | _ m ih =>
    have hbreak : ∀ {c : Byte} {fp : List Byte} {b b' : ConfBuffer},
        c = ascii ';' ∨ c = ascii '#' ∨ c = newline → carriageReturn ∉ fp → fp.length < m →
        AgreeBelow b b' i →
        Alike (SameValue n) (valueLoop heap (c :: fp) b i stop) (valueLoop heap (c :: crlf fp) b' i stop) := by
      intro c fp b b' hc hfp hlt hb
      obtain ⟨b₁, b₁', hb₁, hb₁', hbufr, hbufr', hagree⟩ := hb.reserve hheap i i
      have hfind := findContinuation_congr hagree
      obtain ⟨htail, hcr⟩ := tail_lineEnd (c := c) hfp
      have hshort := (length_tail_lineEnd c fp).trans_lt hlt
      rw [valueLoop_break hb₁ hc, valueLoop_break hb₁' hc, ← hfind, htail]
      cases hk : findContinuation b₁.bufr.get i with
      | none => exact .ok ⟨⟨hcr, rfl⟩, by dsimp only; omega, rfl, hagree.of_le hle⟩
      | some k =>
        exact ih _ hshort (.inr ⟨hcr, rfl⟩) (by omega) (hagree.of_le (lt_of_findContinuation hk).le)
          (le_refl k) rfl
    obtain ⟨b₁, b₁', hb₁, hb₁', hbufr, hbufr', hagree⟩ := hb.reserve hheap i i
    rcases sameRest_or_line h with h | ⟨fp, hfp, rfl, rfl⟩
    · cases h with
      | nil =>
        rw [valueLoop.eq_def, valueLoop.eq_def]
        exact .ok ⟨⟨List.not_mem_nil, rfl⟩, Nat.zero_le _, rfl, hb.of_le hle⟩
      | @char c fp hnl hcr hfp =>
        have hlt : fp.length < m := hm ▸ Nat.lt_succ_self _
        by_cases hzero : c = 0
        · rw [valueLoop, valueLoop, if_pos hzero, if_pos hzero]
          exact .ok ⟨⟨hfp, rfl⟩, by dsimp only; omega, rfl, hb.of_le hle⟩
        by_cases hmark : c = ascii ';' ∨ c = ascii '#'
        · have hc : c = ascii ';' ∨ c = ascii '#' ∨ c = newline := hmark.imp_right .inl
          exact hbreak hc hfp hlt hb
        have hplain : c ∉ [0, newline, 0x0D, ascii ';', ascii '#'] := by
          simp only [List.mem_cons, List.not_mem_nil, or_false, not_or] at hmark ⊢
          exact ⟨hzero, hnl, hcr, hmark.1, hmark.2⟩
        rw [valueLoop_plain hb₁ hplain, valueLoop_plain hb₁' hplain]
        refine ih _ hlt (.inr ⟨hfp, rfl⟩) (by omega) (hagree.set c) ?_ rfl
        split <;> omega
      | @line fp hfp =>
        have hlt : fp.length < m := hm ▸ Nat.lt_succ_self _
        exact hbreak (.inr (.inr rfl)) hfp hlt hb
    · -- the carriage return is skipped
      have hlt : fp.length < m := hm ▸ Nat.lt_succ_self _
      rw [crlf_newline, show carriageReturn = 0x0D from rfl, valueLoop_return hb₁']
      exact hbreak (.inr (.inr rfl)) hfp hlt (hb.of_eq rfl hbufr')

/-- The two loops over a section name end in the same way, with the same name. -/
structure SameSection (n : Nat) (r r' : List Byte × ConfBuffer × Option (List Byte)) : Prop where
  rest : carriageReturn ∉ r.1 ∧ r'.1 = crlf r.1
  length : r.1.length ≤ n
  name : r'.2.2 = r.2.2

/-- The end of a line in a section name. -/
theorem sectionLoop_newline (hb : b.reserve heap i = .ok b') :
    sectionLoop heap (newline :: fp) b i stop = match findContinuation b'.bufr.get i with
      | none => .error (.exit (-1) "%s: invalid line: '%s'\n" [])
      | some k => sectionLoop heap fp b' k (continuedEnd b' k) := by
  rw [sectionLoop, if_neg (by decide), hb]
  simp only [bind, Except.bind]
  rw [if_neg (by decide)]
  refine (if_pos trivial).trans ?_
  cases findContinuation b'.bufr.get i <;> rfl

theorem sectionLoop_noName (hb : b.reserve heap i = .ok b') : sectionLoop heap (ascii ']' :: fp) b i 0 =
    .error (.exit (-1) "%s: empty section name\n" []) := by
  rw [sectionLoop, if_neg (by decide), hb]
  rfl

include hheap in
/-- The name of a section is the same with either ends of lines, by induction on what is left of the text. -/
theorem sectionLoop_sameSection {l l' : List Byte}
    (h : SameRest l l' ∨ (carriageReturn ∉ l ∧ l' = crlf l)) (hlen : l.length ≤ n)
    (hb : AgreeBelow b b' i) (hi : AtEnd b i stop) :
    Alike (SameSection n) (sectionLoop heap l b i stop) (sectionLoop heap l' b' i stop) := by
  induction hm : l.length using Nat.strong_induction_on generalizing l l' b b' i stop with
  | _ m ih =>
    have hbreak : ∀ {fp : List Byte} {b b' : ConfBuffer} {i i' stop : Nat},
        carriageReturn ∉ fp → fp.length < m → AgreeBelow b b' stop → AtEnd b i stop →
        AtEnd b' i' stop → Alike (SameSection n) (sectionLoop heap (newline :: fp) b i stop)
          (sectionLoop heap (newline :: crlf fp) b' i' stop) := by
      intro fp b b' i i' stop hfp hlt hb hi hi'
      obtain ⟨b₁, b₁', hb₁, hb₁', hbufr, hbufr', hagree⟩ := hb.reserve hheap i i'
      obtain ⟨hfind, hnext⟩ := hagree.continuation (hi.of_eq hbufr) (hi'.of_eq hbufr')
      rw [sectionLoop_newline hb₁, sectionLoop_newline hb₁', hfind]
      cases hk : findContinuation b₁.bufr.get i with
      | none => exact .error _
      | some k =>
        obtain ⟨hbelow, hend⟩ := hnext k hk
        dsimp only
        rw [hend]
        exact ih _ hlt (.inr ⟨hfp, rfl⟩) (by omega) hbelow (atEnd_continuedEnd b₁ k) rfl
    obtain ⟨b₁, b₁', hb₁, hb₁', hbufr, hbufr', hagree⟩ := hb.reserve hheap i i
    have hi' := hi.of_agree hb
    rcases sameRest_or_line h with h | ⟨fp, hfp, rfl, rfl⟩
    · cases h with
      | nil =>
        rw [sectionLoop.eq_def, sectionLoop.eq_def]
        exact .ok ⟨⟨List.not_mem_nil, rfl⟩, Nat.zero_le _, rfl⟩
      | @char c fp hnl hcr hfp =>
        have hlt : fp.length < m := hm ▸ Nat.lt_succ_self _
        by_cases hzero : c = 0
        · rw [sectionLoop, sectionLoop, if_pos hzero, if_pos hzero]
          exact .ok ⟨⟨hfp, rfl⟩, by dsimp only; omega, rfl⟩
        by_cases hbracket : c = ascii ']'
        · rw [hbracket]
          by_cases hstop : stop = 0
          · rw [hstop, sectionLoop_noName hb₁, sectionLoop_noName hb₁']
            exact .error _
          · have hname := ((hagree.of_le hi.le).set 0).of_le (Nat.le_succ stop)
            obtain ⟨htail, hcr⟩ := (sameRest_eatComment hfp).tail
            have hshort : (eatComment fp).length ≤ fp.length := (List.dropWhile_suffix _).length_le
            rw [sectionLoop_bracket hb₁ hstop, sectionLoop_bracket hb₁' hstop, htail, hname.string 0]
            refine .ok ⟨⟨hcr, rfl⟩, ?_, rfl⟩
            dsimp only
            rw [List.length_tail]
            omega
        have hplain : c ∉ [0, newline, ascii ']'] := by
          simp only [List.mem_cons, List.not_mem_nil, or_false, not_or]
          exact ⟨hzero, hnl, hbracket⟩
        rw [sectionLoop_plain hb₁ hplain, sectionLoop_plain hb₁' hplain]
        exact alike_nameChar c hfp hagree hi.le fun hrest hshort hbelow hend =>
          ih _ (by omega) hrest (by omega) hbelow hend rfl
      | @line fp hfp =>
        have hlt : fp.length < m := hm ▸ Nat.lt_succ_self _
        exact hbreak hfp hlt (hb.of_le hi.le) hi hi'
    · have hlt : fp.length < m := hm ▸ Nat.lt_succ_self _
      have hspace : isspace carriageReturn = true := by decide
      rw [crlf_newline, sectionLoop_plain hb₁' (by decide), if_pos hspace,
        eatWhitespace_cons (fun hand => hand.2 rfl)]
      have hagree' : AgreeBelow b (b₁'.set stop (ascii ' ')) stop :=
        ((hb.of_eq rfl hbufr').of_le hi.le).set_of_le (le_refl _) _
      exact hbreak hfp hlt hagree' hi (atEnd_space b₁' stop)

/-- The two runs are in the same section. What the buffers hold is out of use between lines. -/
def SameCursec (s s' : Conf) : Prop := s.cursec = s'.cursec

/-- What is left of the file behind a line, in the two runs. -/
def SameAnswer (n : Nat) (fp fp' : List Byte) (s s' : Conf) : Prop :=
  (carriageReturn ∉ fp ∧ fp' = crlf fp ∧ fp.length < n) ∧ SameCursec s s'

/-- A change of the two buffers. -/
theorem sideBySide_buffer {f f' : Conf → Conf} (hf : ∀ s, (f s).cursec = s.cursec)
    (hf' : ∀ s, (f' s).cursec = s.cursec) :
    SideBySide SameCursec (update f : ConfAction Unit) (update f' : ConfAction Unit)
      fun _ _ => SameCursec := by
  refine sideBySide_update fun s s' hP => ?_
  rw [SameCursec, hf, hf']
  exact hP

/-- Two loops that end alike are programs that run side by side. -/
theorem sideBySide_confTry {α α' : Type} {P : Conf → Conf → Prop} {Q : α → α' → Prop}
    {r : Except Fatal α} {r' : Except Fatal α'} (h : Alike Q r r') :
    SideBySide P (confTry r) (confTry r') fun a a' s s' => Q a a' ∧ P s s' := by
  cases h with
  | error e => exact sideBySide_stop e
  | ok h => exact sideBySide_pure fun s s' hP => ⟨h, hP⟩

include hheap in
/-- A parameter makes the same call, and leaves the same rest of the text. -/
theorem parseParameter_sideBySide {l l' : List Byte} (h : SameRest l l') :
    SideBySide SameCursec (parseParameter heap l) (parseParameter heap l') (SameAnswer l.length) := by
  refine sideBySide_read.bind fun s s' => ?_
  refine sideBySide_of (P := SameCursec) (p := s.cursec = s'.cursec) ?_ fun hcursec => ?_
  · rintro t t' ⟨hP, rfl, rfl⟩
    exact ⟨hP, hP⟩
  have hname : Alike (SameEnd l.length) (nameLoop heap l s.buffer 0 0) (nameLoop heap l' s'.buffer 0 0) :=
    nameLoop_sameEnd hheap (.inl h) (le_refl _) (fun j hj => absurd hj (Nat.not_lt_zero j)) (.inl rfl)
  refine (sideBySide_confTry hname).bind fun r r' => ?_
  refine sideBySide_of (fun _ _ hQ => hQ) fun hend => ?_
  cases hend with
  | badLine hfp hlen =>
    refine SideBySide.bind (sideBySide_buffer (fun _ => rfl) fun _ => rfl) fun _ _ => ?_
    exact sideBySide_pure fun _ _ hP => ⟨⟨hfp, rfl, hlen⟩, hP⟩
  | @value fp b b' vstart hfp hlen hb =>
    have hvalue := valueLoop_sameValue hheap (.inl (sameRest_eatWhitespace hfp))
      (length_eatWhitespace fp) hb (le_refl vstart)
    refine (sideBySide_confTry hvalue).bind fun a a' => ?_
    refine sideBySide_of (fun _ _ hQ => hQ) fun hend => ?_
    obtain ⟨fp₁, b₁, stop⟩ := a
    obtain ⟨fp₁', b₁', stop'⟩ := a'
    obtain ⟨⟨hcr, hrest⟩, hshort, hstop, hagree⟩ := hend
    dsimp only at hcr hrest hshort hstop hagree ⊢
    subst hrest hstop
    have hstored := (hagree.set 0).of_le (Nat.le_succ _)
    rw [hcursec, hstored.string 0, hstored.string vstart]
    refine SideBySide.bind (sideBySide_buffer (fun _ => rfl) fun _ => rfl) fun _ _ => ?_
    refine (sideBySide_emit (P := SameCursec) (Q := fun _ _ => SameCursec) fun _ _ hP => hP).bind fun _ _ => ?_
    exact sideBySide_pure fun _ _ hP => ⟨⟨hcr, rfl, by omega⟩, hP⟩

include hheap in
/-- A header leaves the same section, and the same rest of the text. -/
theorem parseSection_sideBySide (hfp : carriageReturn ∉ fp) (hlen : fp.length < n) :
    SideBySide SameCursec (parseSection heap fp) (parseSection heap (crlf fp)) (SameAnswer n) := by
  refine sideBySide_read.bind fun s s' => ?_
  refine sideBySide_of (P := SameCursec) (p := s.cursec = s'.cursec) ?_ fun hcursec => ?_
  · rintro t t' ⟨hP, rfl, rfl⟩
    exact ⟨hP, hP⟩
  have hname : Alike (SameSection fp.length) (sectionLoop heap (eatWhitespace fp) s.buffer 0 0)
      (sectionLoop heap (eatWhitespace (crlf fp)) s'.buffer 0 0) :=
    sectionLoop_sameSection hheap (.inl (sameRest_eatWhitespace hfp)) (length_eatWhitespace fp)
      (fun j hj => absurd hj (Nat.not_lt_zero j)) (.inl rfl)
  refine (sideBySide_confTry hname).bind fun a a' => ?_
  refine sideBySide_of (fun _ _ hQ => hQ) fun hend => ?_
  obtain ⟨fp₁, b₁, name⟩ := a
  obtain ⟨fp₁', b₁', name'⟩ := a'
  obtain ⟨⟨hcr, hrest⟩, hshort, hsame⟩ := hend
  dsimp only at hcr hrest hshort hsame ⊢
  subst hrest hsame
  refine (sideBySide_update (P := SameCursec) (Q := fun _ _ => SameCursec) fun _ _ hP => ?_).bind
    fun _ _ => ?_
  · exact congrArg (Option.or _) hP
  · exact sideBySide_pure fun _ _ hP => ⟨⟨hcr, rfl, by omega⟩, hP⟩

include hheap in
/-- The loops over the lines run side by side, with fuel for the shorter text. -/
theorem confLoop_sideBySide {l l' : List Byte} (h : SameRest l l') {fuel fuel' : Nat}
    (hfuel : l.length < fuel) (hfuel' : l.length < fuel') :
    SideBySide SameCursec (confLoop heap fuel l) (confLoop heap fuel' l') fun _ _ => SameCursec := by
  induction fuel generalizing l l' fuel' with
  | zero => exact absurd hfuel (Nat.not_lt_zero _)
  | succ fuel ih =>
    cases fuel' with
    | zero => exact absurd hfuel' (Nat.not_lt_zero _)
    | succ fuel' =>
      -- behind a line the spaces are skipped
      have hrest : ∀ {fp : List Byte}, carriageReturn ∉ fp → fp.length < l.length →
          SideBySide SameCursec (confLoop heap fuel (eatWhitespace fp))
            (confLoop heap fuel' (eatWhitespace (crlf fp))) fun _ _ => SameCursec := by
        intro fp hfp hlen
        have hshort := length_eatWhitespace fp
        exact ih (sameRest_eatWhitespace hfp) (by omega) (by omega)
      have hthen : ∀ {m m' : ConfAction (List Byte)},
          SideBySide SameCursec m m' (SameAnswer l.length) → SideBySide SameCursec
            (m >>= fun fp => confLoop heap fuel (eatWhitespace fp))
            (m' >>= fun fp => confLoop heap fuel' (eatWhitespace fp)) fun _ _ => SameCursec := by
        intro m m' hm
        refine hm.bind fun fp fp' => sideBySide_of (fun _ _ hQ => hQ) ?_
        rintro ⟨hfp, rfl, hlen⟩
        exact hrest hfp hlen
      cases h with
      | nil => exact sideBySide_pure fun _ _ hP => hP
      | @line fp hfp =>
        rw [confLoop, if_neg (by decide), if_pos rfl, confLoop, if_neg (by decide), if_pos rfl]
        exact hrest hfp (Nat.lt_succ_self _)
      | @char c fp hnl hcr hfp =>
        have hline : SameRest (c :: fp) (c :: crlf fp) := .char hnl hcr hfp
        rw [confLoop, confLoop]
        by_cases hzero : c = 0
        · rw [if_pos hzero, if_pos hzero]
          exact sideBySide_pure fun _ _ hP => hP
        rw [if_neg hzero, if_neg hzero, if_neg hnl, if_neg hnl]
        by_cases hmark : c = ascii ';' ∨ c = ascii '#'
        · rw [if_pos hmark, if_pos hmark]
          have hshort : (eatComment fp).length ≤ fp.length := (List.dropWhile_suffix _).length_le
          have hlen : (c :: fp).length = fp.length + 1 := rfl
          exact ih (sameRest_eatComment hfp) (by omega) (by omega)
        rw [if_neg hmark, if_neg hmark]
        by_cases hopen : c = ascii '['
        · rw [if_pos hopen, if_pos hopen]
          exact hthen (parseSection_sideBySide hheap hfp (Nat.lt_succ_self _))
        rw [if_neg hopen, if_neg hopen]
        by_cases hslash : c = backslash
        · rw [if_pos hslash, if_pos hslash]
          exact hrest hfp (Nat.lt_succ_self _)
        rw [if_neg hslash, if_neg hslash]
        exact hthen (parseParameter_sideBySide hheap hline)

end Loops

/-- Where memory is granted, a text without carriage returns makes the same calls as the text with
one before each newline, and ends in the same way. -/
theorem confParse_crlf {heap : Heap} (hheap : ∀ n, heap n = true) {file : List Byte}
    (hfile : carriageReturn ∉ file) (s : Conf) :
    (confParse heap (crlf file) s).trace = (confParse heap file s).trace ∧
      (confParse heap (crlf file) s).result = (confParse heap file s).result := by
  have hrun : SideBySide SameCursec (confParse heap file) (confParse heap (crlf file))
      fun _ _ => SameCursec := by
    have hshort := length_eatWhitespace file
    have hlonger := length_le_crlf file
    rw [confParse, confParse, if_pos (hheap 1024), if_pos (hheap 1024)]
    refine SideBySide.bind (sideBySide_buffer (fun _ => rfl) fun _ => rfl) fun _ _ => ?_
    refine (confLoop_sideBySide hheap (sameRest_eatWhitespace hfile) (by omega) (by omega)).bind
      fun _ _ => ?_
    exact sideBySide_update fun _ _ _ => rfl
  obtain ⟨htrace, hresult⟩ := hrun s s rfl
  refine ⟨htrace.symm, ?_⟩
  generalize (confParse heap file s).result = r at hresult
  generalize (confParse heap (crlf file) s).result = r' at hresult
  cases hresult with
  | error e => rfl
  | ok h => rfl

/-- A section with a value that is continued on the next line. -/
theorem confParse_crlf_section :
    (confParse (fun _ => true) (crlf [ascii '[', ascii 'v', ascii ']', newline, ascii 'f', ascii '=',
      ascii '0', backslash, newline, ascii '1', newline]) ⟨⟨⟨fun _ => 0, []⟩, 0⟩, none⟩).trace =
      (confParse (fun _ => true) [ascii '[', ascii 'v', ascii ']', newline, ascii 'f', ascii '=',
        ascii '0', backslash, newline, ascii '1', newline] ⟨⟨⟨fun _ => 0, []⟩, 0⟩, none⟩).trace ∧
    (confParse (fun _ => true) (crlf [ascii '[', ascii 'v', ascii ']', newline, ascii 'f', ascii '=',
      ascii '0', backslash, newline, ascii '1', newline]) ⟨⟨⟨fun _ => 0, []⟩, 0⟩, none⟩).result =
      (confParse (fun _ => true) [ascii '[', ascii 'v', ascii ']', newline, ascii 'f', ascii '=',
        ascii '0', backslash, newline, ascii '1', newline] ⟨⟨⟨fun _ => 0, []⟩, 0⟩, none⟩).result :=
  confParse_crlf (fun _ => rfl) (by decide) _

end Mcprog
