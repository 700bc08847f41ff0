import Mcprog.Programmer.ConfText

/-!
# Names and values in the buffer

The loops over a parameter name and over a section name store a name as it is written, with the
spaces behind it left out. The loop over a value stores it with the spaces behind it, but does
not count these, and stops at the end of its line.
-/

namespace Mcprog

open Interaction Cells

section Names

variable {heap : Heap} (hheap : ∀ n, heap n = true)

include hheap in
/-- Where memory is granted the buffer grows without a change of what it holds. -/
theorem reserve_granted (b : ConfBuffer) (i : Nat) :
    ∃ b', b.reserve heap i = .ok b' ∧ b'.bufr = b.bufr := by
  unfold ConfBuffer.reserve
  split
  · rw [hheap, if_pos rfl]
    exact ⟨_, rfl, rfl⟩
  · exact ⟨b, rfl, rfl⟩

/-- A loop that scans names: a character is stored, and any spaces become one that the end of
the buffer does not count. -/
structure NameScanner {α : Type} (L : List Byte → ConfBuffer → Nat → Nat → α) : Prop where
  char : ∀ {c : Byte} (fp : List Byte) (b : ConfBuffer) (i stop : Nat), NameByte c →
    ∃ b' : ConfBuffer, b'.bufr = b.bufr ∧ L (c :: fp) b i stop = L fp (b'.set i c) (i + 1) (i + 1)
  space : ∀ {c : Byte} (fp : List Byte) (b : ConfBuffer) (i stop : Nat), isspace c = true → c ≠ newline →
    ∃ b' : ConfBuffer, b'.bufr = b.bufr ∧
      L (c :: fp) b i stop = L (eatWhitespace fp) (b'.set stop (ascii ' ')) (stop + 1) stop

/-- The characters with a meaning of their own. -/
def special : List Byte := [0, newline, ascii '=', ascii ';', ascii '#', ascii ']']

theorem NameByte.not_special {c : Byte} (hc : NameByte c) : c ∉ special := by
  intro h
  simp only [special, List.mem_cons, List.not_mem_nil, or_false] at h
  obtain ⟨hspace, hplain⟩ := hc
  simp only [List.mem_cons, List.not_mem_nil, or_false, not_or] at hplain
  rcases h with rfl | rfl | rfl | rfl | rfl | rfl
  · exact hplain.1 rfl
  · exact absurd hspace (by decide)
  · exact hplain.2.2.1 rfl
  · exact hplain.2.2.2.1 rfl
  · exact hplain.2.2.2.2.1 rfl
  · exact hplain.2.2.2.2.2 rfl

theorem not_special_of_isspace {c : Byte} (hc : isspace c = true) (hnl : c ≠ newline) : c ∉ special := by
  intro h
  simp only [special, List.mem_cons, List.not_mem_nil, or_false] at h
  rcases h with rfl | h | rfl | rfl | rfl | rfl
  · exact absurd hc (by decide)
  · exact hnl h
  all_goals exact absurd hc (by decide)

variable {b b' : ConfBuffer} {i stop : Nat} {c : Byte} {fp : List Byte}

/-- A character without a meaning of its own in the loop over a parameter name. -/
theorem nameLoop_plain (hb : b.reserve heap i = .ok b')
    (hc : c ∉ [0, newline, ascii '=', ascii ';', ascii '#']) :
    nameLoop heap (c :: fp) b i stop =
      if isspace c then nameLoop heap (eatWhitespace fp) (b'.set stop (ascii ' ')) (stop + 1) stop
      else nameLoop heap fp (b'.set i c) (i + 1) (i + 1) := by
  simp only [List.mem_cons, List.not_mem_nil, or_false, not_or] at hc
  rw [nameLoop, hb]
  change (if c = ascii '=' then _ else _) = _
  rw [if_neg hc.2.2.1, if_neg (by simp [hc]), if_neg hc.1]

/-- A character without a meaning of its own in the loop over a section name. -/
theorem sectionLoop_plain (hb : b.reserve heap i = .ok b') (hc : c ∉ [0, newline, ascii ']']) :
    sectionLoop heap (c :: fp) b i stop =
      if isspace c then sectionLoop heap (eatWhitespace fp) (b'.set stop (ascii ' ')) (stop + 1) stop
      else sectionLoop heap fp (b'.set i c) (i + 1) (i + 1) := by
  simp only [List.mem_cons, List.not_mem_nil, or_false, not_or] at hc
  rw [sectionLoop, if_neg hc.1, hb]
  change (if c = ascii ']' then _ else _) = _
  rw [if_neg hc.2.2, if_neg hc.2.1]

/-- What has no meaning anywhere has none in a name. -/
theorem not_mem_of_not_special (hc : c ∉ special) {meant : List Byte} (h : meant ⊆ special) : c ∉ meant :=
  fun hmem => hc (h hmem)

include hheap in
theorem nameScanner_nameLoop : NameScanner (nameLoop heap) where
  char fp b i stop hc := by
    obtain ⟨b', hb', hbufr⟩ := reserve_granted hheap b i
    refine ⟨b', hbufr, ?_⟩
    rw [nameLoop_plain hb' (not_mem_of_not_special hc.not_special (by decide)), hc.1]
    rfl
  space fp b i stop hc hnl := by
    obtain ⟨b', hb', hbufr⟩ := reserve_granted hheap b i
    refine ⟨b', hbufr, ?_⟩
    rw [nameLoop_plain hb' (not_mem_of_not_special (not_special_of_isspace hc hnl) (by decide)), hc]
    rfl

include hheap in
theorem nameScanner_sectionLoop : NameScanner (sectionLoop heap) where
  char fp b i stop hc := by
    obtain ⟨b', hb', hbufr⟩ := reserve_granted hheap b i
    refine ⟨b', hbufr, ?_⟩
    rw [sectionLoop_plain hb' (not_mem_of_not_special hc.not_special (by decide)), hc.1]
    rfl
  space fp b i stop hc hnl := by
    obtain ⟨b', hb', hbufr⟩ := reserve_granted hheap b i
    refine ⟨b', hbufr, ?_⟩
    rw [sectionLoop_plain hb' (not_mem_of_not_special (not_special_of_isspace hc hnl) (by decide)), hc]
    rfl

end Names

section Scanning

variable {α : Type} {L : List Byte → ConfBuffer → Nat → Nat → α}

/-- A character behind what is stored. -/
theorem NameScanner.char_slice (hL : NameScanner L) {c : Byte} (hc : NameByte c) (fp : List Byte)
    {b : ConfBuffer} {p : List Byte} (stop : Nat) (hp : b.bufr.slice 0 p.length = p) :
    ∃ b' : ConfBuffer, b'.bufr.slice 0 (p ++ [c]).length = p ++ [c] ∧
      L (c :: fp) b p.length stop = L fp b' (p ++ [c]).length (p ++ [c]).length := by
  obtain ⟨b', hbufr, hstep⟩ := hL.char fp b p.length stop hc
  refine ⟨b'.set p.length c, ?_, ?_⟩
  · rw [List.length_append, List.length_singleton, Buffer.slice_succ, Nat.zero_add]
    change (b'.bufr.set p.length c).slice 0 p.length ++ [(b'.bufr.set p.length c).get p.length] = _
    rw [Buffer.slice_set_of_le _ _ (by omega), Buffer.get_set_self, hbufr, hp]
  · rw [hstep, List.length_append]
    rfl

/-- A space and a character behind what is stored. -/
theorem NameScanner.space_slice (hL : NameScanner L) {c : Byte} (hc : NameByte c) (fp : List Byte)
    {b : ConfBuffer} {p : List Byte} (hp : b.bufr.slice 0 p.length = p) :
    ∃ b' : ConfBuffer, b'.bufr.slice 0 (p ++ [ascii ' ', c]).length = p ++ [ascii ' ', c] ∧
      L (ascii ' ' :: c :: fp) b p.length p.length =
        L fp b' (p ++ [ascii ' ', c]).length (p ++ [ascii ' ', c]).length := by
  obtain ⟨b₁, hbufr, hstep⟩ := hL.space (c := ascii ' ') (c :: fp) b p.length p.length (by decide) (by decide)
  rw [hc.eatWhitespace] at hstep
  have hp₁ : (b₁.set p.length (ascii ' ')).bufr.slice 0 (p ++ [ascii ' ']).length = p ++ [ascii ' '] := by
    rw [List.length_append, List.length_singleton, Buffer.slice_succ, Nat.zero_add]
    change (b₁.bufr.set p.length _).slice 0 p.length ++ [(b₁.bufr.set p.length _).get p.length] = _
    rw [Buffer.slice_set_of_le _ _ (by omega), Buffer.get_set_self, hbufr, hp]
  obtain ⟨b₂, hp₂, hstep₂⟩ := hL.char_slice hc fp p.length hp₁
  rw [List.append_assoc] at hp₂ hstep₂
  have hlen : p.length + 1 = (p ++ [ascii ' ']).length := by
    rw [List.length_append, List.length_singleton]
  refine ⟨b₂, hp₂, ?_⟩
  rw [hstep, hlen]
  exact hstep₂

/-- The rest of a name goes behind what is stored. -/
theorem NameScanner.rest_slice (hL : NameScanner L) {r : List Byte} (hr : NameRest r) (fp : List Byte)
    {b : ConfBuffer} {p : List Byte} (hp : b.bufr.slice 0 p.length = p) :
    ∃ b' : ConfBuffer, b'.bufr.slice 0 (p ++ r).length = p ++ r ∧
      L (r ++ fp) b p.length p.length = L fp b' (p ++ r).length (p ++ r).length := by
  induction hr generalizing b p with
  | nil =>
    rw [List.append_nil]
    exact ⟨b, hp, rfl⟩
  | @char c r hc hr ih =>
    obtain ⟨b₁, hp₁, hstep₁⟩ := hL.char_slice hc (r ++ fp) p.length hp
    obtain ⟨b₂, hp₂, hstep₂⟩ := ih hp₁
    rw [List.append_assoc] at hp₂ hstep₂
    exact ⟨b₂, hp₂, hstep₁.trans hstep₂⟩
  | @space c r hc hr ih =>
    obtain ⟨b₁, hp₁, hstep₁⟩ := hL.space_slice hc (r ++ fp) hp
    obtain ⟨b₂, hp₂, hstep₂⟩ := ih hp₁
    rw [List.append_assoc] at hp₂ hstep₂
    exact ⟨b₂, hp₂, hstep₁.trans hstep₂⟩

/-- A name is stored, and the spaces behind it are not counted. -/
theorem NameScanner.name (hL : NameScanner L) (name : IniName) (ws : Blank) (fp : List Byte)
    (hfp : eatWhitespace fp = fp) (b : ConfBuffer) :
    ∃ (b' : ConfBuffer) (i : Nat), b'.bufr.slice 0 name.bytes.length = name.bytes ∧
      L (name.bytes ++ (ws.val ++ fp)) b 0 0 = L fp b' i name.bytes.length := by
  obtain ⟨b₁, hp₁, hstep₁⟩ := hL.char_slice name.first_ok.1 (name.rest ++ (ws.val ++ fp)) (b := b) (p := []) 0 rfl
  obtain ⟨b₂, hp₂, hstep₂⟩ := hL.rest_slice name.rest_ok (ws.val ++ fp) hp₁
  have hname : L (name.bytes ++ (ws.val ++ fp)) b 0 0 =
      L (ws.val ++ fp) b₂ name.bytes.length name.bytes.length := hstep₁.trans hstep₂
  obtain ⟨ws, hws⟩ := ws
  cases ws with
  | nil => exact ⟨b₂, name.bytes.length, hp₂, hname⟩
  | cons w ws =>
    obtain ⟨hw, hnl⟩ := hws w List.mem_cons_self
    obtain ⟨b₃, hbufr, hstep₃⟩ := hL.space (ws ++ fp) b₂ name.bytes.length name.bytes.length hw hnl
    have hrest : eatWhitespace (ws ++ fp) = fp := by
      have hblank := eatWhitespace_blank ⟨ws, fun c hc => hws c (List.mem_cons_of_mem w hc)⟩ fp
      exact hblank.trans hfp
    rw [hrest] at hstep₃
    refine ⟨_, _, ?_, hname.trans hstep₃⟩
    change (b₃.bufr.set name.bytes.length _).slice 0 name.bytes.length = _
    rw [Buffer.slice_set_of_le _ _ (by omega), hbufr]
    exact hp₂

end Scanning

/-- A backslash that only spaces follow is looked for back to a character that is neither. -/
theorem findContinuation_none {line : Nat → Byte} (stop : Nat) {i : Nat} (hle : stop < i)
    (hstop : isspace (line stop) = false ∧ line stop ≠ backslash)
    (hspace : ∀ j, stop < j → j < i → isspace (line j) = true) : findContinuation line i = none := by
  induction i with
  | zero => omega
  | succ i ih =>
    rw [findContinuation]
    rcases Nat.lt_succ_iff_lt_or_eq.mp hle with hlt | rfl
    · rw [if_pos (hspace i hlt (Nat.lt_succ_self i))]
      exact ih hlt fun j hj hji => hspace j hj (Nat.lt_succ_of_lt hji)
    · rw [hstop.1, if_neg (by decide), if_neg hstop.2]

section Values

variable {heap : Heap} (hheap : ∀ n, heap n = true) {b b' : ConfBuffer} {i stop : Nat} {c : Byte}
  {fp : List Byte}

/-- A character of a value. -/
theorem valueLoop_plain (hb : b.reserve heap i = .ok b')
    (hc : c ∉ [0, newline, 0x0D, ascii ';', ascii '#']) :
    valueLoop heap (c :: fp) b i stop =
      valueLoop heap fp (b'.set i c) (i + 1) (if isspace c then stop else i + 1) := by
  simp only [List.mem_cons, List.not_mem_nil, or_false, not_or] at hc
  rw [valueLoop, if_neg hc.1, hb]
  change (if c = 0x0D then _ else _) = _
  rw [if_neg hc.2.2.1, if_neg (by simp [hc])]

/-- A carriage return is left out. -/
theorem valueLoop_return (hb : b.reserve heap i = .ok b') :
    valueLoop heap (0x0D :: fp) b i stop = valueLoop heap fp b' i stop := by
  rw [valueLoop, if_neg (by decide), hb]
  rfl

/-- The end of a line, or a comment behind it. -/
theorem valueLoop_break (hb : b.reserve heap i = .ok b')
    (hc : c = ascii ';' ∨ c = ascii '#' ∨ c = newline) :
    valueLoop heap (c :: fp) b i stop = match findContinuation b'.bufr.get i with
      | none => .ok ((lineEnd c fp).tail, b', stop)
      | some k => valueLoop heap (lineEnd c fp).tail b' k k := by
  have hzero : c ≠ 0 ∧ c ≠ 0x0D := by
    rcases hc with rfl | rfl | rfl <;> decide
  rw [valueLoop, if_neg hzero.1, hb]
  change (if c = 0x0D then _ else _) = _
  rw [if_neg hzero.2, if_pos hc]
  rfl

/-- The end of a line that is not continued. -/
theorem valueLoop_end (hb : b.reserve heap i = .ok b') (hc : c = ascii ';' ∨ c = ascii '#' ∨ c = newline)
    (hnone : findContinuation b'.bufr.get i = none) :
    valueLoop heap (c :: fp) b i stop = .ok ((lineEnd c fp).tail, b', stop) := by
  rw [valueLoop_break hb hc, hnone]

include hheap in
/-- The characters of a value are stored as they are. -/
theorem valueLoop_chars {v : List Byte} (hv : ∀ c ∈ v, c ∉ [0, newline, 0x0D, ascii ';', ascii '#'])
    (fp : List Byte) (b : ConfBuffer) (i stop : Nat) :
    ∃ (b' : ConfBuffer) (stop' : Nat),
      valueLoop heap (v ++ fp) b i stop = valueLoop heap fp b' (i + v.length) stop' ∧
      b'.bufr.slice i v.length = v ∧ ∀ j < i, b'.bufr.get j = b.bufr.get j := by
  induction v generalizing b i stop with
  | nil => exact ⟨b, stop, rfl, rfl, fun _ _ => rfl⟩
  | cons c v ih =>
    obtain ⟨b₁, hb₁, hbufr⟩ := reserve_granted hheap b i
    obtain ⟨b₂, stop₂, hstep, hslice, hsame⟩ := ih (fun c' hc' => hv c' (List.mem_cons_of_mem c hc'))
      (b₁.set i c) (i + 1) (if isspace c then stop else i + 1)
    refine ⟨b₂, stop₂, ?_, ?_, fun j hj => ?_⟩
    · rw [List.cons_append, valueLoop_plain hb₁ (hv c List.mem_cons_self), hstep, List.length_cons,
        Nat.add_assoc, Nat.add_comm 1]
    · have hc : b₂.bufr.slice i 1 = [c] := by
        change [b₂.bufr.get i] = [c]
        rw [hsame i (Nat.lt_succ_self i)]
        exact congrArg (fun x => [x]) (b₁.bufr.get_set_self i c)
      rw [List.length_cons, Nat.add_comm, Buffer.slice_add, hc, hslice]
      rfl
    · rw [hsame j (Nat.lt_succ_of_lt hj)]
      change (b₁.bufr.set i c).get j = _
      rw [Buffer.get_set_of_lt _ _ hj, hbufr]

include hheap in
/-- Spaces behind a value are stored, but they do not count. -/
theorem valueLoop_blank {ws : List Byte} (hws : ∀ c ∈ ws, isspace c = true ∧ c ≠ newline) (fp : List Byte)
    (b : ConfBuffer) (i stop : Nat) :
    ∃ (b' : ConfBuffer) (i' : Nat), i ≤ i' ∧
      valueLoop heap (ws ++ fp) b i stop = valueLoop heap fp b' i' stop ∧
      (∀ j < i, b'.bufr.get j = b.bufr.get j) ∧ ∀ j, i ≤ j → j < i' → isspace (b'.bufr.get j) = true := by
  induction ws generalizing b i with
  | nil => exact ⟨b, i, le_refl i, rfl, fun _ _ => rfl, fun j hj hj' => by omega⟩
  | cons c ws ih =>
    obtain ⟨b₁, hb₁, hbufr⟩ := reserve_granted hheap b i
    obtain ⟨hspace, hnl⟩ := hws c List.mem_cons_self
    have ih := ih fun c' hc' => hws c' (List.mem_cons_of_mem c hc')
    by_cases hcr : c = 0x0D
    · obtain ⟨b₂, i₂, hle, hstep, hsame, hspaces⟩ := ih b₁ i
      refine ⟨b₂, i₂, hle, ?_, fun j hj => by rw [hsame j hj, hbufr], hspaces⟩
      rw [hcr, List.cons_append, valueLoop_return hb₁, hstep]
    · obtain ⟨b₂, i₂, hle, hstep, hsame, hspaces⟩ := ih (b₁.set i c) (i + 1)
      have hplain : c ∉ [0, newline, 0x0D, ascii ';', ascii '#'] := by
        have hc := not_special_of_isspace hspace hnl
        simp only [special, List.mem_cons, List.not_mem_nil, or_false, not_or] at hc ⊢
        exact ⟨hc.1, hc.2.1, hcr, hc.2.2.2.1, hc.2.2.2.2.1⟩
      refine ⟨b₂, i₂, by omega, ?_, fun j hj => ?_, fun j hj hj' => ?_⟩
      · rw [List.cons_append, valueLoop_plain hb₁ hplain, hspace, if_pos rfl, hstep]
      · rw [hsame j (Nat.lt_succ_of_lt hj)]
        change (b₁.bufr.set i c).get j = _
        rw [Buffer.get_set_of_lt _ _ hj, hbufr]
      · rcases hj.lt_or_eq with hlt | rfl
        · exact hspaces j hlt hj'
        · rw [hsame i (Nat.lt_succ_self i)]
          change isspace ((b₁.bufr.set i c).get i) = true
          rw [Buffer.get_set_self]
          exact hspace

include hheap in
/-- The end of the line, behind which the loop ends. -/
theorem valueLoop_comment (comment : Option IniComment) {tail : List Byte} (htail : LineTail tail)
    (b : ConfBuffer) (i stop : Nat) (hnone : findContinuation b.bufr.get i = none) :
    ∃ b' : ConfBuffer, b'.bufr = b.bufr ∧
      valueLoop heap (comment.elim [] IniComment.bytes ++ tail) b i stop = .ok (tail.tail, b', stop) := by
  obtain ⟨b', hb', hbufr⟩ := reserve_granted hheap b i
  rw [← hbufr] at hnone
  cases comment with
  | none =>
    rcases htail with rfl | ⟨rest, rfl⟩
    · exact ⟨b, rfl, by rw [valueLoop.eq_def]; rfl⟩
    · exact ⟨b', hbufr, valueLoop_end hb' (.inr (.inr rfl)) hnone⟩
  | some comment =>
    have hmark : comment.mark = ascii ';' ∨ comment.mark = ascii '#' ∨ comment.mark = newline :=
      comment.mark_eq.imp_right .inl
    have hnl : comment.mark ≠ newline := by
      rcases comment.mark_eq with h | h <;> rw [h] <;> decide
    refine ⟨b', hbufr, (valueLoop_end hb' hmark hnone).trans ?_⟩
    rw [lineEnd, if_neg hnl, List.append_eq, eatComment_append comment.plain htail]

include hheap in
/-- A value behind a terminator, with what may end its line. -/
theorem valueLoop_value (value : IniValue) (after : Blank) (trail : Trail) {tail : List Byte}
    (htail : LineTail tail) (b : ConfBuffer) {vstart : Nat} (hpos : 0 < vstart)
    (hzero : b.bufr.get (vstart - 1) = 0) :
    ∃ b' : ConfBuffer,
      valueLoop heap (eatWhitespace (after.val ++ (value.bytes ++ (trail.bytes ++ tail)))) b vstart vstart =
        .ok (tail.tail, b', vstart + value.bytes.length) ∧
      b'.bufr.slice vstart value.bytes.length = value.bytes ∧
      ∀ j < vstart, b'.bufr.get j = b.bufr.get j := by
  have hcomment : eatWhitespace (trail.comment.elim [] IniComment.bytes ++ tail) =
      trail.comment.elim [] IniComment.bytes ++ tail := by
    cases htrail : trail.comment with
    | none => exact htail.eatWhitespace
    | some comment =>
      refine eatWhitespace_cons (fun h => ?_) _
      rcases comment.mark_eq with hmark | hmark <;> rw [hmark] at h <;> exact absurd h.1 (by decide)
  rw [eatWhitespace_blank]
  rcases List.eq_nil_or_concat value.bytes with hnil | ⟨front, last, hconcat⟩
  · -- the spaces behind an empty value go with those before it
    have hbefore : findContinuation b.bufr.get vstart = none := by
      refine findContinuation_none (vstart - 1) (by omega) ?_ fun j hj hj' => by omega
      rw [hzero]
      exact ⟨by decide, by decide⟩
    obtain ⟨b', hbufr, hend⟩ := valueLoop_comment hheap trail.comment htail b vstart vstart hbefore
    rw [hnil, List.nil_append, Trail.bytes, List.append_assoc, eatWhitespace_blank, hcomment]
    exact ⟨b', hend, rfl, fun j _ => by rw [hbufr]⟩
  · rw [List.concat_eq_append] at hconcat
    have hlast : isspace last = false ∧ last ≠ backslash :=
      value.last_ok last (by rw [hconcat, List.getLast?_append_cons]; rfl)
    have hplain : ∀ c ∈ front, c ∉ [0, newline, 0x0D, ascii ';', ascii '#'] := fun c hc =>
      value.plain c (by rw [hconcat]; exact List.mem_append_left _ hc)
    have hskip : eatWhitespace (value.bytes ++ (trail.bytes ++ tail)) =
        front ++ (last :: (trail.ws.val ++ (trail.comment.elim [] IniComment.bytes ++ tail))) := by
      have htext : value.bytes ++ (trail.bytes ++ tail) =
          front ++ (last :: (trail.ws.val ++ (trail.comment.elim [] IniComment.bytes ++ tail))) := by
        rw [hconcat, Trail.bytes, List.append_assoc, List.append_assoc]
        rfl
      rw [← htext]
      cases hbytes : value.bytes with
      | nil => simp [hbytes] at hconcat
      | cons c r =>
        have hc := value.head_ok c (by rw [hbytes]; rfl)
        exact eatWhitespace_cons (fun h => by rw [hc] at h; exact absurd h.1 (by decide)) _
    obtain ⟨b₁, stop₁, hstep₁, hslice₁, hsame₁⟩ := valueLoop_chars hheap hplain
      (last :: (trail.ws.val ++ (trail.comment.elim [] IniComment.bytes ++ tail))) b vstart vstart
    obtain ⟨b₂, hb₂, hbufr₂⟩ := reserve_granted hheap b₁ (vstart + front.length)
    obtain ⟨b₃, i₃, hle₃, hstep₃, hsame₃, hspaces⟩ := valueLoop_blank hheap trail.ws.property
      (trail.comment.elim [] IniComment.bytes ++ tail) (b₂.set (vstart + front.length) last)
      (vstart + front.length + 1) (vstart + front.length + 1)
    have hlastget : b₃.bufr.get (vstart + front.length) = last := by
      rw [hsame₃ _ (Nat.lt_succ_self _)]
      exact b₂.bufr.get_set_self _ last
    have hnone : findContinuation b₃.bufr.get i₃ = none := by
      refine findContinuation_none (vstart + front.length) (by omega) ?_ fun j hj hj' => ?_
      · rw [hlastget]
        exact hlast
      · exact hspaces j hj hj'
    obtain ⟨b₄, hbufr₄, hend⟩ := valueLoop_comment hheap trail.comment htail b₃ i₃
      (vstart + front.length + 1) hnone
    have hget (j : Nat) (hj : j < vstart + front.length) : b₄.bufr.get j = b₁.bufr.get j := by
      rw [hbufr₄, hsame₃ j (by omega)]
      change (b₂.bufr.set _ last).get j = _
      rw [Buffer.get_set_of_lt _ _ hj, hbufr₂]
    have hlen : value.bytes.length = front.length + 1 := by rw [hconcat, List.length_append]; rfl
    refine ⟨b₄, ?_, ?_, fun j hj => ?_⟩
    · rw [hskip, hstep₁, valueLoop_plain hb₂ (value.plain last (by rw [hconcat]; simp)), hlast.1,
        if_neg (by decide), hstep₃, hend, hlen]
      rfl
    · rw [hlen, Buffer.slice_succ, hbufr₄, hlastget, ← hbufr₄,
        Buffer.slice_congr fun j _ hj => hget j hj, hslice₁, hconcat]
    · rw [hget j (by omega), hsame₁ j hj]

end Values

end Mcprog
