import Mcprog.Programmer.ConfScan

/-!
# The calls for a configuration

Each line of a configuration text leaves the loop over the lines at the start of the next one,
whatever the buffer holds. A parameter makes one call.
-/

namespace Mcprog

open Interaction Cells

/-- A string without a terminator in it, before one. -/
theorem string_of_slice {b : ConfBuffer} {start : Nat} {xs : List Byte} (hxs : ∀ c ∈ xs, c ≠ 0)
    (hslice : b.bufr.slice start xs.length = xs) (hzero : b.bufr.get (start + xs.length) = 0) {stop : Nat}
    (hstop : start + xs.length ≤ stop) : b.string start stop = xs := by
  obtain ⟨n, hn⟩ := Nat.exists_eq_add_of_le hstop
  have hlen : stop - start = xs.length + n := by omega
  have htake : (xs ++ b.bufr.slice (start + xs.length) n).takeWhile (· ≠ 0) = xs := by
    rw [List.takeWhile_append_of_pos fun c hc => decide_eq_true (hxs c hc)]
    cases n with
    | zero => exact List.append_nil xs
    | succ n =>
      have hcons : b.bufr.slice (start + xs.length) (n + 1) =
          0 :: b.bufr.slice (start + xs.length + 1) n := by
        have hone : b.bufr.slice (start + xs.length) 1 = [0] := congrArg (fun c => [c]) hzero
        rw [Nat.add_comm n 1, Buffer.slice_add, hone]
        rfl
      rw [hcons, List.takeWhile_cons_of_neg (by decide), List.append_nil]
  rw [ConfBuffer.string, hlen, Buffer.slice_add, hslice, htake]

theorem NameRest.ne_zero {r : List Byte} (hr : NameRest r) : ∀ c ∈ r, c ≠ 0 := by
  induction hr with
  | nil => exact fun c hc => nomatch hc
  | char hc hr ih =>
    intro c hmem
    rcases List.mem_cons.mp hmem with rfl | hmem
    · rintro rfl
      exact hc.not_special (by decide)
    · exact ih c hmem
  | space hc hr ih =>
    intro c hmem
    rcases List.mem_cons.mp hmem with rfl | hmem
    · decide
    · rcases List.mem_cons.mp hmem with rfl | hmem
      · rintro rfl
        exact hc.not_special (by decide)
      · exact ih c hmem

/-- There is none in a whole name either. -/
theorem IniName.ne_zero (name : IniName) : ∀ c ∈ name.bytes, c ≠ 0 :=
  (NameRest.char name.first_ok.1 name.rest_ok).ne_zero

/-- What ends a line goes on to its end. -/
theorem Trail.plain (trail : Trail) : ∀ c ∈ trail.bytes, c ≠ 0 ∧ c ≠ newline := by
  intro c hc
  rcases List.mem_append.mp hc with hc | hc
  · obtain ⟨hspace, hnl⟩ := trail.ws.property c hc
    exact ⟨fun h => not_special_of_isspace hspace hnl (by rw [h]; decide), hnl⟩
  · cases hcomment : trail.comment with
    | none => rw [hcomment] at hc; exact nomatch hc
    | some comment =>
      rw [hcomment] at hc
      rcases List.mem_cons.mp hc with rfl | hc
      · rcases comment.mark_eq with h | h <;> rw [h] <;> decide
      · exact comment.plain c hc

section Lines

variable {heap : Heap} (hheap : ∀ n, heap n = true)

/-- The end of a name that is not empty. -/
theorem nameLoop_equals {b b' : ConfBuffer} {i stop : Nat} {fp : List Byte}
    (hb : b.reserve heap i = .ok b') (hstop : stop ≠ 0) :
    nameLoop heap (ascii '=' :: fp) b i stop =
      .ok (.value fp ((b'.set stop 0).set (stop + 1) 0) (stop + 1)) := by
  rw [nameLoop, hb]
  change (if stop = 0 then _ else _) = _
  rw [if_neg hstop]
  rfl

/-- The end of a section name that is not empty. -/
theorem sectionLoop_bracket {b b' : ConfBuffer} {i stop : Nat} {fp : List Byte}
    (hb : b.reserve heap i = .ok b') (hstop : stop ≠ 0) :
    sectionLoop heap (ascii ']' :: fp) b i stop =
      .ok ((eatComment fp).tail, b'.set stop 0, some ((b'.set stop 0).string 0 stop)) := by
  rw [sectionLoop, if_neg (by decide), hb]
  change (if stop = 0 then _ else _) = _
  rw [if_neg hstop]
  rfl

include hheap in
/-- A parameter: one call with the current section, its name and its value. -/
theorem parseParameter_pair (name : IniName) (before after : Blank) (value : IniValue) (trail : Trail)
    {tail : List Byte} (htail : LineTail tail) (s : Conf) :
    ∃ s', s'.cursec = s.cursec ∧
      (parseParameter heap (name.bytes ++ (before.val ++
        ascii '=' :: (after.val ++ (value.bytes ++ (trail.bytes ++ tail)))))).Returns s tail.tail
        [⟨s.cursec, name.bytes, value.bytes⟩] s' := by
  obtain ⟨text, htext⟩ : ∃ text, text = after.val ++ (value.bytes ++ (trail.bytes ++ tail)) := ⟨_, rfl⟩
  rw [← htext]
  obtain ⟨b₁, i₁, hslice₁, hname⟩ :=
    (nameScanner_nameLoop hheap).name name before (ascii '=' :: text) rfl s.buffer
  obtain ⟨b₂, hb₂, hbufr₂⟩ := reserve_granted hheap b₁ i₁
  obtain ⟨n, hn⟩ : ∃ n, n = name.bytes.length := ⟨_, rfl⟩
  have hpos : n ≠ 0 := hn ▸ Nat.succ_ne_zero _
  rw [← hn, nameLoop_equals hb₂ hpos] at hname
  rw [← hn] at hslice₁
  obtain ⟨b₃, hb₃⟩ : ∃ b₃, b₃ = (b₂.set n 0).set (n + 1) 0 := ⟨_, rfl⟩
  rw [← hb₃] at hname
  have hzero : b₃.bufr.get n = 0 := by
    rw [hb₃]
    exact ((b₂.bufr.set n 0).get_set_of_lt 0 (Nat.lt_succ_self n)).trans (b₂.bufr.get_set_self n 0)
  have hslice₃ : b₃.bufr.slice 0 n = name.bytes := by
    rw [hb₃]
    change ((b₂.bufr.set n 0).set (n + 1) 0).slice 0 n = _
    rw [Buffer.slice_set_of_le _ _ (by omega), Buffer.slice_set_of_le _ _ (by omega), hbufr₂, hslice₁]
  obtain ⟨b₄, hvalue, hslice₄, hsame⟩ := valueLoop_value hheap value after trail htail b₃
    (Nat.succ_pos n) hzero
  rw [← htext] at hvalue
  -- the value is terminated behind the name and its terminator
  obtain ⟨stop, hstop⟩ : ∃ stop, stop = n + 1 + value.bytes.length := ⟨_, rfl⟩
  obtain ⟨b₅, hb₅⟩ : ∃ b₅, b₅ = b₄.set stop 0 := ⟨_, rfl⟩
  rw [← hstop] at hvalue
  have hget (j : Nat) (hj : j < stop) : b₅.bufr.get j = b₄.bufr.get j := by
    rw [hb₅]
    exact b₄.bufr.get_set_of_lt 0 hj
  have hnameString : b₅.string 0 stop = name.bytes := by
    refine string_of_slice name.ne_zero ?_ ?_ (by omega)
    · rw [← hn, ← hslice₃]
      exact Buffer.slice_congr fun j _ hj => (hget j (by omega)).trans (hsame j (by omega))
    · rw [← hn, Nat.zero_add, hget n (by omega), hsame n (by omega), hzero]
  have hvalueString : b₅.string (n + 1) stop = value.bytes := by
    refine string_of_slice (fun c hc => ?_) ?_ ?_ (by omega)
    · rintro rfl
      exact value.plain 0 hc List.mem_cons_self
    · exact (Buffer.slice_congr fun j _ hj => hget j (by omega)).trans hslice₄
    · rw [← hstop, hb₅]
      exact b₄.bufr.get_set_self stop 0
  refine ⟨{ s with buffer := b₅ }, rfl, ?_⟩
  rw [Program.Returns, parseParameter]
  change (confTry (nameLoop heap _ s.buffer 0 0) >>= _) s = _
  rw [hname]
  change (confTry (valueLoop heap _ b₃ (n + 1) (n + 1)) >>= _) s = _
  rw [hvalue, ← hnameString, ← hvalueString, hb₅]
  rfl

include hheap in
/-- A header: its name is the current section from then on. -/
theorem parseSection_header (before after : Blank) (name : IniName) (trail : Trail)
    {tail : List Byte} (htail : LineTail tail) (s : Conf) :
    ∃ s', s'.cursec = some name.bytes ∧
      (parseSection heap (before.val ++ (name.bytes ++ (after.val ++
        ascii ']' :: (trail.bytes ++ tail))))).Returns s tail.tail [] s' := by
  obtain ⟨b₁, i₁, hslice₁, hname⟩ :=
    (nameScanner_sectionLoop hheap).name name after (ascii ']' :: (trail.bytes ++ tail)) rfl s.buffer
  obtain ⟨b₂, hb₂, hbufr₂⟩ := reserve_granted hheap b₁ i₁
  have hpos : name.bytes.length ≠ 0 := Nat.succ_ne_zero _
  rw [sectionLoop_bracket hb₂ hpos, eatComment_append trail.plain htail] at hname
  have hstring : (b₂.set name.bytes.length 0).string 0 name.bytes.length = name.bytes := by
    refine string_of_slice name.ne_zero ?_ ?_ (by omega)
    · change (b₂.bufr.set name.bytes.length 0).slice 0 name.bytes.length = _
      rw [Buffer.slice_set_of_le _ _ (by omega), hbufr₂, hslice₁]
    · rw [Nat.zero_add]
      exact b₂.bufr.get_set_self _ 0
  have hskip : eatWhitespace (before.val ++ (name.bytes ++ (after.val ++
      ascii ']' :: (trail.bytes ++ tail)))) =
      name.bytes ++ (after.val ++ ascii ']' :: (trail.bytes ++ tail)) := by
    rw [eatWhitespace_blank]
    exact name.first_ok.1.eatWhitespace _
  refine ⟨⟨b₂.set name.bytes.length 0, some name.bytes⟩, rfl, ?_⟩
  rw [Program.Returns, parseSection]
  change (confTry (sectionLoop heap (eatWhitespace _) s.buffer 0 0) >>= _) s = _
  rw [hskip, hname, hstring]
  rfl

/-- With enough fuel the loop over the lines makes the calls, if it starts with that section. -/
def Parses (heap : Heap) (input : List Byte) (cursec : Option (List Byte)) (calls : List ConfCall) : Prop :=
  ∀ s : Conf, s.cursec = cursec → ∃ s', ∀ fuel, input.length < fuel →
    (confLoop heap fuel input).Returns s () calls s'

variable {cursec : Option (List Byte)} {calls : List ConfCall} {tail : List Byte}

theorem parses_nil : Parses heap [] cursec [] := by
  intro s _
  refine ⟨s, fun fuel _ => ?_⟩
  rw [confLoop.eq_def]
  rfl

/-- Between two lines. -/
theorem parses_lineTail (htail : LineTail tail) (h : Parses heap (eatWhitespace tail.tail) cursec calls) :
    Parses heap tail cursec calls := by
  rcases htail with rfl | ⟨rest, rfl⟩
  · exact h
  · intro s hs
    obtain ⟨s', hs'⟩ := h s hs
    refine ⟨s', fun fuel hfuel => ?_⟩
    rw [List.length_cons] at hfuel
    obtain ⟨fuel, rfl⟩ := Nat.exists_eq_succ_of_ne_zero (show fuel ≠ 0 by omega)
    rw [confLoop, if_neg (by decide), if_pos rfl]
    refine hs' fuel ?_
    have hle := length_eatWhitespace rest
    rw [List.tail_cons]
    omega

/-- A line without a header or a parameter. -/
theorem parses_filler (trail : Trail) (htail : LineTail tail)
    (h : Parses heap (eatWhitespace tail.tail) cursec calls) :
    Parses heap (eatWhitespace (trail.bytes ++ tail)) cursec calls := by
  have hnext := parses_lineTail htail h
  rw [Trail.bytes, List.append_assoc, eatWhitespace_blank]
  cases trail.comment with
  | none =>
    change Parses heap (eatWhitespace tail) cursec calls
    rwa [htail.eatWhitespace]
  | some comment =>
    have hmark : ¬ (isspace comment.mark = true ∧ comment.mark ≠ newline) := by
      rcases comment.mark_eq with h | h <;> rw [h] <;> decide
    have hplain : comment.mark ≠ 0 ∧ comment.mark ≠ newline := by
      rcases comment.mark_eq with h | h <;> rw [h] <;> decide
    change Parses heap (eatWhitespace (comment.mark :: (comment.text ++ tail))) cursec calls
    rw [eatWhitespace_cons hmark]
    intro s hs
    obtain ⟨s', hs'⟩ := hnext s hs
    refine ⟨s', fun fuel hfuel => ?_⟩
    rw [List.length_cons, List.length_append] at hfuel
    obtain ⟨fuel, rfl⟩ := Nat.exists_eq_succ_of_ne_zero (show fuel ≠ 0 by omega)
    rw [confLoop, if_neg hplain.1, if_neg hplain.2, if_pos comment.mark_eq,
      eatComment_append comment.plain htail]
    exact hs' fuel (by omega)

include hheap in
/-- A header makes no call, and names the section of those behind it. -/
theorem parses_header (header : IniHeader) (htail : LineTail tail)
    (h : Parses heap (eatWhitespace tail.tail) (some header.name.bytes) calls) :
    Parses heap (eatWhitespace (header.bytes ++ tail)) cursec calls := by
  obtain ⟨rest, hrest⟩ : ∃ rest, rest = header.before.val ++ (header.name.bytes ++ (header.after.val ++
      ascii ']' :: (header.trail.bytes ++ tail))) := ⟨_, rfl⟩
  have hbytes : eatWhitespace (header.bytes ++ tail) = ascii '[' :: rest := by
    rw [IniHeader.bytes, List.append_assoc, eatWhitespace_blank, hrest]
    simp only [List.cons_append, List.append_assoc]
    exact eatWhitespace_cons (by decide) _
  have hlen : tail.length ≤ rest.length := by
    simp only [hrest, List.length_append, List.length_cons]
    omega
  rw [hbytes]
  intro s _
  obtain ⟨s₁, hcursec, hparse⟩ :=
    parseSection_header hheap header.before header.after header.name header.trail htail s
  rw [← hrest] at hparse
  obtain ⟨s', hs'⟩ := h s₁ hcursec
  refine ⟨s', fun fuel hfuel => ?_⟩
  rw [List.length_cons] at hfuel
  obtain ⟨fuel, rfl⟩ := Nat.exists_eq_succ_of_ne_zero (show fuel ≠ 0 by omega)
  rw [confLoop, if_neg (by decide), if_neg (by decide), if_neg (by decide), if_pos rfl]
  have hnext : (eatWhitespace tail.tail).length < fuel := by
    have hle := length_eatWhitespace tail.tail
    rw [List.length_tail] at hle
    omega
  exact hparse.bind (hs' fuel hnext)

include hheap in
/-- A parameter makes one call. -/
theorem parses_pair (pair : IniPair) (htail : LineTail tail)
    (h : Parses heap (eatWhitespace tail.tail) cursec calls) :
    Parses heap (eatWhitespace (pair.bytes ++ tail)) cursec
      (⟨cursec, pair.name.bytes, pair.value.bytes⟩ :: calls) := by
  obtain ⟨rest, hrest⟩ : ∃ rest, rest = pair.name.rest ++ (pair.before.val ++
      ascii '=' :: (pair.after.val ++ (pair.value.bytes ++ (pair.trail.bytes ++ tail)))) := ⟨_, rfl⟩
  have hfirst := pair.name.first_ok.1
  have hbytes : eatWhitespace (pair.bytes ++ tail) = pair.name.first :: rest := by
    rw [IniPair.bytes, List.append_assoc, eatWhitespace_blank, hrest, IniName.bytes]
    simp only [List.cons_append, List.append_assoc]
    exact hfirst.eatWhitespace _
  have hlen : tail.length ≤ rest.length := by
    simp only [hrest, List.length_append, List.length_cons]
    omega
  rw [hbytes]
  intro s hs
  obtain ⟨s₁, hcursec, hparse⟩ := parseParameter_pair hheap pair.name pair.before pair.after pair.value
    pair.trail htail s
  obtain ⟨s', hs'⟩ := h s₁ (hcursec.trans hs)
  refine ⟨s', fun fuel hfuel => ?_⟩
  rw [List.length_cons] at hfuel
  obtain ⟨fuel, rfl⟩ := Nat.exists_eq_succ_of_ne_zero (show fuel ≠ 0 by omega)
  have hplain := hfirst.not_special
  have hbackslash : pair.name.first ≠ backslash := fun he => hfirst.2 (by rw [he]; decide)
  simp only [special, List.mem_cons, List.not_mem_nil, or_false, not_or] at hplain
  rw [confLoop, if_neg hplain.1, if_neg hplain.2.1, if_neg (by simp [hplain]), if_neg pair.name.first_ok.2,
    if_neg hbackslash]
  have hnext : (eatWhitespace tail.tail).length < fuel := by
    have hle := length_eatWhitespace tail.tail
    rw [List.length_tail] at hle
    omega
  have hcall : (parseParameter heap (pair.name.first :: rest)).Returns s tail.tail
      [⟨cursec, pair.name.bytes, pair.value.bytes⟩] s₁ := by
    rw [hrest, ← hs]
    exact hparse
  exact hcall.bind (hs' fuel hnext)

end Lines

/-- The calls for the lines, from a current section on. -/
def lineCalls : Option (List Byte) → List IniLine → List ConfCall
  | _, [] => []
  | cursec, .filler _ :: lines => lineCalls cursec lines
  | _, .header h :: lines => lineCalls (some h.name.bytes) lines
  | cursec, .pair p :: lines => ⟨cursec, p.name.bytes, p.value.bytes⟩ :: lineCalls cursec lines

/-- The text of a line is followed by its end. -/
theorem linesText_cons (l : IniLine) (lines : List IniLine) :
    ∃ tail, LineTail tail ∧ tail.tail = linesText lines ∧ linesText (l :: lines) = l.bytes ++ tail := by
  cases lines with
  | nil => exact ⟨[], .inl rfl, rfl, by simp [linesText, List.intercalate]⟩
  | cons l' lines =>
    exact ⟨newline :: linesText (l' :: lines), .inr ⟨_, rfl⟩, rfl, by simp [linesText, List.intercalate]⟩

/-- The loop makes the calls of the lines. -/
theorem parses_lines {heap : Heap} (hheap : ∀ n, heap n = true) (lines : List IniLine)
    (cursec : Option (List Byte)) :
    Parses heap (eatWhitespace (linesText lines)) cursec (lineCalls cursec lines) := by
  induction lines generalizing cursec with
  | nil => exact parses_nil
  | cons l lines ih =>
    obtain ⟨tail, htail, hnext, htext⟩ := linesText_cons l lines
    rw [htext]
    cases l with
    | filler t => exact parses_filler t htail (hnext ▸ ih cursec)
    | header h => exact parses_header hheap h htail (hnext ▸ ih _)
    | pair p => exact parses_pair hheap p htail (hnext ▸ ih cursec)

theorem lineCalls_fillers (trails : List Trail) (cursec : Option (List Byte)) (lines : List IniLine) :
    lineCalls cursec (trails.map IniLine.filler ++ lines) = lineCalls cursec lines := by
  induction trails with
  | nil => rfl
  | cons t trails ih => exact ih

/-- The pairs of a section are called with its name. -/
theorem lineCalls_entries (name : List Byte) (entries : List IniEntry) (lines : List IniLine) :
    lineCalls (some name) (entries.map IniEntry.line ++ lines) =
      (entries.filterMap IniEntry.pair?).map (fun p => ⟨some name, p.1, p.2⟩) ++
        lineCalls (some name) lines := by
  induction entries with
  | nil => rfl
  | cons e entries ih =>
    cases e with
    | filler t => exact ih
    | pair p => exact congrArg (ConfCall.mk (some name) p.name.bytes p.value.bytes :: ·) ih

/-- The calls for the sections, by induction on them. -/
theorem lineCalls_sections (sections : List IniSection) (cursec : Option (List Byte)) :
    lineCalls cursec (sections.flatMap IniSection.lines) =
      sections.flatMap fun s => s.pairs.map fun p => ⟨some s.header.name.bytes, p.1, p.2⟩ := by
  induction sections generalizing cursec with
  | nil => rfl
  | cons s sections ih =>
    change lineCalls (some s.header.name.bytes)
      (s.entries.map IniEntry.line ++ sections.flatMap IniSection.lines) = _
    rw [lineCalls_entries, ih]
    rfl

/-- Where memory is granted, `conf_parse` calls its function once for each pair of the text, in
their order, with the section, the name and the value, and returns. -/
theorem confParse_calls {heap : Heap} (hheap : ∀ n, heap n = true) (file : IniFile) (s : Conf) :
    ∃ s', (confParse heap file.text).Returns s () file.calls s' := by
  have hlines := parses_lines hheap file.lines s.cursec
  have hcalls : lineCalls s.cursec file.lines = file.calls := by
    rw [IniFile.lines, lineCalls_fillers, lineCalls_sections]
    rfl
  rw [hcalls] at hlines
  obtain ⟨s₀, hs₀⟩ : ∃ s₀ : Conf, s₀ = { s with buffer := { s.buffer with bsize := 1024 } } := ⟨_, rfl⟩
  obtain ⟨s₁, hs₁⟩ := hlines s₀ (by rw [hs₀])
  obtain ⟨s₂, hs₂⟩ : ∃ s₂ : Conf, s₂ = { buffer := { s₁.buffer with bsize := 0 }, cursec := none } := ⟨_, rfl⟩
  have hloop := hs₁ _ (Nat.lt_succ_of_le (length_eatWhitespace file.text))
  have hlast : (Program.update fun s : Conf => { s with
      buffer := { s.buffer with bsize := 0 }, cursec := none } : ConfAction Unit).Returns s₁ () [] s₂ :=
    Program.returns_update_iff.mpr ⟨rfl, hs₂⟩
  have hrest := hloop.bind (f := fun _ => _) hlast
  rw [List.append_nil] at hrest
  have hfirst : (Program.update fun s : Conf => { s with
      buffer := { s.buffer with bsize := 1024 } } : ConfAction Unit).Returns s () [] s₀ :=
    Program.returns_update_iff.mpr ⟨rfl, hs₀⟩
  refine ⟨s₂, ?_⟩
  rw [confParse, if_pos (hheap 1024)]
  exact hfirst.bind hrest

/-- A board with one parameter, indented and with a comment behind it. -/
def vitaFile : IniFile where
  leading := [⟨⟨[], by simp⟩, some ⟨ascii '#', [ascii 'x'], .inr rfl, by decide⟩⟩]
  sections := [{
    header := {
      indent := ⟨[], by simp⟩
      before := ⟨[], by simp⟩
      name := ⟨ascii 'v', [ascii 'i', ascii 't', ascii 'a'], by decide,
        .char (by decide) (.char (by decide) (.char (by decide) .nil))⟩
      after := ⟨[], by simp⟩
      trail := ⟨⟨[], by simp⟩, none⟩ }
    entries := [.pair {
      indent := ⟨[ascii ' '], by decide⟩
      name := ⟨ascii 'f', [ascii ' ', ascii 'b'], by decide, .space (by decide) .nil⟩
      before := ⟨[ascii ' '], by decide⟩
      after := ⟨[ascii ' '], by decide⟩
      value := ⟨[ascii '0', ascii ' ', ascii '1'], by decide, by decide, by decide⟩
      trail := ⟨⟨[ascii ' '], by decide⟩, some ⟨ascii ';', [], .inl rfl, by simp⟩⟩ }] }]

/-- The file of the example makes one call. -/
theorem confParse_calls_vita : ∃ s', (confParse (fun _ => true) vitaFile.text).Returns
    ⟨⟨⟨fun _ => 0, []⟩, 0⟩, none⟩ ()
    [⟨some [ascii 'v', ascii 'i', ascii 't', ascii 'a'], [ascii 'f', ascii ' ', ascii 'b'],
      [ascii '0', ascii ' ', ascii '1']⟩] s' :=
  confParse_calls (fun _ => rfl) vitaFile _

end Mcprog
