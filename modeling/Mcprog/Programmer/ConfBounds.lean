import Mcprog.Library.Simulation
import Mcprog.Programmer.ConfLineEnds

/-!
# The buffer of the configuration file

The parser once more, with its positions as the integers that they are, which may become negative,
and with all its stores, those on the way to an error as well. It shows each body of a loop that it
enters, each store, each continuation of a value and each call. The parser whose positions are
natural numbers is what is seen of it when only the calls are looked at.
-/

namespace Mcprog

open Interaction Program Cells

/-- What the parser does. -/
inductive ConfEvent
  /-- The body of a loop is entered. -/
  | body (stop i : Int)
  /-- A character is stored in a buffer of `bsize`, with the value starting at `vstart`, or at 0 where
  no value has started. -/
  | store (vstart index : Int) (bsize : Nat)
  /-- A line of the value that starts at `vstart` is continued at `i`. -/
  | continued (vstart i : Int)
  /-- `pfunc` is called. -/
  | call (c : ConfCall)
  deriving DecidableEq

/-- A body is entered with its positions in order, a store is inside the buffer and not before the
value, and a value is not continued before its start. -/
def ConfEvent.Sound : ConfEvent → Prop
  | body stop i => 0 ≤ stop ∧ stop ≤ i
  | store vstart index bsize => 0 ≤ vstart ∧ vstart ≤ index ∧ index < bsize
  | continued vstart i => vstart ≤ i
  | call _ => True

/-- The calls among the events. -/
def ConfEvent.call? : ConfEvent → Option ConfCall
  | call c => some c
  | body _ _ | store _ _ _ | continued _ _ => none

/-- A program that parses the file and shows what it does with the buffer. -/
abbrev RawConf (α : Type) : Type := Program ConfEvent Conf Fatal α

/-- `find_continuation`, which answers -1 where there is none. -/
def rawFindContinuation (line : Nat → Byte) (pos : Int) : Int :=
  match findContinuation line pos.toNat with
  | none => -1
  | some k => k

/-- The loop that takes the end of a value back over spaces. -/
def trimEnd (line : Nat → Byte) : Nat → Int
  | 0 => if isspace (line 0) then -1 else 0
  | n + 1 => if isspace (line (n + 1)) then trimEnd line n else n + 1

/-- `bufr[index] = c`. -/
def rawStore (vstart index : Int) (c : Byte) : RawConf Unit := do
  let s ← Program.read
  emit (.store vstart index s.buffer.bsize)
  Program.update fun s => { s with buffer := s.buffer.set index.toNat c }

variable (heap : Heap)

/-- Ensure there is space for the next character. -/
def rawReserve (i : Int) : RawConf Unit := do
  let s ← Program.read
  if i > (s.buffer.bsize : Int) - 2 then
    if heap (s.buffer.bsize + 1024) then
      Program.update fun s => { s with buffer := { s.buffer with bsize := s.buffer.bsize + 1024 } }
    else Program.stop (.exit (-1) "%s: malloc failed\n" [])
  else pure ()

/-- How the loop over the name ends: at the start of the value, or with the line. -/
inductive RawNameEnd
  | value (fp : List Byte) (vstart : Int)
  | badLine (fp : List Byte)

/-- The loop until the start of the value. -/
def rawNameLoop (input : List Byte) (i stop : Int) : RawConf RawNameEnd := do
  emit (.body stop i)
  rawReserve heap i
  match input with
  | [] => do
    rawStore 0 i 0
    Program.stop (.exit (-1) "%s: unexpected end-of-file at %s: func\n" [])
  | c :: fp =>
    if c = ascii '=' then
      if stop = 0 then Program.stop (.exit (-1) "%s: invalid parameter name\n" [])
      else do
        rawStore 0 stop 0
        rawStore (stop + 1) (stop + 1) 0
        return .value fp (stop + 1)
    else if c = ascii ';' ∨ c = ascii '#' ∨ c = newline then do
      let s ← Program.read
      let i := rawFindContinuation s.buffer.bufr.get i
      if i < 0 then do
        rawStore 0 stop 0
        return .badLine (lineEnd c fp).tail
      else
        rawNameLoop (lineEnd c fp).tail i
          (if i > 0 ∧ s.buffer.bufr.get (i - 1).toNat = ascii ' ' then i - 1 else i)
    else if c = 0 then do
      rawStore 0 i 0
      Program.stop (.exit (-1) "%s: unexpected end-of-file at %s: func\n" [])
    else if isspace c then do
      rawStore 0 stop (ascii ' ')
      rawNameLoop (eatWhitespace fp) (stop + 1) stop
    else do
      rawStore 0 i c
      rawNameLoop fp (i + 1) (i + 1)
termination_by input.length
decreasing_by
  · exact Nat.lt_succ_of_le (length_tail_lineEnd c fp)
  · exact Nat.lt_succ_of_le (length_eatWhitespace fp)
  · exact Nat.lt_succ_self _

/-- The loop over the value, with what is left of the file and the end of the value. -/
def rawValueLoop (vstart : Int) (input : List Byte) (i stop : Int) : RawConf (List Byte × Int) :=
  match input with
  | [] => return ([], stop)
  | c :: fp =>
    if c = 0 then return (fp, stop)
    else do
      emit (.body stop i)
      rawReserve heap i
      if c = 0x0D then
        rawValueLoop vstart fp i stop
      else if c = ascii ';' ∨ c = ascii '#' ∨ c = newline then do
        let s ← Program.read
        let i := rawFindContinuation s.buffer.bufr.get i
        if i < 0 then return ((lineEnd c fp).tail, stop)
        else do
          emit (.continued vstart i)
          rawValueLoop vstart (lineEnd c fp).tail i (trimEnd s.buffer.bufr.get i.toNat)
      else do
        rawStore vstart i c
        rawValueLoop vstart fp (i + 1) (if isspace c then stop else i + 1)
termination_by input.length
decreasing_by
  · exact Nat.lt_succ_self _
  · exact Nat.lt_succ_of_le (length_tail_lineEnd c fp)
  · exact Nat.lt_succ_self _

/-- The loop over a section name. The name is `none` where the file ends before it does. -/
def rawSectionLoop (input : List Byte) (i stop : Int) : RawConf (List Byte × Option (List Byte)) :=
  match input with
  | [] => return ([], none)
  | c :: fp =>
    if c = 0 then return (fp, none)
    else do
      emit (.body stop i)
      rawReserve heap i
      if c = ascii ']' then do
        rawStore 0 stop 0
        if stop = 0 then Program.stop (.exit (-1) "%s: empty section name\n" [])
        else do
          let s ← Program.read
          return ((eatComment fp).tail, some (s.buffer.string 0 stop.toNat))
      else if c = newline then do
        let s ← Program.read
        let i := rawFindContinuation s.buffer.bufr.get i
        if i < 0 then do
          rawStore 0 stop 0
          Program.stop (.exit (-1) "%s: invalid line: '%s'\n" [])
        else
          rawSectionLoop fp i (if i > 0 ∧ s.buffer.bufr.get (i - 1).toNat = ascii ' ' then i - 1 else i)
      else if isspace c then do
        rawStore 0 stop (ascii ' ')
        rawSectionLoop (eatWhitespace fp) (stop + 1) stop
      else do
        rawStore 0 i c
        rawSectionLoop fp (i + 1) (i + 1)
termination_by input.length
decreasing_by
  · exact Nat.lt_succ_self _
  · exact Nat.lt_succ_of_le (length_eatWhitespace fp)
  · exact Nat.lt_succ_self _

/-- Scan a name and value pair and pass it to `pfunc`. What is left of the file is returned. -/
def rawParseParameter (input : List Byte) : RawConf (List Byte) := do
  match ← rawNameLoop heap input 0 0 with
  | .badLine fp => return fp
  | .value fp vstart =>
    let (fp, stop) ← rawValueLoop heap vstart (eatWhitespace fp) vstart vstart
    rawStore vstart stop 0
    let s ← Program.read
    emit (.call ⟨s.cursec, s.buffer.string 0 stop.toNat, s.buffer.string vstart.toNat stop.toNat⟩)
    return fp

/-- Scan a section name and remember it. What is left of the file is returned. -/
def rawParseSection (fp : List Byte) : RawConf (List Byte) := do
  let (fp, name) ← rawSectionLoop heap (eatWhitespace fp) 0 0
  Program.update fun s => { s with cursec := name.or s.cursec }
  return fp

/-- The loop over the lines. -/
def rawConfLoop : Nat → List Byte → RawConf Unit
  | _, [] => pure ()
  | 0, _ => Program.stop .fuel
  | fuel + 1, c :: fp =>
    if c = 0 then pure ()
    else if c = newline then
      rawConfLoop fuel (eatWhitespace fp)
    else if c = ascii ';' ∨ c = ascii '#' then
      rawConfLoop fuel (eatComment fp)
    else if c = ascii '[' then do
      let fp ← rawParseSection heap fp
      rawConfLoop fuel (eatWhitespace fp)
    else if c = backslash then
      rawConfLoop fuel (eatWhitespace fp)
    else do
      let fp ← rawParseParameter heap (c :: fp)
      rawConfLoop fuel (eatWhitespace fp)

/-- Process a file of parameters. Each turn of the loop takes a character at least. -/
def rawConfParse (file : List Byte) : RawConf Unit := do
  if heap 1024 then
    Program.update fun s => { s with buffer := { s.buffer with bsize := 1024 } }
    rawConfLoop heap (file.length + 1) (eatWhitespace file)
    Program.update fun s => { s with buffer := { s.buffer with bsize := 0 }, cursec := none }
  else
    Program.stop (.exit (-1) "%s: malloc failed\n" [])

/-- The calls are seen of the raw parser. Its events are sound, and it never runs out of fuel. -/
def confView : View ConfEvent ConfCall Fatal := ⟨ConfEvent.call?, ConfEvent.Sound, (· ≠ .fuel)⟩

section Steps

variable {heap : Heap} {α α' : Type} {s s' : Conf} {m : RawConf α} {m' : ConfAction α'}
  {Q : α → α' → Conf → Conf → Prop} {b : ConfBuffer} {i k stop vstart : Nat}

/-- A body is entered. -/
theorem follows_body (h : stop ≤ i) (hm : Follows confView m s m' s' Q) :
    Follows confView (do emit (.body stop i); m) s m' s' Q := by
  have hemit : (emit (.body stop i) : RawConf Unit).Returns s () [.body stop i] s := rfl
  refine hemit.follows ?_ hm
  intro e he
  rw [List.mem_singleton.mp he]
  exact ⟨⟨Int.natCast_nonneg _, Int.ofNat_le.mpr h⟩, rfl⟩

/-- A character is stored. -/
theorem follows_store {c : Byte} (h : vstart ≤ i) (hi : i < s.buffer.bsize)
    (hm : Follows confView m { s with buffer := s.buffer.set i c } m' s' Q) :
    Follows confView (do rawStore vstart i c; m) s m' s' Q := by
  have hstore : (rawStore vstart i c).Returns s () [.store vstart i s.buffer.bsize]
      { s with buffer := s.buffer.set i c } := rfl
  refine hstore.follows ?_ hm
  intro e he
  rw [List.mem_singleton.mp he]
  exact ⟨⟨Int.natCast_nonneg _, Int.ofNat_le.mpr h, Int.ofNat_lt.mpr hi⟩, rfl⟩

/-- A buffer that is as large as it is allocated first. -/
def ConfBuffer.Large (b : ConfBuffer) : Prop := 1024 ≤ b.bsize

/-- The buffer grows where there is no space for a character and a terminator. -/
theorem follows_reserve {f : ConfBuffer → Except Fatal α'} (hlarge : s.buffer.Large) (hi : i < s.buffer.bsize)
    (hm : ∀ b, b.bufr = s.buffer.bufr → b.Large → i + 1 < b.bsize →
      Follows confView m { s with buffer := b } (confTry (f b)) s' Q) :
    Follows confView (do rawReserve heap i; m) s (confTry (s.buffer.reserve heap i >>= f)) s' Q := by
  unfold ConfBuffer.Large at hlarge
  rw [rawReserve, bind_assoc]
  refine follows_read ?_
  unfold ConfBuffer.reserve
  by_cases hfull : i > s.buffer.bsize - 2
  · rw [if_pos hfull, if_pos (by omega)]
    by_cases hheap : heap (s.buffer.bsize + 1024) = true
    · rw [if_pos hheap, if_pos hheap]
      refine follows_update (hm { s.buffer with bsize := s.buffer.bsize + 1024 } rfl ?_ ?_)
      · unfold ConfBuffer.Large
        dsimp only
        omega
      · dsimp only
        omega
    · rw [if_neg hheap, if_neg hheap]
      change Follows confView (Program.stop _) s (Program.stop _) s' Q
      exact follows_stop (by simp [confView])
  · rw [if_neg hfull, if_neg (by omega)]
    have hpure : (pure () : RawConf Unit).Returns s () [] s := rfl
    exact hpure.follows (fun _ he => absurd he List.not_mem_nil) (hm s.buffer rfl hlarge (by omega))

/-- The position of a continuation, where there is one, is that of a backslash. -/
theorem get_of_findContinuation {line : Nat → Byte} (h : findContinuation line i = some k) :
    line k = backslash := by
  induction i with
  | zero => cases h
  | succ i ih =>
    rw [findContinuation] at h
    split_ifs at h with hspace hslash
    · exact ih h
    · exact Option.some.inj h ▸ hslash

/-- The search does not go over what is neither a space nor a backslash. -/
theorem lt_of_findContinuation_zero {line : Nat → Byte} {p : Nat} (hp : line p = 0) (hi : p < i)
    (h : findContinuation line i = some k) : p < k := by
  induction i with
  | zero => cases h
  | succ i ih =>
    rw [findContinuation] at h
    split_ifs at h with hspace hslash
    · rcases Nat.lt_succ_iff_lt_or_eq.mp hi with hlt | rfl
      · exact ih hlt h
      · rw [hp] at hspace
        exact absurd hspace (by decide)
    · obtain rfl := Option.some.inj h
      rcases Nat.lt_succ_iff_lt_or_eq.mp hi with hlt | rfl
      · exact hlt
      · rw [hp] at hslash
        exact absurd hslash (by decide)

/-- The mark of a continued line is no space. -/
theorem trimEnd_of_findContinuation {line : Nat → Byte} (h : findContinuation line i = some k) :
    trimEnd line k = k := by
  have hspace : isspace (line k) = false := by
    rw [get_of_findContinuation h]
    decide
  cases k with
  | zero => rw [trimEnd, hspace, if_neg (by decide), Nat.cast_zero]
  | succ k => rw [trimEnd, hspace, if_neg (by decide), Nat.cast_succ]

/-- The end of a continued line is not behind its mark. -/
theorem continuedEnd_le (b : ConfBuffer) (k : Nat) : continuedEnd b k ≤ k := by
  unfold continuedEnd
  split <;> omega

/-- The new end behind a continuation. -/
theorem cast_continuedEnd (b : ConfBuffer) (k : Nat) :
    (if (k : Int) > 0 ∧ b.bufr.get ((k : Int) - 1).toNat = ascii ' ' then (k : Int) - 1 else k) =
      continuedEnd b k := by
  have hprev : ((k : Int) - 1).toNat = k - 1 := by omega
  unfold continuedEnd
  rw [hprev]
  by_cases hk : k > 0 ∧ b.bufr.get (k - 1) = ascii ' '
  · rw [if_pos hk, if_pos ⟨Int.ofNat_lt.mpr hk.1, hk.2⟩]
    omega
  · rw [if_neg hk, if_neg fun h => hk ⟨Int.ofNat_lt.mp h.1, h.2⟩]

/-- The loop of the source finds the same place, and -1 where there is none. -/
theorem rawFindContinuation_natCast (line : Nat → Byte) (i : Nat) :
    rawFindContinuation line i = (findContinuation line i).elim (-1) Nat.cast := by
  rw [rawFindContinuation, Int.toNat_natCast]
  cases findContinuation line i <;> rfl

end Steps

/-- The two loops over a name end alike, with less than `n` characters left. -/
inductive NameFollows (n : Nat) (cursec : Option (List Byte)) : RawNameEnd → NameEnd → Conf → Prop
  | badLine {fp : List Byte} {b : ConfBuffer} (hfp : fp.length < n) (hlarge : b.Large) :
    NameFollows n cursec (.badLine fp) (.badLine fp b) ⟨b, cursec⟩
  | value {fp : List Byte} {b : ConfBuffer} {vstart : Nat} (hfp : fp.length < n) (hlarge : b.Large)
    (hpos : 0 < vstart) (hlt : vstart < b.bsize) (hzero : b.bufr.get (vstart - 1) = 0) :
    NameFollows n cursec (.value fp vstart) (.value fp b vstart) ⟨b, cursec⟩

section Loops

variable {heap : Heap} {s s' : Conf} {i stop : Nat}

/-- Behind a character without a meaning the loops over a name go on alike, and those over a section name. -/
theorem follows_nameChar {α α' : Type} {rawLoop : List Byte → Int → Int → RawConf α}
    {loop : List Byte → ConfBuffer → Nat → Nat → Except Fatal α'} {Q : α → α' → Conf → Conf → Prop}
    {b : ConfBuffer} {cursec : Option (List Byte)} {fp : List Byte} (c : Byte) (hstop : stop ≤ i)
    (hroom : i + 1 < b.bsize) (hlarge : b.Large)
    (hgo : ∀ (input : List Byte) (b' : ConfBuffer) (i' stop' : Nat), input.length ≤ fp.length → stop' ≤ i' →
      i' < b'.bsize → b'.Large →
      Follows confView (rawLoop input i' stop') ⟨b', cursec⟩ (confTry (loop input b' i' stop')) s' Q) :
    Follows confView
      (if isspace c then do
        rawStore 0 stop (ascii ' ')
        rawLoop (eatWhitespace fp) (stop + 1) stop
      else do
        rawStore 0 i c
        rawLoop fp (i + 1) (i + 1)) ⟨b, cursec⟩
      (confTry (if isspace c then loop (eatWhitespace fp) (b.set stop (ascii ' ')) (stop + 1) stop
        else loop fp (b.set i c) (i + 1) (i + 1))) s' Q := by
  by_cases hspace : isspace c
  · rw [if_pos hspace, if_pos hspace]
    refine follows_store (i := stop) (Nat.zero_le _) (show stop < b.bsize by omega) ?_
    have hrun := hgo (eatWhitespace fp) (b.set stop (ascii ' ')) _ _ (length_eatWhitespace fp) (Nat.le_succ stop)
      (show stop + 1 < b.bsize by omega) hlarge
    rwa [Nat.cast_succ] at hrun
  · rw [if_neg hspace, if_neg hspace]
    refine follows_store (Nat.zero_le i) (show i < b.bsize by omega) ?_
    have hrun := hgo fp (b.set i c) _ _ (le_refl _) (le_refl (i + 1)) hroom hlarge
    rwa [Nat.cast_succ] at hrun

/-- The name is read with the same buffer, by induction on the text. -/
theorem rawNameLoop_follows (input : List Byte) (hstop : stop ≤ i) (hi : i < s.buffer.bsize)
    (hlarge : s.buffer.Large) {n : Nat} (hn : input.length ≤ n) :
    Follows confView (rawNameLoop heap input i stop) s (confTry (nameLoop heap input s.buffer i stop)) s'
      fun a a' t t' => NameFollows n s.cursec a a' t ∧ t' = s' := by
  induction hlen : input.length using Nat.strong_induction_on generalizing input s i stop with
  | _ len ih =>
  subst hlen
  rw [rawNameLoop.eq_def, nameLoop.eq_def]
  refine follows_body hstop (follows_reserve hlarge hi fun b hb hlarge hroom => ?_)
  have hi' : i < b.bsize := by omega
  have hstop' : stop < b.bsize := by omega
  have hnext : stop + 1 < b.bsize := by omega
  cases input with
  | nil => exact follows_store (Nat.zero_le i) hi' (follows_stop (by simp [confView]))
  | cons c fp =>
    rw [List.length_cons] at ih hn
    have hgo : ∀ (input : List Byte) (b' : ConfBuffer) (i' stop' : Nat), input.length ≤ fp.length → stop' ≤ i' →
        i' < b'.bsize → b'.Large → Follows confView (rawNameLoop heap input i' stop') ⟨b', s.cursec⟩
          (confTry (nameLoop heap input b' i' stop')) s' fun a a' t t' => NameFollows n s.cursec a a' t ∧ t' = s' :=
      fun input b' i' stop' hshort hle hlt hlarge' =>
        ih input.length (Nat.lt_succ_of_le hshort) (s := ⟨b', s.cursec⟩) input hle hlt hlarge' (by omega) rfl
    dsimp only
    by_cases heq : c = ascii '='
    · rw [if_pos heq, if_pos heq]
      by_cases hname : stop = 0
      · rw [if_pos hname, if_pos (by omega)]
        exact follows_stop (by simp [confView])
      · rw [if_neg hname, if_neg (by omega)]
        refine follows_store (i := stop) (Nat.zero_le _) hstop' ?_
        refine follows_store (le_refl (stop + 1)) hnext ?_
        refine follows_pure ⟨.value (by omega) hlarge (Nat.succ_pos stop) hnext ?_, rfl⟩
        exact (Buffer.get_set_of_lt _ _ (Nat.lt_succ_self stop)).trans (Buffer.get_set_self _ _ _)
    rw [if_neg heq, if_neg heq]
    by_cases hbreak : c = ascii ';' ∨ c = ascii '#' ∨ c = newline
    · rw [if_pos hbreak, if_pos hbreak]
      refine follows_read ?_
      have hline := length_tail_lineEnd c fp
      rw [rawFindContinuation_natCast]
      cases hk : findContinuation b.bufr.get i with
      | none =>
        rw [Option.elim_none, if_pos (by decide)]
        refine follows_store (i := stop) (Nat.zero_le _) hstop' ?_
        exact follows_pure ⟨.badLine (by omega) hlarge, rfl⟩
      | some k =>
        have hlt := lt_of_findContinuation hk
        rw [Option.elim_some, if_neg (by omega), cast_continuedEnd]
        exact hgo _ b k _ hline (continuedEnd_le b k) (lt_trans hlt hi') hlarge
    rw [if_neg hbreak, if_neg hbreak]
    by_cases hzero : c = 0
    · rw [if_pos hzero, if_pos hzero]
      exact follows_store (Nat.zero_le i) hi' (follows_stop (by simp [confView]))
    rw [if_neg hzero, if_neg hzero]
    exact follows_nameChar c hstop hroom hlarge hgo

/-- The two loops over a value end alike, with no more than `n` characters left. -/
structure ValueFollows (n vstart : Nat) (cursec : Option (List Byte)) (r : List Byte × Int)
    (r' : List Byte × ConfBuffer × Nat) (t : Conf) : Prop where
  rest : r.1 = r'.1
  short : r'.1.length ≤ n
  stop : r.2 = r'.2.2
  start : vstart ≤ r'.2.2
  room : r'.2.2 < r'.2.1.bsize
  large : r'.2.1.Large
  state : t = ⟨r'.2.1, cursec⟩

/-- The value is read with the same buffer, by induction on the text. -/
theorem rawValueLoop_follows {vstart : Nat} (input : List Byte) (hpos : 0 < vstart) (hv : vstart ≤ stop)
    (hstop : stop ≤ i) (hi : i < s.buffer.bsize) (hlarge : s.buffer.Large)
    (hsep : s.buffer.bufr.get (vstart - 1) = 0) {n : Nat} (hn : input.length ≤ n) :
    Follows confView (rawValueLoop heap vstart input i stop) s
      (confTry (valueLoop heap input s.buffer i stop)) s'
      fun a a' t t' => ValueFollows n vstart s.cursec a a' t ∧ t' = s' := by
  induction hlen : input.length using Nat.strong_induction_on generalizing input s i stop with
  | _ len ih =>
  subst hlen
  cases input with
  | nil =>
    rw [rawValueLoop, valueLoop]
    exact follows_pure ⟨⟨rfl, hn, rfl, hv, by dsimp only; omega, hlarge, rfl⟩, rfl⟩
  | cons c fp =>
    rw [List.length_cons] at ih hn
    rw [rawValueLoop, valueLoop]
    by_cases hnul : c = 0
    · rw [if_pos hnul, if_pos hnul]
      exact follows_pure ⟨⟨rfl, by dsimp only; omega, rfl, hv, by dsimp only; omega, hlarge, rfl⟩, rfl⟩
    rw [if_neg hnul, if_neg hnul]
    refine follows_body hstop (follows_reserve hlarge hi fun b hb hlarge hroom => ?_)
    have hi' : i < b.bsize := by omega
    have hstop' : stop < b.bsize := by omega
    rw [← hb] at hsep
    by_cases hreturn : c = 0x0D
    · rw [if_pos hreturn, if_pos hreturn]
      exact ih fp.length (by omega) (s := ⟨b, s.cursec⟩) _ hv hstop hi' hlarge hsep (by omega) rfl
    rw [if_neg hreturn, if_neg hreturn]
    by_cases hbreak : c = ascii ';' ∨ c = ascii '#' ∨ c = newline
    · rw [if_pos hbreak, if_pos hbreak]
      refine follows_read ?_
      have hline := length_tail_lineEnd c fp
      rw [rawFindContinuation_natCast]
      cases hk : findContinuation b.bufr.get i with
      | none =>
        rw [Option.elim_none, if_pos (by decide)]
        exact follows_pure ⟨⟨rfl, by dsimp only; omega, rfl, hv, hstop', hlarge, rfl⟩, rfl⟩
      | some k =>
        have hlt := lt_of_findContinuation hk
        -- the terminator of the name stops the search
        have hstart := lt_of_findContinuation_zero hsep (by omega) hk
        have hemit : (emit (.continued vstart k) : RawConf Unit).Returns ⟨b, s.cursec⟩ ()
          [.continued vstart k] ⟨b, s.cursec⟩ := rfl
        rw [Option.elim_some, if_neg (by omega)]
        refine hemit.follows ?_ ?_
        · intro e he
          rw [List.mem_singleton.mp he]
          exact ⟨Int.ofNat_le.mpr (by omega), rfl⟩
        · rw [Int.toNat_natCast, trimEnd_of_findContinuation hk]
          exact ih _ (Nat.lt_succ_of_le hline) (s := ⟨b, s.cursec⟩) _ (by omega) (le_refl k)
            (lt_trans hlt hi') hlarge hsep (by omega) rfl
    rw [if_neg hbreak, if_neg hbreak]
    refine follows_store (by omega) hi' ?_
    have hsep' : (b.bufr.set i c).get (vstart - 1) = 0 :=
      (Buffer.get_set_of_lt _ _ (by omega)).trans hsep
    by_cases hspace : isspace c
    · rw [if_pos hspace, if_pos hspace]
      have hrun := ih fp.length (by omega) (s := ⟨b.set i c, s.cursec⟩) _ hv (Nat.le_succ_of_le hstop)
        hroom hlarge hsep' (by omega) rfl
      rwa [Nat.cast_succ] at hrun
    · rw [if_neg hspace, if_neg hspace]
      have hrun := ih fp.length (by omega) (s := ⟨b.set i c, s.cursec⟩) _ (by omega) (le_refl _)
        hroom hlarge hsep' (by omega) rfl
      rwa [Nat.cast_succ] at hrun

/-- The two loops over a section name end alike, with no more than `n` characters left. -/
structure SectionFollows (n : Nat) (cursec : Option (List Byte)) (r : List Byte × Option (List Byte))
    (r' : List Byte × ConfBuffer × Option (List Byte)) (t : Conf) : Prop where
  rest : r.1 = r'.1
  short : r'.1.length ≤ n
  name : r.2 = r'.2.2
  large : r'.2.1.Large
  state : t = ⟨r'.2.1, cursec⟩

/-- The name of a section is read with the same buffer, by induction on the text. -/
theorem rawSectionLoop_follows (input : List Byte) (hstop : stop ≤ i) (hi : i < s.buffer.bsize)
    (hlarge : s.buffer.Large) {n : Nat} (hn : input.length ≤ n) :
    Follows confView (rawSectionLoop heap input i stop) s
      (confTry (sectionLoop heap input s.buffer i stop)) s'
      fun a a' t t' => SectionFollows n s.cursec a a' t ∧ t' = s' := by
  induction hlen : input.length using Nat.strong_induction_on generalizing input s i stop with
  | _ len ih =>
  subst hlen
  cases input with
  | nil =>
    rw [rawSectionLoop, sectionLoop]
    exact follows_pure ⟨⟨rfl, hn, rfl, hlarge, rfl⟩, rfl⟩
  | cons c fp =>
    rw [List.length_cons] at ih hn
    have hgo : ∀ (input : List Byte) (b' : ConfBuffer) (i' stop' : Nat), input.length ≤ fp.length → stop' ≤ i' →
        i' < b'.bsize → b'.Large → Follows confView (rawSectionLoop heap input i' stop') ⟨b', s.cursec⟩
          (confTry (sectionLoop heap input b' i' stop')) s' fun a a' t t' => SectionFollows n s.cursec a a' t ∧ t' = s' :=
      fun input b' i' stop' hshort hle hlt hlarge' =>
        ih input.length (Nat.lt_succ_of_le hshort) (s := ⟨b', s.cursec⟩) input hle hlt hlarge' (by omega) rfl
    rw [rawSectionLoop, sectionLoop]
    by_cases hnul : c = 0
    · rw [if_pos hnul, if_pos hnul]
      exact follows_pure ⟨⟨rfl, by dsimp only; omega, rfl, hlarge, rfl⟩, rfl⟩
    rw [if_neg hnul, if_neg hnul]
    refine follows_body hstop (follows_reserve hlarge hi fun b hb hlarge hroom => ?_)
    have hi' : i < b.bsize := by omega
    have hstop' : stop < b.bsize := by omega
    by_cases hclose : c = ascii ']'
    · rw [if_pos hclose, if_pos hclose]
      refine follows_store (i := stop) (Nat.zero_le _) hstop' ?_
      by_cases hname : stop = 0
      · rw [if_pos hname, if_pos (by omega)]
        exact follows_stop (by simp [confView])
      · rw [if_neg hname, if_neg (by omega)]
        refine follows_read ?_
        have hcomment : (eatComment fp).length ≤ fp.length := (List.dropWhile_suffix _).length_le
        refine follows_pure ⟨⟨rfl, ?_, rfl, hlarge, rfl⟩, rfl⟩
        rw [List.length_tail]
        omega
    rw [if_neg hclose, if_neg hclose]
    by_cases hbreak : c = newline
    · rw [if_pos hbreak, if_pos hbreak]
      refine follows_read ?_
      rw [rawFindContinuation_natCast]
      cases hk : findContinuation b.bufr.get i with
      | none =>
        rw [Option.elim_none, if_pos (by decide)]
        exact follows_store (i := stop) (Nat.zero_le _) hstop' (follows_stop (by simp [confView]))
      | some k =>
        have hlt := lt_of_findContinuation hk
        rw [Option.elim_some, if_neg (by omega), cast_continuedEnd]
        exact hgo fp b k _ (le_refl _) (continuedEnd_le b k) (lt_trans hlt hi') hlarge
    rw [if_neg hbreak, if_neg hbreak]
    exact follows_nameChar c hstop hroom hlarge hgo

/-- Behind a line the two parsers are in the same state, with less than `n` characters left. -/
def LineFollows (n : Nat) (fp fp' : List Byte) (t t' : Conf) : Prop :=
  fp = fp' ∧ fp'.length < n ∧ t = t' ∧ t'.buffer.Large

/-- A parameter is parsed with the same calls. -/
theorem rawParseParameter_follows (hlarge : s.buffer.Large) (input : List Byte) :
    Follows confView (rawParseParameter heap input) s (parseParameter heap input) s
      (LineFollows input.length) := by
  have hsize : 0 < s.buffer.bsize := by
    unfold ConfBuffer.Large at hlarge
    omega
  rw [rawParseParameter, parseParameter]
  refine follows_read_right ((rawNameLoop_follows input (le_refl 0) hsize hlarge (le_refl _)).bind ?_)
  rintro a a' t t' ⟨hname, hsame⟩
  rw [hsame]
  cases hname with
  | @badLine fp b hfp hlarge =>
    exact follows_update_right (follows_pure ⟨rfl, hfp, rfl, hlarge⟩)
  | @value fp b vstart hfp hlarge hpos hlt hzero =>
    have hshort := length_eatWhitespace fp
    refine (rawValueLoop_follows (s := ⟨b, s.cursec⟩) (eatWhitespace fp) hpos (le_refl vstart) (le_refl vstart)
      hlt hlarge hzero hshort).bind ?_
    rintro ⟨fp₁, stop⟩ ⟨fp₁', b₁, stop'⟩ t t' ⟨hends, hsame⟩
    obtain ⟨hrest, hless, hstop, hstart, hroom, hlarge₁, hstate⟩ := hends
    dsimp only at hrest hless hstop hstart hroom hlarge₁ hstate ⊢
    rw [hrest, hstop, hstate, hsame]
    refine follows_update_right (follows_store (i := stop') hstart hroom (follows_read ?_))
    have hemit : Follows confView (emit (.call ⟨s.cursec, (b₁.set stop' 0).string 0 stop',
          (b₁.set stop' 0).string vstart stop'⟩) : RawConf Unit) ⟨b₁.set stop' 0, s.cursec⟩
        (emit ⟨s.cursec, (b₁.set stop' 0).string 0 stop', (b₁.set stop' 0).string vstart stop'⟩ : ConfAction Unit)
        { s with buffer := b₁.set stop' 0 } fun _ _ t t' => t = t' ∧ t'.buffer.Large :=
      follows_emit trivial rfl ⟨rfl, hlarge₁⟩
    refine hemit.bind ?_
    rintro _ _ t t' ⟨rfl, hlarge⟩
    exact follows_pure ⟨rfl, by omega, rfl, hlarge⟩

/-- A header is parsed with the same section. -/
theorem rawParseSection_follows (hlarge : s.buffer.Large) (fp : List Byte) :
    Follows confView (rawParseSection heap fp) s (parseSection heap fp) s (LineFollows (fp.length + 1)) := by
  have hsize : 0 < s.buffer.bsize := by
    unfold ConfBuffer.Large at hlarge
    omega
  have hshort := length_eatWhitespace fp
  rw [rawParseSection, parseSection]
  refine follows_read_right
    ((rawSectionLoop_follows (eatWhitespace fp) (le_refl 0) hsize hlarge hshort).bind ?_)
  rintro ⟨fp₁, name⟩ ⟨fp₁', b, name'⟩ t t' ⟨⟨hrest, hless, hname, hlarge₁, hstate⟩, hsame⟩
  dsimp only at hrest hless hname hlarge₁ hstate ⊢
  rw [hrest, hname, hstate, hsame]
  exact follows_update_right (follows_update (follows_pure ⟨rfl, by omega, rfl, hlarge₁⟩))

/-- The loops over the lines, with fuel for all of them. -/
theorem rawConfLoop_follows {fuel : Nat} (input : List Byte) (hfuel : input.length < fuel)
    (hlarge : s.buffer.Large) : Follows confView (rawConfLoop heap fuel input) s (confLoop heap fuel input) s
      fun _ _ t t' => t = t' := by
  induction fuel generalizing input s with
  | zero => exact absurd hfuel (Nat.not_lt_zero _)
  | succ fuel ih =>
    cases input with
    | nil => exact follows_pure rfl
    | cons c fp =>
      rw [List.length_cons] at hfuel
      have hspaces := length_eatWhitespace fp
      have hcomment : (eatComment fp).length ≤ fp.length := (List.dropWhile_suffix _).length_le
      have hline : ∀ {m : RawConf (List Byte)} {m' : ConfAction (List Byte)},
          Follows confView m s m' s (LineFollows (fp.length + 1)) →
          Follows confView (m >>= fun fp => rawConfLoop heap fuel (eatWhitespace fp)) s
            (m' >>= fun fp => confLoop heap fuel (eatWhitespace fp)) s fun _ _ t t' => t = t' := by
        intro m m' hm
        refine hm.bind ?_
        rintro rest _ t _ ⟨rfl, hless, rfl, hlarge⟩
        have hrest := length_eatWhitespace rest
        exact ih _ (by omega) hlarge
      rw [rawConfLoop, confLoop]
      by_cases hnul : c = 0
      · rw [if_pos hnul, if_pos hnul]
        exact follows_pure rfl
      rw [if_neg hnul, if_neg hnul]
      by_cases hnewline : c = newline
      · rw [if_pos hnewline, if_pos hnewline]
        exact ih _ (by omega) hlarge
      rw [if_neg hnewline, if_neg hnewline]
      by_cases hmark : c = ascii ';' ∨ c = ascii '#'
      · rw [if_pos hmark, if_pos hmark]
        exact ih _ (by omega) hlarge
      rw [if_neg hmark, if_neg hmark]
      by_cases hopen : c = ascii '['
      · rw [if_pos hopen, if_pos hopen]
        exact hline (rawParseSection_follows hlarge fp)
      rw [if_neg hopen, if_neg hopen]
      by_cases hslash : c = backslash
      · rw [if_pos hslash, if_pos hslash]
        exact ih _ (by omega) hlarge
      rw [if_neg hslash, if_neg hslash]
      exact hline (rawParseParameter_follows hlarge (c :: fp))

end Loops

/-- The raw parser makes the calls of the parser and ends as it does. -/
theorem rawConfParse_follows (heap : Heap) (file : List Byte) (s : Conf) :
    Follows confView (rawConfParse heap file) s (confParse heap file) s fun _ _ t t' => t = t' := by
  rw [rawConfParse, confParse]
  by_cases hheap : heap 1024 = true
  · rw [if_pos hheap, if_pos hheap]
    have hshort := length_eatWhitespace file
    refine follows_update (follows_update_right ?_)
    refine (rawConfLoop_follows (eatWhitespace file) (Nat.lt_succ_of_le hshort) (le_refl 1024)).bind ?_
    rintro _ _ t _ rfl
    exact ⟨fun _ he => absurd he List.not_mem_nil, rfl, fun _ he => absurd he (by simp [Program.update]), .ok rfl⟩
  · rw [if_neg hheap, if_neg hheap]
    exact follows_stop (by simp [confView])

/-- Whatever the file holds and however the memory is granted, each body of a loop is entered with its
positions in order, each store is inside the buffer and not before the value that is read, no value is
continued before its start, and the parser comes to its end. -/
theorem rawConfParse_sound (heap : Heap) (file : List Byte) (s : Conf) :
    (∀ e ∈ (rawConfParse heap file s).trace, e.Sound) ∧ (rawConfParse heap file s).result ≠ .error .fuel := by
  obtain ⟨hsound, -, hstops, -⟩ := rawConfParse_follows heap file s
  exact ⟨hsound, fun hfuel => hstops _ hfuel rfl⟩

end Mcprog
