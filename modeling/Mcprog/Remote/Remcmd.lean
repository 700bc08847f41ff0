import Mcprog.Library.Effects
import Mcprog.Remote.Decode
import Mcprog.Remote.Methods

/-!
# Commands of the debugger

`elvees_remcmd` once more, with the characters that it reads, the cells of its two arrays that it
stores into and the command that it runs. The digits are kept in an unsigned variable, so that no
character is ever rejected, and the string is read two characters at a time until one at an even place
is its terminator.
-/

namespace Mcprog

open Interaction Program

/-- What `elvees_remcmd` does. -/
inductive RemcmdEvent
  /-- A character of `in_buf` is read. -/
  | read (index : Nat)
  /-- A character is stored into `buf`. -/
  | buf (index : Nat)
  /-- A pointer is stored into `args`. -/
  | args (index : Nat)
  /-- The function of a command is called. -/
  | run (name : String)
  deriving DecidableEq, Repr

/-- The command that is run, if the event is that. -/
def RemcmdEvent.run? : RemcmdEvent → Option String
  | run name => some name
  | read _ | buf _ | args _ => none

/-- A program that handles a command and shows what it accesses. -/
abbrev RawRemcmd (α : Type) : Type := Program RemcmdEvent Unit Fatal α

/-- `strlen`, from the character at `i` on. -/
def rawStrlen : List Byte → Nat → RawRemcmd Nat
  | [], i => do
    emit (.read i)
    Program.stop .overrun
  | c :: inBuf, i => do
    emit (.read i)
    if c = 0 then return i else rawStrlen inBuf (i + 1)

/-- The loop that turns digits into characters, from `ptr` on to `s`. -/
def rawDecode : List Byte → Nat → Nat → RawRemcmd (Option (List Byte))
  | [], ptr, _ => do
    emit (.read ptr)
    Program.stop .overrun
  | [c], ptr, s => do
    emit (.read ptr)
    if c = 0 then do
      emit (.buf s)
      return some []
    else do
      emit (.read (ptr + 1))
      Program.stop .overrun
  | c₁ :: c₂ :: inBuf, ptr, s => do
    emit (.read ptr)
    if c₁ = 0 then do
      emit (.buf s)
      return some []
    else do
      emit (.read (ptr + 1))
      match remoteDecodeByte c₁ c₂ with
      | none => return none
      | some ch => do
        emit (.buf s)
        let bytes ← rawDecode inBuf (ptr + 2) (s + 1)
        return bytes.map (ch.setWidth 8 :: ·)

/-- The loop that splits the string at its spaces. It fails where there is no place for a word. -/
def rawSplit : List Byte → Nat → RawRemcmd Bool
  | [], _ => return true
  | c :: text, count =>
    if c = ascii ' ' then
      if count ≥ maxArgs then return false
      else do
        emit (.args count)
        rawSplit text (count + 1)
    else rawSplit text count

/-- A string of characters before its terminator. -/
def cString (bytes : List Byte) : List Byte := bytes.takeWhile (· ≠ 0)

/-- The command in the table that the first word of a text names. -/
def namedCommand (bytes : List Byte) : Option (String × String) :=
  remoteCommands.find? fun c => asciiText c.1 = (cString bytes).takeWhile (· ≠ ascii ' ')

/-- `elvees_remcmd` over the string in the buffer and what lies behind it. -/
def rawElveesRemcmd (inBuf : List Byte) : RawRemcmd (List (List Byte) × RetVal) := do
  let len ← rawStrlen inBuf 0
  if len = 0 then return ([], .err)
  else
    match ← rawDecode inBuf 0 0 with
    | none => return ([], .err)
    | some bytes =>
      if bytes.length > 1000 then Program.stop .overrun
      else do
        emit (.args 0)
        if ← rawSplit (cString bytes) 1 then
          match namedCommand bytes with
          | some c => do
            emit (.run c.1)
            return runCommand c.1
          | none => return ([], .nosupp)
        else return ([], .err)

/-- The text that pairs of digits spell. There is none where a digit is missing or is no digit. -/
def hexText : List Byte → Option (List Byte)
  | [] => some []
  | [_] => none
  | c₁ :: c₂ :: text => do
    let b ← rpDecodeByte c₁ c₂
    let bytes ← hexText text
    return b :: bytes

/-- A string of pairs of digits. -/
def HexPairs (text : List Byte) : Prop := text.length % 2 = 0 ∧ ∀ c ∈ text, (rpHexNibble c).isSome

/-- How many words a text has. -/
def wordCount (bytes : List Byte) : Nat := (cString bytes).count (ascii ' ') + 1

/-- The string `text` in front of `behind` is handled as it should be: a malformed one is refused and
runs nothing, nothing behind the terminator is read and nothing is stored outside of the two arrays. A
text whose words have a place runs the command that its first word names and no other one, a text with
more words is refused. -/
structure Handles (text behind : List Byte) : Prop where
  rejects : ¬ HexPairs text →
    (rawElveesRemcmd (text ++ 0 :: behind) ()).result = .ok ([], .err) ∧
      (rawElveesRemcmd (text ++ 0 :: behind) ()).trace.filterMap RemcmdEvent.run? = []
  reads : ∀ i, .read i ∈ (rawElveesRemcmd (text ++ 0 :: behind) ()).trace → i ≤ text.length
  stores : ∀ i, .buf i ∈ (rawElveesRemcmd (text ++ 0 :: behind) ()).trace → i < 1001
  arguments : ∀ i, .args i ∈ (rawElveesRemcmd (text ++ 0 :: behind) ()).trace → i < maxArgs
  dispatches : ∀ bytes, hexText text = some bytes → wordCount bytes ≤ maxArgs →
    (rawElveesRemcmd (text ++ 0 :: behind) ()).trace.filterMap RemcmdEvent.run? =
        ((namedCommand bytes).map Prod.fst).toList ∧
      ∀ c, namedCommand bytes = some c →
        (rawElveesRemcmd (text ++ 0 :: behind) ()).result = .ok (runCommand c.1)
  refuses : ∀ bytes, hexText text = some bytes → maxArgs < wordCount bytes →
    (rawElveesRemcmd (text ++ 0 :: behind) ()).result = .ok ([], .err) ∧
      (rawElveesRemcmd (text ++ 0 :: behind) ()).trace.filterMap RemcmdEvent.run? = []

/-- The text that the code makes of pairs of characters, digits or not. -/
def codeText : List Byte → List Byte
  | c₁ :: c₂ :: text => ((remoteDecodeByte c₁ c₂).getD 0).setWidth 8 :: codeText text
  | _ => []

/-- No character is found not to be a digit. -/
theorem remoteDecodeNibble_isSome (c : Byte) : (remoteDecodeNibble c).isSome := by
  unfold remoteDecodeNibble
  exact Option.isSome_of_eq_some (if_pos (Nat.zero_le _))

/-- Two characters always make a byte here, digits or not. -/
theorem remoteDecodeByte_isSome (c₁ c₂ : Byte) : (remoteDecodeByte c₁ c₂).isSome := by
  obtain ⟨n₁, h₁⟩ := Option.isSome_iff_exists.mp (remoteDecodeNibble_isSome c₁)
  obtain ⟨n₂, h₂⟩ := Option.isSome_iff_exists.mp (remoteDecodeNibble_isSome c₂)
  rw [remoteDecodeByte, h₁, h₂]
  rfl

/-- A digit has the same value in both tables. -/
theorem remoteDecodeNibble_eq {c n : Byte} (h : rpHexNibble c = some n) :
    remoteDecodeNibble c = some (n.setWidth 32) := by
  unfold remoteDecodeNibble
  rw [h]
  exact if_pos (Nat.zero_le _)

/-- Digits are read as what they spell. -/
theorem remoteDecodeByte_eq {c₁ c₂ b : Byte} (h : rpDecodeByte c₁ c₂ = some b) :
    ((remoteDecodeByte c₁ c₂).getD 0).setWidth 8 = b := by
  unfold rpDecodeByte at h
  obtain ⟨n₁, h₁, h⟩ := Option.bind_eq_some_iff.mp h
  obtain ⟨n₂, h₂, h⟩ := Option.bind_eq_some_iff.mp h
  obtain rfl := Option.some.inj h
  rw [remoteDecodeByte, remoteDecodeNibble_eq h₁, remoteDecodeNibble_eq h₂]
  change ((n₁.setWidth 32 <<< 4) + n₂.setWidth 32).setWidth 8 = _
  apply BitVec.eq_of_toNat_eq
  simp only [BitVec.toNat_setWidth, BitVec.toNat_add, BitVec.toNat_shiftLeft, Nat.shiftLeft_eq]
  omega

/-- Of pairs of digits the code makes the text that they spell. -/
theorem codeText_eq {text bytes : List Byte} (h : hexText text = some bytes) : codeText text = bytes := by
  induction text using hexText.induct generalizing bytes with
  | case1 => exact Option.some.inj h
  | case2 c => cases h
  | case3 c₁ c₂ text ih =>
    rw [hexText] at h
    obtain ⟨b, hb, h⟩ := Option.bind_eq_some_iff.mp h
    obtain ⟨rest, hrest, h⟩ := Option.bind_eq_some_iff.mp h
    rw [codeText, remoteDecodeByte_eq hb, ih hrest]
    exact Option.some.inj h

/-- The other function asks for two digits. -/
theorem rpDecodeByte_isSome_iff {c₁ c₂ : Byte} :
    (rpDecodeByte c₁ c₂).isSome ↔ (rpHexNibble c₁).isSome ∧ (rpHexNibble c₂).isSome := by
  unfold rpDecodeByte
  cases rpHexNibble c₁ with
  | none => simp
  | some n₁ => cases rpHexNibble c₂ <;> simp

/-- Pairs of digits spell a text, and nothing else does. -/
theorem hexText_isSome_iff (text : List Byte) : (hexText text).isSome ↔ HexPairs text := by
  unfold HexPairs
  induction text using hexText.induct with
  | case1 => simp [hexText]
  | case2 c => simp [hexText]
  | case3 c₁ c₂ text ih =>
    have hlen : (c₁ :: c₂ :: text).length % 2 = text.length % 2 := by
      rw [List.length_cons, List.length_cons]
      omega
    rw [hlen, List.forall_mem_cons, List.forall_mem_cons, hexText]
    constructor
    · intro h
      obtain ⟨bytes, hbytes⟩ := Option.isSome_iff_exists.mp h
      obtain ⟨b, hb, hrest⟩ := Option.bind_eq_some_iff.mp hbytes
      obtain ⟨rest, hrest, -⟩ := Option.bind_eq_some_iff.mp hrest
      obtain ⟨h₁, h₂⟩ := rpDecodeByte_isSome_iff.mp (Option.isSome_of_eq_some hb)
      obtain ⟨heven, hall⟩ := ih.mp (Option.isSome_of_eq_some hrest)
      exact ⟨heven, h₁, h₂, hall⟩
    · rintro ⟨heven, h₁, h₂, hall⟩
      obtain ⟨b, hb⟩ := Option.isSome_iff_exists.mp (rpDecodeByte_isSome_iff.mpr ⟨h₁, h₂⟩)
      obtain ⟨rest, hrest⟩ := Option.isSome_iff_exists.mp (ih.mpr ⟨heven, hall⟩)
      rw [hb, hrest]
      rfl

theorem length_codeText (text : List Byte) : (codeText text).length = text.length / 2 := by
  induction text using hexText.induct with
  | case1 => rfl
  | case2 c => simp [codeText]
  | case3 c₁ c₂ text ih =>
    rw [codeText, List.length_cons, ih, List.length_cons, List.length_cons]
    omega

/-- An access to a string of `len` characters and to the two arrays that is inside of them, and no
command. -/
def RemcmdEvent.Inside (len : Nat) : RemcmdEvent → Prop
  | read i => i ≤ len
  | buf i => i < 1001
  | args i => i < maxArgs
  | run _ => False

section Runs

variable {text : List Byte} (behind : List Byte)

/-- The length is found, and nothing behind the terminator is read. -/
theorem rawStrlen_returns (htext : ∀ c ∈ text, c ≠ 0) (i : Nat) :
    ∃ tr, (rawStrlen (text ++ 0 :: behind) i).Returns () (i + text.length) tr () ∧
      ∀ e ∈ tr, RemcmdEvent.Inside (i + text.length) e := by
  induction text generalizing i with
  | nil =>
    refine ⟨[.read i], rfl, fun e he => ?_⟩
    rw [List.mem_singleton.mp he]
    exact le_refl i
  | cons c text ih =>
    obtain ⟨hc, htext⟩ := List.forall_mem_cons.mp htext
    obtain ⟨tr, hr, hinside⟩ := ih htext (i + 1)
    have hlen : i + 1 + text.length = i + (c :: text).length := by
      rw [List.length_cons]
      omega
    rw [hlen] at hr hinside
    have hemit : (emit (.read i) : RawRemcmd Unit).Returns () () [.read i] () := rfl
    refine ⟨.read i :: tr, ?_, fun e he => ?_⟩
    · rw [List.cons_append, rawStrlen]
      refine hemit.bind ?_
      rw [if_neg hc]
      exact hr
    · rcases List.mem_cons.mp he with rfl | he
      · exact Nat.le_add_right i _
      · exact hinside e he

/-- The steps of one turn of the decoder. -/
theorem rawDecode_pair {c₁ c₂ : Byte} (hc : c₁ ≠ 0) (inBuf : List Byte) (ptr s : Nat) :
    rawDecode (c₁ :: c₂ :: inBuf) ptr s () =
      ⟨[.read ptr, .read (ptr + 1), .buf s] ++ (rawDecode inBuf (ptr + 2) (s + 1) ()).trace, (),
        (rawDecode inBuf (ptr + 2) (s + 1) ()).result.map
          (Option.map (((remoteDecodeByte c₁ c₂).getD 0).setWidth 8 :: ·))⟩ := by
  obtain ⟨ch, hch⟩ := Option.isSome_iff_exists.mp (remoteDecodeByte_isSome c₁ c₂)
  rw [rawDecode, if_neg hc, hch]
  cases hr : (rawDecode inBuf (ptr + 2) (s + 1) ()).result with
  | error e => simp [-bind_pure_comp, bind_apply, emit, hr, Except.map]
  | ok bytes => simp [-bind_pure_comp, bind_apply, emit, hr, Except.map, pure, ret]

/-- A string of pairs is decoded, and its last store is that of the terminator. -/
theorem rawDecode_returns (htext : ∀ c ∈ text, c ≠ 0) (heven : text.length % 2 = 0) (ptr s : Nat) :
    ∃ tr, (rawDecode (text ++ 0 :: behind) ptr s).Returns () (some (codeText text)) tr () ∧
      .buf (s + text.length / 2) ∈ tr ∧
      (s + text.length / 2 < 1001 → ∀ e ∈ tr, RemcmdEvent.Inside (ptr + text.length) e) := by
  induction text using hexText.induct generalizing ptr s with
  | case1 =>
    have hrun : (rawDecode ([] ++ 0 :: behind) ptr s).Returns () (some []) [.read ptr, .buf s] () := by
      cases behind <;> rfl
    refine ⟨_, hrun, by simp, fun hs e he => ?_⟩
    rcases List.mem_cons.mp he with rfl | he
    · exact le_refl ptr
    · rw [List.mem_singleton.mp he]
      exact hs
  | case2 c => cases heven
  | case3 c₁ c₂ text ih =>
    have hlen : (c₁ :: c₂ :: text).length = text.length + 2 := rfl
    obtain ⟨hc, htext⟩ := List.forall_mem_cons.mp htext
    obtain ⟨tr, hr, hlast, hinside⟩ := ih (List.forall_mem_cons.mp htext).2 (by omega) (ptr + 2) (s + 1)
    refine ⟨[.read ptr, .read (ptr + 1), .buf s] ++ tr, ?_, ?_, fun hs e he => ?_⟩
    · rw [Returns, List.cons_append, List.cons_append, rawDecode_pair hc, show rawDecode _ _ _ () = _ from hr]
      rfl
    · rw [show s + (c₁ :: c₂ :: text).length / 2 = s + 1 + text.length / 2 by omega]
      exact List.mem_append_right _ hlast
    · rw [show ptr + (c₁ :: c₂ :: text).length = ptr + 2 + text.length by omega]
      rcases List.mem_append.mp he with he | he
      · simp only [List.mem_cons, List.not_mem_nil, or_false] at he
        rcases he with rfl | rfl | rfl
        · change ptr ≤ _
          omega
        · change ptr + 1 ≤ _
          omega
        · change s < 1001
          omega
      · exact hinside (by omega) e he

/-- The first thing is to look for the terminator. -/
theorem rawDecode_first (inBuf : List Byte) (ptr s : Nat) : .read ptr ∈ (rawDecode inBuf ptr s ()).trace := by
  have hemit : ∀ f : Unit → RawRemcmd (Option (List Byte)), .read ptr ∈ ((emit (.read ptr) >>= f) ()).trace :=
    fun f => List.mem_append_left _ (List.mem_singleton_self _)
  match inBuf with
  | [] =>
    rw [rawDecode]
    exact hemit _
  | [c] =>
    rw [rawDecode]
    exact hemit _
  | c₁ :: c₂ :: inBuf =>
    rw [rawDecode]
    exact hemit _

/-- A string with an odd number of characters is read behind its terminator. -/
theorem rawDecode_reads (htext : ∀ c ∈ text, c ≠ 0) (hodd : text.length % 2 = 1) (ptr s : Nat) :
    .read (ptr + text.length + 1) ∈ (rawDecode (text ++ 0 :: behind) ptr s ()).trace := by
  induction text using hexText.induct generalizing ptr s with
  | case1 => cases hodd
  | case2 c =>
    rw [List.singleton_append, rawDecode_pair (htext c (by simp))]
    exact List.mem_append_right _ (rawDecode_first behind (ptr + 2) (s + 1))
  | case3 c₁ c₂ text ih =>
    have hlen : (c₁ :: c₂ :: text).length = text.length + 2 := rfl
    obtain ⟨hc, htext⟩ := List.forall_mem_cons.mp htext
    have hmem := ih (List.forall_mem_cons.mp htext).2 (by omega) (ptr + 2) (s + 1)
    rw [List.cons_append, List.cons_append, rawDecode_pair hc,
      show ptr + (c₁ :: c₂ :: text).length + 1 = ptr + 2 + text.length + 1 by omega]
    exact List.mem_append_right _ hmem

/-- The words are counted, and there is a place for each of them. -/
theorem rawSplit_returns (len count : Nat) (hcount : count ≤ maxArgs) (text : List Byte) :
    ∃ tr, (rawSplit text count).Returns () (decide (count + text.count (ascii ' ') ≤ maxArgs)) tr () ∧
      ∀ e ∈ tr, RemcmdEvent.Inside len e := by
  induction text generalizing count with
  | nil => exact ⟨[], by simpa [rawSplit] using hcount, fun e he => absurd he List.not_mem_nil⟩
  | cons c text ih =>
    rw [rawSplit]
    by_cases hspace : c = ascii ' '
    · rw [if_pos hspace, hspace, List.count_cons_self]
      by_cases hfull : count ≥ maxArgs
      · rw [if_pos hfull]
        refine ⟨[], ?_, fun e he => absurd he List.not_mem_nil⟩
        rw [decide_eq_false (by omega)]
        rfl
      · obtain ⟨tr, hr, hinside⟩ := ih (count + 1) (by omega)
        have hemit : (emit (.args count) : RawRemcmd Unit).Returns () () [.args count] () := rfl
        rw [if_neg hfull]
        refine ⟨.args count :: tr, ?_, fun e he => ?_⟩
        · rw [show count + (text.count (ascii ' ') + 1) = count + 1 + text.count (ascii ' ') by omega]
          exact hemit.bind hr
        · rcases List.mem_cons.mp he with rfl | he
          · exact not_le.mp hfull
          · exact hinside e he
    · rw [if_neg hspace, List.count_cons_of_ne hspace]
      exact ih count hcount

/-- The command that is run for a text, and the answer. -/
def answered (bytes : List Byte) : Option String × List (List Byte) × RetVal :=
  if wordCount bytes ≤ maxArgs then
    match namedCommand bytes with
    | some c => (some c.1, runCommand c.1)
    | none => (none, [], .nosupp)
  else (none, [], .err)

/-- What stays inside of the array runs no command. -/
theorem not_run_of_inside {len : Nat} {tr : List RemcmdEvent} (h : ∀ e ∈ tr, e.Inside len) :
    tr.filterMap RemcmdEvent.run? = [] := by
  refine List.filterMap_eq_nil_iff.mpr fun e he => ?_
  cases e with
  | run name => exact absurd (h _ he) id
  | read i => rfl
  | buf i => rfl
  | args i => rfl

/-- A string of pairs that is not too long is handled as the text that the code makes of it, with all
accesses inside. -/
theorem rawElveesRemcmd_returns (htext : ∀ c ∈ text, c ≠ 0) (heven : text.length % 2 = 0)
    (hne : text ≠ []) (hlen : text.length ≤ 2000) :
    ∃ tr, (∀ e ∈ tr, RemcmdEvent.Inside text.length e) ∧ (rawElveesRemcmd (text ++ 0 :: behind)).Returns ()
      (answered (codeText text)).2 (tr ++ (answered (codeText text)).1.toList.map .run) () := by
  obtain ⟨tr₁, h₁, hinside₁⟩ := rawStrlen_returns behind htext 0
  obtain ⟨tr₂, h₂, -, hinside₂⟩ := rawDecode_returns behind htext heven 0 0
  obtain ⟨tr₃, h₃, hinside₃⟩ := rawSplit_returns text.length 1 (by decide) (cString (codeText text))
  have hbytes := length_codeText text
  have hpos := List.length_pos_iff.mpr hne
  rw [Nat.zero_add] at h₁ hinside₁
  rw [Nat.zero_add, Nat.zero_add] at hinside₂
  have hemit : (emit (.args 0) : RawRemcmd Unit).Returns () () [.args 0] () := rfl
  refine ⟨tr₁ ++ (tr₂ ++ (.args 0 :: tr₃)), fun e he => ?_, ?_⟩
  · rcases List.mem_append.mp he with he | he
    · exact hinside₁ e he
    · rcases List.mem_append.mp he with he | he
      · exact hinside₂ (by omega) e he
      · rcases List.mem_cons.mp he with rfl | he
        · exact Nat.succ_pos 3
        · exact hinside₃ e he
  · rw [List.append_assoc, List.append_assoc, List.cons_append, rawElveesRemcmd]
    refine h₁.bind ?_
    rw [if_neg (by omega)]
    refine h₂.bind ?_
    dsimp only
    rw [if_neg (by omega)]
    refine hemit.bind (h₃.bind ?_)
    rw [Nat.add_comm, ← wordCount, answered]
    by_cases hwords : wordCount (codeText text) ≤ maxArgs
    · rw [decide_eq_true hwords, if_pos rfl, if_pos hwords]
      cases namedCommand (codeText text) with
      | none => rfl
      | some c => rfl
    · rw [decide_eq_false hwords, if_neg hwords]
      rfl

/-- The decoder makes of memory what it makes of it without its accesses. -/
theorem result_rawDecode (inBuf : List Byte) (ptr s : Nat) : (rawDecode inBuf ptr s ()).result =
    match decodeCommand inBuf with
    | .text bytes => .ok (some bytes)
    | .bad => .ok none
    | .overrun => .error .overrun := by
  induction inBuf using hexText.induct generalizing ptr s with
  | case1 => rfl
  | case2 c =>
    rw [rawDecode, decodeCommand, bind_apply]
    by_cases hc : c = 0
    · rw [if_pos hc, if_pos hc]
      rfl
    · rw [if_neg hc, if_neg hc]
      rfl
  | case3 c₁ c₂ inBuf ih =>
    rw [decodeCommand]
    by_cases hc : c₁ = 0
    · rw [rawDecode, bind_apply, if_pos hc, if_pos hc]
      rfl
    · obtain ⟨ch, hch⟩ := Option.isSome_iff_exists.mp (remoteDecodeByte_isSome c₁ c₂)
      rw [rawDecode_pair hc, if_neg hc, ih, hch]
      cases decodeCommand inBuf with
      | text bytes => rfl
      | bad => rfl
      | overrun => rfl

/-- The answer is that of `elvees_remcmd` without its accesses. -/
theorem result_rawElveesRemcmd (htext : ∀ c ∈ text, c ≠ 0) :
    (rawElveesRemcmd (text ++ 0 :: behind) ()).result = elveesRemcmd (text ++ 0 :: behind) := by
  obtain ⟨tr, hr, -⟩ := rawStrlen_returns behind htext 0
  have hdecode := result_rawDecode (text ++ 0 :: behind) 0 0
  rw [rawElveesRemcmd, elveesRemcmd, (result_bind_of_returns hr).1]
  cases text with
  | nil => rfl
  | cons c text =>
    have hc : c ≠ 0 := htext c List.mem_cons_self
    rw [if_neg (by rw [List.length_cons]; omega), if_neg (by simpa using hc)]
    cases hrun : decodeCommand (c :: text ++ 0 :: behind) with
    | overrun =>
      rw [hrun] at hdecode
      rw [bind_apply, hdecode]
    | bad =>
      rw [hrun] at hdecode
      rw [bind_apply, hdecode]
      rfl
    | text bytes =>
      rw [hrun] at hdecode
      rw [bind_apply, hdecode]
      dsimp only
      by_cases hlong : bytes.length > 1000
      · rw [if_pos hlong, if_pos hlong]
        rfl
      · rw [if_neg hlong, if_neg hlong]
        obtain ⟨tr₃, hsplit, -⟩ := rawSplit_returns 0 1 (by decide) (cString bytes)
        have hemit : (emit (.args 0) : RawRemcmd Unit).Returns () () [.args 0] () := rfl
        rw [(result_bind_of_returns hemit).1, (result_bind_of_returns hsplit).1, ← cString, ← namedCommand]
        by_cases hwords : (cString bytes).count (ascii ' ') ≥ maxArgs
        · rw [if_pos hwords, decide_eq_false (by omega)]
          rfl
        · rw [if_neg hwords, decide_eq_true (by omega), if_pos rfl]
          cases namedCommand bytes with
          | none => rfl
          | some c => rfl

/-- Each answer to a text that fits, unless its words do not, is one that says that it was looked up. -/
theorem answered_ne_err {bytes : List Byte} (h : wordCount bytes ≤ maxArgs) :
    (answered bytes).2 ≠ ([], .err) := by
  rw [answered, if_pos h]
  cases namedCommand bytes with
  | none => exact fun h => absurd (congrArg Prod.snd h) (by decide)
  | some c =>
    unfold runCommand
    dsimp only
    split
    · exact fun h => absurd (congrArg Prod.fst h) (List.cons_ne_nil _ _)
    · exact fun h => absurd (congrArg Prod.fst h) (List.cons_ne_nil _ _)

/-- A string that is not empty is decoded. -/
theorem mem_trace_of_rawDecode (htext : ∀ c ∈ text, c ≠ 0) (hne : text ≠ []) {e : RemcmdEvent}
    (he : e ∈ (rawDecode (text ++ 0 :: behind) 0 0 ()).trace) :
    e ∈ (rawElveesRemcmd (text ++ 0 :: behind) ()).trace := by
  obtain ⟨tr, hr, -⟩ := rawStrlen_returns behind htext 0
  have hpos := List.length_pos_iff.mpr hne
  have hlen : ¬ 0 + text.length = 0 := by omega
  rw [rawElveesRemcmd, bind_apply, show rawStrlen _ _ () = _ from hr]
  dsimp only
  rw [if_neg hlen, bind_apply]
  refine List.mem_append_right _ ?_
  cases (rawDecode (text ++ 0 :: behind) 0 0 ()).result with
  | error e => exact he
  | ok bytes => exact List.mem_append_left _ he

/-- The accesses of a run that ends with a command or without one. -/
theorem mem_append_runs {e : RemcmdEvent} {tr : List RemcmdEvent} {name : Option String}
    (he : e ∈ tr ++ name.toList.map .run) (hrun : e.run? = none) : e ∈ tr := by
  rcases List.mem_append.mp he with he | he
  · exact he
  · obtain ⟨name, -, rfl⟩ := List.mem_map.mp he
    cases hrun

/-- The empty string is refused, and handled so. -/
theorem handles_nil : Handles [] behind := by
  have hread : ∀ e ∈ (rawElveesRemcmd ([] ++ 0 :: behind) ()).trace, e = .read 0 := fun e he =>
    List.mem_singleton.mp he
  refine ⟨fun hpairs => absurd ⟨rfl, fun c hc => absurd hc List.not_mem_nil⟩ hpairs, fun i hi => ?_,
    fun i hi => ?_, fun i hi => ?_, fun bytes hbytes _ => ?_, fun bytes hbytes hwords => ?_⟩
  · exact (RemcmdEvent.read.inj (hread _ hi)).le
  · cases hread _ hi
  · cases hread _ hi
  · obtain rfl := Option.some.inj hbytes
    exact ⟨rfl, fun c hc => by cases hc⟩
  · obtain rfl := Option.some.inj hbytes
    exact absurd hwords (by decide)

/-- A string of pairs that fits is handled unless it is malformed and its words have a place. -/
theorem handles_of_even (htext : ∀ c ∈ text, c ≠ 0) (hne : text ≠ []) (heven : text.length % 2 = 0)
    (hlen : text.length ≤ 2000)
    (hdigits : (∀ c ∈ text, (rpHexNibble c).isSome) ∨ maxArgs < wordCount (codeText text)) :
    Handles text behind := by
  obtain ⟨tr, hinside, hr⟩ := rawElveesRemcmd_returns behind htext heven hne hlen
  have hruns : (tr ++ (answered (codeText text)).1.toList.map RemcmdEvent.run).filterMap RemcmdEvent.run? =
      (answered (codeText text)).1.toList := by
    rw [List.filterMap_append, not_run_of_inside hinside, List.nil_append, List.filterMap_map]
    exact List.filterMap_some
  have hmany : maxArgs < wordCount (codeText text) → answered (codeText text) = (none, [], .err) :=
    fun hwords => if_neg (not_le.mpr hwords)
  have hmem : ∀ e : RemcmdEvent, e.run? = none →
      e ∈ (rawElveesRemcmd (text ++ 0 :: behind) ()).trace → e ∈ tr := by
    intro e hrun he
    rw [show rawElveesRemcmd _ () = _ from hr] at he
    exact mem_append_runs he hrun
  refine ⟨fun hpairs => ?_, fun i hi => hinside _ (hmem _ rfl hi), fun i hi => hinside _ (hmem _ rfl hi),
    fun i hi => hinside _ (hmem _ rfl hi), fun bytes hbytes hwords => ?_, fun bytes hbytes hwords => ?_⟩
  · have hwords := hdigits.resolve_left fun hall => hpairs ⟨heven, hall⟩
    rw [show rawElveesRemcmd _ () = _ from hr]
    dsimp only
    rw [hruns, hmany hwords]
    exact ⟨rfl, rfl⟩
  · rw [show rawElveesRemcmd _ () = _ from hr]
    dsimp only
    rw [hruns, codeText_eq hbytes, answered, if_pos hwords]
    cases namedCommand bytes with
    | none => exact ⟨rfl, fun c hc => by cases hc⟩
    | some c => exact ⟨rfl, fun c' hc => by rw [Option.some.inj hc]⟩
  · rw [← codeText_eq hbytes] at hwords
    rw [show rawElveesRemcmd _ () = _ from hr]
    dsimp only
    rw [hruns, hmany hwords]
    exact ⟨rfl, rfl⟩

namespace Handles

/-- Behind a string with an odd number of characters the terminator is passed over. -/
theorem even (h : Handles text behind) (htext : ∀ c ∈ text, c ≠ 0) (hne : text ≠ []) :
    text.length % 2 = 0 := by
  by_contra hodd
  have hread := h.reads _ (mem_trace_of_rawDecode behind htext hne
    (rawDecode_reads behind htext (by omega) 0 0))
  omega

/-- A longer string is decoded past the end of the array. -/
theorem length_le (h : Handles text behind) (htext : ∀ c ∈ text, c ≠ 0) (hne : text ≠ []) :
    text.length ≤ 2000 := by
  have heven := h.even behind htext hne
  obtain ⟨tr, hr, hlast, -⟩ := rawDecode_returns behind htext heven 0 0
  have hstore := h.stores _ (mem_trace_of_rawDecode behind htext hne (by
    rw [show rawDecode _ _ _ () = _ from hr]
    exact hlast))
  omega

/-- What the code makes of a malformed string has too many words. -/
theorem digits_or (h : Handles text behind) (htext : ∀ c ∈ text, c ≠ 0) (hne : text ≠ []) :
    (∀ c ∈ text, (rpHexNibble c).isSome) ∨ maxArgs < wordCount (codeText text) := by
  by_contra hnot
  obtain ⟨hdigits, hwords⟩ := not_or.mp hnot
  obtain ⟨tr, -, hr⟩ := rawElveesRemcmd_returns behind htext (h.even behind htext hne) hne
    (h.length_le behind htext hne)
  obtain ⟨hresult, -⟩ := h.rejects fun hpairs => hdigits hpairs.2
  rw [show rawElveesRemcmd _ () = _ from hr] at hresult
  exact answered_ne_err (not_lt.mp hwords) (Except.ok.inj hresult)

end Handles

/-- A string is handled as it should be if and only if it has an even number of characters and at most
2000 of them, and all of them are digits or the text that the code makes of them has too many words. -/
theorem elveesRemcmd_handles_iff (htext : ∀ c ∈ text, c ≠ 0) : Handles text behind ↔
    text.length % 2 = 0 ∧ text.length ≤ 2000 ∧
      ((∀ c ∈ text, (rpHexNibble c).isSome) ∨ maxArgs < wordCount (codeText text)) := by
  by_cases hne : text = []
  · subst hne
    exact iff_of_true (handles_nil behind)
      ⟨rfl, Nat.zero_le _, .inl fun c hc => absurd hc List.not_mem_nil⟩
  · constructor
    · intro h
      exact ⟨h.even behind htext hne, h.length_le behind htext hne, h.digits_or behind htext hne⟩
    · rintro ⟨heven, hlen, hdigits⟩
      exact handles_of_even behind htext hne heven hlen hdigits

end Runs

/-- A command of the debugger, in digits. -/
def helpDigits : List Byte := asciiText "68656c70"

/-- The command is run as it should be. -/
theorem elveesRemcmd_handles_help : (∀ c ∈ helpDigits, c ≠ 0) ∧ (Handles helpDigits [] ↔
    helpDigits.length % 2 = 0 ∧ helpDigits.length ≤ 2000 ∧
      ((∀ c ∈ helpDigits, (rpHexNibble c).isSome) ∨ maxArgs < wordCount (codeText helpDigits))) :=
  ⟨by decide, elveesRemcmd_handles_iff [] (by decide)⟩

/-- The command with two characters behind it that are no digits is run as well, and the one without its
last digit is read behind its terminator. -/
theorem elveesRemcmd_runs_malformed :
    (¬ ∀ c ∈ asciiText "68656c7020zz", (rpHexNibble c).isSome) ∧
      .run "help" ∈ (rawElveesRemcmd (asciiText "68656c7020zz" ++ [0]) ()).trace ∧
      ¬ Handles (asciiText "68656c7020zz") [] ∧
      .read 8 ∈ (rawElveesRemcmd (asciiText "68656c7" ++ [0]) ()).trace ∧
      (asciiText "68656c7").length = 7 ∧ ¬ Handles (asciiText "68656c7") [] := by
  have hrun : .run "help" ∈ (rawElveesRemcmd (asciiText "68656c7020zz" ++ [0]) ()).trace := by decide
  have hread : .read 8 ∈ (rawElveesRemcmd (asciiText "68656c7" ++ [0]) ()).trace := by decide
  have hdigits : ¬ ∀ c ∈ asciiText "68656c7020zz", (rpHexNibble c).isSome := by decide
  refine ⟨hdigits, hrun, fun h => ?_, hread, rfl, fun h => ?_⟩
  · have hnone := (h.rejects fun hpairs => hdigits hpairs.2).2
    have hmem := List.mem_filterMap.mpr ⟨_, hrun, (rfl : RemcmdEvent.run? (.run "help") = some "help")⟩
    rw [hnone] at hmem
    exact absurd hmem List.not_mem_nil
  · exact absurd (h.reads 8 hread) (by decide)

end Mcprog
