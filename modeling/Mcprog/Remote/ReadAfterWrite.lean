import Mcprog.Remote.ErrorReplies
import Mcprog.Remote.MemoryBytes

/-!
# Memory read back by the debugger

A packet `M` writes bytes, and a packet `m` reads some of them. The two cut their ranges in
different ways, and the answer has the bytes that were written.
-/

namespace Mcprog

open Cells Interaction Program AddressSpace

variable {σ μ : Type} {A : Adapter σ} {M : AddressSpace μ} {S : Serves A M} {m m' : μ} {p : Proxy}

/-- The text of a packet `m`. -/
def readText (addr : BitVec 64) (len : Nat) : List Byte :=
  ascii 'm' :: (hexNumber addr.toNat ++ ascii ',' :: hexNumber len)

/-- Over the memory `m` a packet is answered with `reply`, and the memory is `m'` then. -/
def Serves.Answers (S : Serves A M) (p : Proxy) (m : μ) (text reply : List Byte) (m' : μ) : Prop :=
  ∀ behind amb s, S.Holds m s → ∃ tr s', (processPacket A p ⟨text, behind⟩ amb).Returns s p tr s' ∧
    tr.filterMap ProxyEvent.answer = [reply] ∧ S.Holds m' s'

/-- The range of `len` bytes from `a` on has bytes on both sides of `b`. -/
def Crosses (a len b : Nat) : Prop := a < b ∧ b < a + len

instance (a len b : Nat) : Decidable (Crosses a len b) := inferInstanceAs (Decidable (_ ∧ _))

/-- The addresses of the words of a range. -/
def RangeWords (a len : Nat) (addr : Word) : Prop := ∃ x, a ≤ x ∧ x < a + len ∧ addr = wordAddr (x / 4)

/-- A range of ordinary memory that does not cross the segments. -/
theorem plainWords_of_ordinary {a len : Nat} (hord : M.Ordinary (RangeWords a len)) (hpos : 0 < len)
    (hend : a + len ≤ 2 ^ 32) (hcached : ¬Crosses a len 0x80000000)
    (huncached : ¬Crosses a len 0xA0000000) :
    M.PlainWords (a / 4) ((a + len + 3) / 4) := by
  rw [Crosses] at hcached huncached
  have hword : ∀ w, (BitVec.ofNat 32 (4 * w)).toNat = 4 * w % 2 ^ 32 := fun w => BitVec.toNat_ofNat _ _
  have hrange : ∀ w, a / 4 ≤ w → w < (a + len + 3) / 4 → RangeWords a len (wordAddr w) := by
    intro w hlo hhi
    refine ⟨max a (4 * w), by omega, by omega, ?_⟩
    rw [show max a (4 * w) / 4 = w by omega]
  have hseg : ∀ w, a / 4 ≤ w → w < (a + len + 3) / 4 →
      segment (BitVec.ofNat 32 (4 * w)) = segment (BitVec.ofNat 32 (4 * (a / 4))) := by
    intro w hlo hhi
    rw [segment, segment, hword, hword]
    split_ifs <;> omega
  refine ⟨by omega, hseg, ?_, ?_⟩
  · exact fun w hlo hhi => hord.load_memory _ (hrange w hlo hhi)
  · intro v w hvlo hvhi hwlo hwhi val m
    rw [wordAt, hord.load_store _ _ (hrange w hwlo hwhi) (hrange v hvlo hvhi)]
    by_cases h : w = v
    · rw [if_pos h, h, if_pos rfl]
    · have hne : wordAddr w ≠ wordAddr v := by
        -- in one segment a place has one address
        intro heq
        have hsame := (hseg w hwlo hwhi).trans (hseg v hvlo hvhi).symm
        have haddrw := segmentStart_add_physical (BitVec.ofNat 32 (4 * w))
        have haddrv := segmentStart_add_physical (BitVec.ofNat 32 (4 * v))
        rw [wordAddr, wordAddr] at heq
        rw [hsame, heq, haddrv, hword, hword] at haddrw
        omega
      rw [if_neg h, if_neg hne, wordAt]

/-- A packet that only the target answers. -/
theorem processHandled_answers {handler : Control σ Handled} {reply : List Byte}
    (hp : p.inputError = false) (h : Performs S.Holds handler m ⟨reply, p.target, []⟩ m') {s : Session σ}
    (hs : S.Holds m s) : ∃ tr s', (processHandled p handler).Returns s p tr s' ∧
      tr.filterMap ProxyEvent.answer = [reply] ∧ S.Holds m' s' := by
  obtain ⟨s', ⟨tr, hr⟩, hs'⟩ := h s hs
  have htarget : (onTarget handler).Returns s ⟨reply, p.target, []⟩ (tr.map .control) s' :=
    returns_mapEvents_iff.mpr ⟨tr, hr, rfl⟩
  have hanswer : (putAnswer { p with target := p.target } (.reply reply) : ProxyProgram σ Proxy).Returns
      s' p [.reply reply] s' := by
    rw [Returns, putAnswer_apply, hp]
    rfl
  have hconsole : (consoleOutput [] : ProxyProgram σ Unit).Returns s' () [] s' := rfl
  refine ⟨_, s', htarget.bind (hconsole.bind hanswer), ?_, hs'⟩
  have hnone : (tr.map ProxyEvent.control).filterMap ProxyEvent.answer = [] := by
    rw [List.filterMap_map]
    exact List.filterMap_eq_nil_iff.mpr fun _ _ => rfl
  rw [List.filterMap_append, hnone]
  rfl

theorem hexChar_ne_zero (b : Byte) : hexChar b ≠ 0 := by
  revert b
  decide

/-- There is no terminator in the fields of a packet. -/
theorem zero_notMem_fields (addr len : Nat) : (0 : Byte) ∉ hexNumber addr ++ ascii ',' :: hexNumber len := by
  intro h
  rcases List.mem_append.mp h with h | h
  · obtain ⟨b, hb⟩ := exists_of_mem_hexNumber h
    exact hexChar_ne_zero b hb.symm
  · rcases List.mem_cons.mp h with h | h
    · exact absurd h (by decide)
    · obtain ⟨b, hb⟩ := exists_of_mem_hexNumber h
      exact hexChar_ne_zero b hb.symm

theorem zero_notMem_writeText (addr : BitVec 64) (d : List Byte) : 0 ∉ writeText addr d := by
  intro h
  rcases List.mem_append.mp h with h | h
  · rcases List.mem_append.mp h with h | h
    · rcases List.mem_cons.mp h with h | h
      · exact absurd h (by decide)
      · exact zero_notMem_fields _ _ h
    · exact absurd (List.mem_singleton.mp h) (by decide)
  · obtain ⟨b, hb⟩ := exists_of_mem_byteDigits h
    exact hexChar_ne_zero b hb.symm

theorem zero_notMem_readText (addr : BitVec 64) (len : Nat) : 0 ∉ readText addr len := by
  intro h
  rcases List.mem_cons.mp h with h | h
  · exact absurd h (by decide)
  · exact zero_notMem_fields _ _ h

section Packets

variable {lo hi : Nat}

/-- A packet that writes. -/
theorem answers_writeText (h : M.PlainWords lo hi) (hp : p.inputError = false) {a : Nat}
    (hlo : lo ≤ a / 4) {d : List Byte} (hpos : 0 < d.length) (hhi : a + d.length ≤ 4 * hi)
    (hmax : d.length ≤ dataBytesMax) :
    ∃ m', S.Answers p m (writeText (BitVec.ofNat 64 a) d) (asciiText "OK") m' ∧
      M.Writes lo hi a d m m' := by
  obtain ⟨m', hwrite, hwrites⟩ := elveesWriteMem_performs (S := S) (t := p.target) (m := m) h hlo hpos hhi
  refine ⟨m', fun behind amb s hs => ?_, hwrites⟩
  have hsize : dataBytesMax < 2 ^ 32 := by decide
  have hhandle : Performs S.Holds (handleWriteMemory A p.target (writeText (BitVec.ofNat 64 a) d)) m
      ⟨asciiText "OK", p.target, []⟩ m' := by
    rw [handleWriteMemory, handleWriteMemoryCommand_writeText _ _ (by omega), if_pos hmax]
    have hanswer : Performs S.Holds (pure (rpWriteRetval .ok) : Control σ (List Byte)) m'
        (asciiText "OK") m' := performs_pure _ _
    exact ((hwrite.mapEvents _).bind hanswer).bind (performs_pure _ _)
  obtain ⟨tr, s', hr, hanswer, hs'⟩ := processHandled_answers hp hhandle hs
  refine ⟨tr, s', ?_, hanswer, hs'⟩
  rw [processPacket, assert, if_pos (zero_notMem_writeText _ _)]
  exact hr

/-- The digits of what a read has put into the buffer. -/
theorem rpEncodeData_setAll (buf : Buffer Byte) (data : List Byte) {outSize : Nat}
    (h : 2 * data.length < outSize) :
    rpEncodeData (buf.setAll 0 data) data.length outSize = some (byteDigits data) := by
  rw [rpEncodeData, if_neg (by omega)]
  congr 1
  have hdata : (List.range data.length).map (buf.setAll 0 data).get = data := by
    apply List.ext_getElem?
    intro i
    by_cases hi : i < data.length
    · have hget := buf.get_setAll 0 data[i] (List.getElem?_eq_getElem hi)
      rw [Nat.zero_add] at hget
      rw [List.getElem?_map, List.getElem?_range hi, Option.map_some, hget,
        List.getElem?_eq_getElem hi]
    · rw [List.getElem?_eq_none (by simpa using hi), List.getElem?_eq_none (by omega)]
  rw [byteDigits, ← hdata, List.flatMap_map, hdata]
  rfl

/-- A packet that reads. -/
theorem answers_readText (h : M.PlainWords lo hi) (hp : p.inputError = false) {a n : Nat}
    (hlo : lo ≤ a / 4) (hpos : 0 < n) (hhi : a + n ≤ 4 * hi) (hlimit : n ≤ 184) :
    S.Answers p m (readText (BitVec.ofNat 64 a) n) (byteDigits (M.bytes m a n)) m := by
  intro behind amb s hs
  have hlen : (BitVec.ofNat 32 n).toNat = n := by
    rw [BitVec.toNat_ofNat]
    omega
  have hshort : ¬BitVec.ofNat 32 n > readLimit := by
    rw [gt_iff_lt, BitVec.lt_def, hlen]
    exact not_lt.mpr hlimit
  have hwide : (BitVec.ofNat 32 n).setWidth 64 = BitVec.ofNat 64 n := by
    apply BitVec.eq_of_toNat_eq
    rw [BitVec.toNat_setWidth, hlen, BitVec.toNat_ofNat]
  have hread := elveesReadMem_performs (A := A) (S := S) (m := m) h hlo hpos hhi amb.read.data n
  have hroom : 2 * (M.bytes m a n).length < inOutBufSize := by
    rw [length_bytes]
    exact lt_of_le_of_lt (Nat.mul_le_mul_left 2 hlimit) (by decide)
  have hencode := rpEncodeData_setAll amb.read.data (M.bytes m a n) hroom
  rw [length_bytes] at hencode
  have hhandle : Performs S.Holds (handleReadMemoryCommand A p.target amb
      (readText (BitVec.ofNat 64 a) n) (rpWriteRetval .nosupp)) m
      ⟨byteDigits (M.bytes m a n), p.target, []⟩ m := by
    rw [handleReadMemoryCommand, readText, List.tail_cons, rpDecodeMem_hexNumber (BitVec.isLt _)
      (by omega), BitVec.ofNat_toNat, BitVec.setWidth_eq]
    dsimp only
    rw [if_neg hshort, hlen, hwide]
    refine (hread.mapEvents _).bind ?_
    dsimp only
    rw [hencode, assert, if_pos (le_trans hlimit (by decide)), assert, if_pos hpos]
    exact (performs_pure _ _).bind ((performs_pure _ _).bind (performs_pure _ _))
  obtain ⟨tr, s', hr, hanswer, hs'⟩ := processHandled_answers hp hhandle hs
  refine ⟨tr, s', ?_, hanswer, hs'⟩
  rw [processPacket, assert, if_pos (zero_notMem_readText _ _)]
  exact hr

end Packets

/-- Ordinary memory that does not cross the segments: after a packet `M` has written `d` and is
answered with `OK`, a packet `m` for a part of the range is answered with the digits of that part
of `d`. -/
theorem readText_after_writeText (S : Serves A M) (a : Word) {d : List Byte} (hpos : d ≠ [])
    (hmax : d.length ≤ dataBytesMax)
    (hcross : ∀ b ∈ [0x80000000, 0xA0000000, 2 ^ 32], ¬Crosses a.toNat d.length b)
    (hord : M.Ordinary (RangeWords a.toNat d.length)) (hp : p.inputError = false) (m : μ) :
    ∃ m', S.Answers p m (writeText (a.setWidth 64) d) (asciiText "OK") m' ∧
      ∀ (a' : Word) (n : Nat), 1 ≤ n → n ≤ 184 → a.toNat ≤ a'.toNat →
        a'.toNat + n ≤ a.toNat + d.length →
        S.Answers p m' (readText (a'.setWidth 64) n)
          (byteDigits ((d.drop (a'.toNat - a.toNat)).take n)) m' := by
  have hlen : 0 < d.length := List.length_pos_iff.mpr hpos
  have hend : a.toNat + d.length ≤ 2 ^ 32 := by
    have hno := hcross (2 ^ 32) (by decide)
    rw [Crosses] at hno
    omega
  have h := plainWords_of_ordinary hord hlen hend (hcross _ (by decide)) (hcross _ (by decide))
  obtain ⟨m', hwrite, hwrites⟩ := answers_writeText (S := S) (m := m) h hp le_rfl hlen (by omega) hmax
  rw [BitVec.ofNat_toNat] at hwrite
  refine ⟨m', hwrite, fun a' n hn hlimit hlo hhi => ?_⟩
  have hread := answers_readText (S := S) (m := m') h hp (a := a'.toNat) (n := n) (by omega) hn
    (by omega) hlimit
  have haddr : a.toNat + (a'.toNat - a.toNat) = a'.toNat := by omega
  have hbytes := hwrites.bytes_eq (k := a'.toNat - a.toNat) (n := n) (by omega) (by omega) (by omega)
  rw [haddr] at hbytes
  rw [hbytes, BitVec.ofNat_toNat] at hread
  exact hread

/-- A memory of words. -/
def ram : AddressSpace (Word → Word) where
  store addr val m := Function.update m addr val
  load addr m := (m addr, m)

theorem ram_ordinary (P : Word → Prop) : ram.Ordinary P :=
  ⟨fun _ _ _ => rfl, fun q p _ _ val m => Function.update_apply m p val q⟩

/-- Seven bytes across two words of the cached segment, by an adapter that stores by blocks. -/
theorem readText_after_writeText_cached :
    ([1, 2, 3, 4, 5, 6, 7] : List Byte) ≠ [] ∧ ∃ m',
      (memoryAdapter_serves ram false true).Answers (Proxy.started Target.allocated) (fun _ => 0)
        (writeText ((0x80000003 : Word).setWidth 64) [1, 2, 3, 4, 5, 6, 7]) (asciiText "OK") m' ∧
      ∀ (a' : Word) (n : Nat), 1 ≤ n → n ≤ 184 → (0x80000003 : Word).toNat ≤ a'.toNat →
        a'.toNat + n ≤ (0x80000003 : Word).toNat + ([1, 2, 3, 4, 5, 6, 7] : List Byte).length →
        (memoryAdapter_serves ram false true).Answers (Proxy.started Target.allocated) m'
          (readText (a'.setWidth 64) n)
          (byteDigits ((([1, 2, 3, 4, 5, 6, 7] : List Byte).drop
            (a'.toNat - (0x80000003 : Word).toNat)).take n)) m' :=
  ⟨by decide, readText_after_writeText (memoryAdapter_serves ram false true) 0x80000003 (by decide)
    (by decide) (by decide) (ram_ordinary _) rfl fun _ => 0⟩

end Mcprog
