import Mcprog.Adapter.MpsseSend

/-!
# Replies to packets of MPSSE commands

The chip sends the whole bytes of a reply as they are, the bits of a byte that is not whole in
the high part of a byte, and the last bit, which is clocked with TMS high, in a byte of its own.
`mpsse_send` computes from the length of a packet where the bits of its reply are, and
`mpsse_fix_data` moves them to their places.
-/

namespace Mcprog

open Interaction Cells Jtag

/-- The bits of the byte that is not whole, moved to its low part. -/
def fixHighByte (a : MpssePort) (word : BitVec 64) : BitVec 64 :=
  if a.highByteBits ≠ 0 then
    let highByte := a.highByteMask &&& ((word &&& a.highByteMask) >>> (8 - a.highByteBits))
    (word &&& ~~~a.highByteMask) ||| highByte
  else word

/-- `mpsse_fix_data`. -/
def mpsseFixData (a : MpssePort) (word : BitVec 64) : BitVec 64 :=
  let fixHighBit := word &&& a.fixHighBit
  let word := fixHighByte a word &&& (a.highBitMask - 1)
  if fixHighBit ≠ 0 then word ||| a.highBitMask else word

/-- The 64-bit number in the bytes from a position on. -/
def loadWord (input : Nat → Byte) (pos : Nat) : BitVec 64 :=
  (List.range 8).foldl (fun (word : BitVec 64) i => word ||| (input (pos + i)).setWidth 64 <<< (8 * i)) 0

/-- Send what waits, and take one word from the reply. -/
def mpsseRecv {σ : Type} (pipe : BulkPipe σ) (fuel : Nat) : UsbAction MpssePort σ (BitVec 64) := do
  mpsseFlushOutput pipe fuel
  let a ← getOwn
  return mpsseFixData a (loadWord a.input 0)

/-- A bit of a number is bit `i % 8` of byte `i / 8`. -/
theorem getLsbD_loadWord (input : Nat → Byte) (pos : Nat) {i : Nat} (hi : i < 64) :
    (loadWord input pos).getLsbD i = (input (pos + i / 8)).getLsbD (i % 8) := by
  have hbyte (b : Byte) (n : Nat) :
      (b.setWidth 64 <<< (8 * n)).getLsbD i = (!decide (i < 8 * n) && b.getLsbD (i - 8 * n)) := by
    rw [BitVec.getLsbD_shiftLeft, BitVec.getLsbD_setWidth, decide_eq_true hi,
      decide_eq_true ((Nat.sub_le i (8 * n)).trans_lt hi), Bool.true_and, Bool.true_and]
  have hbytes (n : Nat) : ((List.range n).foldl
      (fun (word : BitVec 64) i => word ||| (input (pos + i)).setWidth 64 <<< (8 * i)) 0).getLsbD i =
        (decide (i < 8 * n) && (input (pos + i / 8)).getLsbD (i % 8)) := by
    induction n with
    | zero => simp
    | succ n ih =>
      rw [List.range_succ, List.foldl_append, List.foldl_cons, List.foldl_nil, BitVec.getLsbD_or, ih, hbyte]
      by_cases hlow : i < 8 * n
      · have hnext : i < 8 * (n + 1) := by omega
        simp [hlow, hnext]
      · by_cases hin : i < 8 * (n + 1)
        · have hdiv : i / 8 = n := by omega
          have hmod : i - 8 * n = i % 8 := by omega
          simp [hlow, hin, hdiv, hmod]
        · have hout : (input (pos + n)).getLsbD (i - 8 * n) = false :=
            BitVec.getLsbD_of_ge _ _ (by omega)
          simp [hlow, hin, hout]
  rw [loadWord, hbytes, decide_eq_true (by omega), Bool.true_and]

/-- The bytes of the reply to so many bits that come before the last bit. -/
def replyBytes (nbits : Nat) : Nat := if (nbits - 1) % 8 > 0 then (nbits - 1) / 8 + 1 else (nbits - 1) / 8

/-- The reply to a packet of so many bits: the whole bytes, the other bits but the last one in the
high part of a byte, and the last one in bit 6 of a byte. -/
structure CarriesBits (t : Nat → Bool) (nbits : Nat) (reply : Nat → Byte) : Prop where
  whole : ∀ i < 8 * ((nbits - 1) / 8), (reply (i / 8)).getLsbD (i % 8) = t i
  part : ∀ i < (nbits - 1) % 8,
    (reply ((nbits - 1) / 8)).getLsbD (8 - (nbits - 1) % 8 + i) = t (8 * ((nbits - 1) / 8) + i)
  last : (reply (replyBytes nbits)).getLsbD 6 = t (nbits - 1)

/-- The masks for the reply to a packet of so many bits. -/
structure MpssePort.Expects (own : MpssePort) (nbits : Nat) : Prop where
  highByteBits : own.highByteBits = (nbits - 1) % 8
  bytesPerWord : own.bytesPerWord = replyBytes nbits + 1
  fixHighBit : own.fixHighBit = 0x40#64 <<< (8 * replyBytes nbits)
  highByteMask : 0 < (nbits - 1) % 8 → own.highByteMask = 0xff#64 <<< (8 * ((nbits - 1) / 8))
  highBitMask : own.highBitMask = 1#64 <<< (nbits - 1)

/-- The bits below a single bit. -/
theorem getLsbD_shiftLeft_sub_one {m : Nat} (hm : m < 64) (i : Nat) :
    ((1#64 <<< m) - 1).getLsbD i = decide (i < m) := by
  change ((1#64 <<< m) - 1#64).getLsbD i = decide (i < m)
  have hbit : (1#64 <<< m).toNat = 2 ^ m := by
    rw [← BitVec.twoPow_eq, BitVec.toNat_twoPow_of_lt hm]
  have hle : 1#64 ≤ 1#64 <<< m := by
    rw [BitVec.le_def, hbit]
    exact Nat.one_le_two_pow
  rw [← BitVec.testBit_toNat, BitVec.toNat_sub_of_le hle, hbit]
  exact Nat.testBit_two_pow_sub_one m i

/-- The bits of one byte. -/
theorem getLsbD_ffMask {i : Nat} (hi : i < 64) (n : Nat) :
    (0xff#64 <<< (8 * n)).getLsbD i = decide (8 * n ≤ i ∧ i < 8 * n + 8) := by
  have hones : (0xff : BitVec 64) = BitVec.setWidth 64 (BitVec.allOnes 8) := by decide
  rw [show (0xff#64 : BitVec 64) = BitVec.setWidth 64 (BitVec.allOnes 8) from hones,
    BitVec.getLsbD_shiftLeft, BitVec.getLsbD_setWidth, BitVec.getLsbD_allOnes]
  by_cases hlow : i < 8 * n
  · simp [hlow]
  · by_cases hin : i < 8 * n + 8
    · have h8 : i - 8 * n < 8 := by omega
      simp [hlow, hi, hin, h8]
      omega
    · have h8 : ¬ i - 8 * n < 8 := by omega
      simp [hin, h8]

section Reply

variable {own : MpssePort} {nbits : Nat} {t : Nat → Bool} {reply : Nat → Byte} {pos : Nat}

/-- The reply to 57 bits fits in a word. -/
theorem replyBytes_lt (hpos : 1 ≤ nbits) (hn : nbits ≤ 57) : 8 * replyBytes nbits + 6 < 64 := by
  unfold replyBytes
  split <;> omega

/-- The mask finds the last bit. -/
theorem MpssePort.Expects.fixHighBit_iff (h : own.Expects nbits) (hpos : 1 ≤ nbits) (hn : nbits ≤ 57)
    (hreply : CarriesBits t nbits fun i => reply (pos + i)) :
    loadWord reply pos &&& own.fixHighBit ≠ 0 ↔ t (nbits - 1) = true := by
  have hroom := replyBytes_lt hpos hn
  have hmask : own.fixHighBit = BitVec.twoPow 64 (8 * replyBytes nbits + 6) := by
    rw [h.fixHighBit, BitVec.twoPow_eq, Nat.add_comm, BitVec.shiftLeft_add]
    rfl
  have hdiv : (8 * replyBytes nbits + 6) / 8 = replyBytes nbits := by omega
  have hmod : (8 * replyBytes nbits + 6) % 8 = 6 := by omega
  rw [hmask, BitVec.and_twoPow, getLsbD_loadWord reply pos hroom, hdiv, hmod, hreply.last]
  cases t (nbits - 1) with
  | false => simp
  | true =>
    refine iff_of_true (fun hzero => ?_) rfl
    have hnat := congrArg BitVec.toNat hzero
    rw [if_pos rfl, BitVec.toNat_twoPow_of_lt hroom] at hnat
    exact absurd hnat (Nat.two_pow_pos _).ne'

/-- The bits before the last one are in their places once the high byte is corrected. -/
theorem MpssePort.Expects.getLsbD_fixHighByte (h : own.Expects nbits) (hn : nbits ≤ 57)
    (hreply : CarriesBits t nbits fun i => reply (pos + i)) {i : Nat} (hi : i < nbits - 1) :
    (fixHighByte own (loadWord reply pos)).getLsbD i = t i := by
  obtain ⟨N, hN⟩ : ∃ N, N = (nbits - 1) / 8 := ⟨_, rfl⟩
  obtain ⟨k, hk⟩ : ∃ k, k = (nbits - 1) % 8 := ⟨_, rfl⟩
  have hsplit : 8 * N + k = nbits - 1 := by rw [hN, hk, Nat.div_add_mod]
  have hk8 : k < 8 := by omega
  have hi64 : i < 64 := by omega
  have hwhole : i < 8 * N → (loadWord reply pos).getLsbD i = t i := fun hi' => by
    rw [getLsbD_loadWord reply pos hi64]
    exact hreply.whole i (by rwa [← hN])
  rw [fixHighByte, h.highByteBits, ← hk]
  split
  · rename_i hk0
    have hmask : own.highByteMask = 0xff#64 <<< (8 * N) := by
      rw [h.highByteMask (by omega), hN]
    dsimp only
    rw [hmask, BitVec.getLsbD_or, BitVec.getLsbD_and, BitVec.getLsbD_and, BitVec.getLsbD_not,
      BitVec.getLsbD_ushiftRight, BitVec.getLsbD_and, getLsbD_ffMask hi64]
    by_cases hi' : i < 8 * N
    · have hout : ¬ 8 * N ≤ i := by omega
      simpa [hout, hi64] using hwhole hi'
    · have hin : 8 * N ≤ i ∧ i < 8 * N + 8 := by omega
      have hup : 8 - k + i < 64 := by omega
      have hup' : 8 * N ≤ 8 - k + i ∧ 8 - k + i < 8 * N + 8 := by omega
      have hdiv : (8 - k + i) / 8 = N := by omega
      have hmod : (8 - k + i) % 8 = 8 - k + (i - 8 * N) := by omega
      have hback : 8 * N + (i - 8 * N) = i := by omega
      have hpart := hreply.part (i - 8 * N) (by omega)
      rw [← hN, ← hk, hback] at hpart
      rw [getLsbD_ffMask hup, getLsbD_loadWord reply pos hup, hdiv, hmod, hpart, decide_eq_true hin,
        decide_eq_true hup']
      simp
  · exact hwhole (by omega)

/-- The masks take each bit from where it is in the reply. -/
theorem MpssePort.Expects.getLsbD_fixData (h : own.Expects nbits) (hpos : 1 ≤ nbits) (hn : nbits ≤ 57)
    (hreply : CarriesBits t nbits fun i => reply (pos + i)) (i : Nat) :
    (mpsseFixData own (loadWord reply pos)).getLsbD i = (decide (i < nbits) && t i) := by
  have hlow : (fixHighByte own (loadWord reply pos) &&& (own.highBitMask - 1)).getLsbD i =
      (decide (i < nbits - 1) && t i) := by
    rw [h.highBitMask, BitVec.getLsbD_and, getLsbD_shiftLeft_sub_one (by omega)]
    by_cases hi : i < nbits - 1
    · rw [h.getLsbD_fixHighByte hn hreply hi, Bool.and_comm]
    · simp [hi]
  have hone : own.highBitMask.getLsbD i = decide (i = nbits - 1) := by
    rw [h.highBitMask, ← BitVec.twoPow_eq, BitVec.getLsbD_twoPow, decide_eq_true (by omega), Bool.true_and]
    exact decide_eq_decide.mpr eq_comm
  have hlast := h.fixHighBit_iff hpos hn hreply
  rw [mpsseFixData]
  split
  · rename_i hset
    rw [BitVec.getLsbD_or, hlow, hone]
    rcases Nat.lt_trichotomy i (nbits - 1) with hlt | rfl | hgt
    · have hin : i < nbits := by omega
      simp [hlt, hin, hlt.ne]
    · have hin : nbits - 1 < nbits := by omega
      simp [hin, hlast.mp hset]
    · have hout : ¬ i < nbits := by omega
      simp [hout, hgt.ne', hgt.le]
  · rename_i hclear
    rw [hlow]
    rcases Nat.lt_trichotomy i (nbits - 1) with hlt | rfl | hgt
    · have hin : i < nbits := by omega
      simp [hlt, hin]
    · have hzero : t (nbits - 1) = false := Bool.eq_false_iff.mpr fun ht => hclear (hlast.mpr ht)
      simp [hzero]
    · have hout : ¬ i < nbits := by omega
      simp [hout, hgt.le]

end Reply

/-- The commands of the data of a packet. -/
def dataCommands (nbits : Nat) (tdi : BitVec 64) (readFlag : Bool) : List Byte :=
  byteCommands ((nbits - 1) / 8) tdi readFlag ++
    (bitCommands ((nbits - 1) % 8) (tdi >>> (8 * ((nbits - 1) / 8))) readFlag ++
      lastCommands (tdi >>> (8 * ((nbits - 1) / 8)) >>> ((nbits - 1) % 8)) readFlag)

/-- The port with more bytes to write. -/
def MpssePort.put (own : MpssePort) (bytes : List Byte) : MpssePort := { own with output := own.output ++ bytes }

theorem MpssePort.put_append (own : MpssePort) (xs ys : List Byte) : (own.put xs).put ys = own.put (xs ++ ys) := by
  rw [MpssePort.put, MpssePort.put, MpssePort.put, List.append_assoc]

theorem MpssePort.put_put (own : MpssePort) (xs ys zs : List Byte) :
    ((own.put xs).put ys).put zs = own.put (xs ++ (ys ++ zs)) := by
  rw [put_append, put_append]

/-- The port when it waits for the reply to one more packet. -/
def MpssePort.await (own : MpssePort) (nbits : Nat) : MpssePort :=
  { own with
    bytesToRead := own.bytesToRead + replyBytes nbits + 1
    bytesPerWord := replyBytes nbits + 1
    fixHighBit := 0x40#64 <<< (replyBytes nbits * 8)
    highByteMask := if (nbits - 1) % 8 > 0 then 0xff#64 <<< ((replyBytes nbits - 1) * 8) else 0
    highBitMask := 1#64 <<< (nbits - 1)
    highByteBits := (nbits - 1) % 8 }

theorem MpssePort.expects_await (own : MpssePort) (nbits : Nat) : (own.await nbits).Expects nbits where
  highByteBits := rfl
  bytesPerWord := rfl
  fixHighBit := by rw [MpssePort.await, Nat.mul_comm]
  highByteMask hpos := by
    have hbytes : replyBytes nbits = (nbits - 1) / 8 + 1 := if_pos hpos
    have hmask : (own.await nbits).highByteMask = 0xff#64 <<< ((replyBytes nbits - 1) * 8) := if_pos hpos
    rw [hmask, hbytes, Nat.add_sub_cancel, Nat.mul_comm]
  highBitMask := rfl

variable {σ : Type} {pipe : BulkPipe σ} {a a' : Attached MpssePort σ}

/-- The program puts so many bytes into the buffer and changes the port in this way, or it stops
because there is no room for them. -/
def Turns (m : UsbAction MpssePort σ Unit) (n : Nat) (g : MpssePort → MpssePort) : Prop :=
  ∀ a, (g a.own).output.length = a.own.output.length + n ∧
    Program.Meets m a (fun _ => mpsseSize < a.own.output.length + n) fun _ a' => a' = { a with own := g a.own }

theorem turns_setOwn {g : MpssePort → MpssePort} (hg : ∀ own, (g own).output = own.output) :
    Turns (setOwn g : UsbAction MpssePort σ Unit) 0 g :=
  fun a => ⟨congrArg List.length (hg a.own), (setOwn_returns g).reaches.meets rfl⟩

theorem turns_mpssePut (bytes : List Byte) :
    Turns (mpssePut bytes : UsbAction MpssePort σ Unit) bytes.length (·.put bytes) := by
  refine fun a => ⟨List.length_append, ?_⟩
  refine Program.Meets.of_apply ?_ (getOwn_bind (a := a) _)
  by_cases hroom : a.own.output.length + bytes.length > mpsseSize
  · rw [if_pos hroom]
    exact Program.meets_stop hroom
  · rw [if_neg hroom]
    exact (setOwn_returns _).reaches.meets rfl

/-- Two parts that change the port. -/
theorem Turns.bind {m : UsbAction MpssePort σ Unit} {f : Unit → UsbAction MpssePort σ Unit} {n k : Nat}
    {g g' : MpssePort → MpssePort} (hm : Turns m n g) (hf : ∀ u, Turns (f u) k g') :
    Turns (m >>= f) (n + k) fun own => g' (g own) := by
  intro a
  obtain ⟨hlen, hmeets⟩ := hm a
  obtain ⟨hlen', hmeets'⟩ := hf () { a with own := g a.own }
  rw [hlen, Nat.add_assoc] at hlen'
  refine ⟨hlen', Program.Meets.bind (hmeets.mono (fun e he => by omega) fun _ _ h => h) fun _ a₁ ha₁ => ?_⟩
  rw [ha₁]
  refine hmeets'.mono (fun e he => ?_) fun _ _ h => h
  rw [hlen] at he
  omega

/-- The same change in other words. -/
theorem Turns.congr {m : UsbAction MpssePort σ Unit} {n n' : Nat} {g g' : MpssePort → MpssePort}
    (h : Turns m n g) (hn : n = n') (hg : ∀ own, g own = g' own) : Turns m n' g' := by
  obtain rfl : g = g' := funext hg
  rwa [← hn]

/-- A packet with a read. -/
theorem turns_mpsseData (nbits : Nat) (tdi : BitVec 64) :
    Turns (mpsseData nbits tdi true : UsbAction MpssePort σ Unit) (dataCommands nbits tdi true).length
      fun own => (own.await nbits).put (dataCommands nbits tdi true) := by
  unfold mpsseData
  simp only [if_true]
  have hlen : (dataCommands nbits tdi true).length = (byteCommands ((nbits - 1) / 8) tdi true).length +
      ((bitCommands ((nbits - 1) % 8) (tdi >>> (8 * ((nbits - 1) / 8))) true).length +
        (lastCommands (tdi >>> (8 * ((nbits - 1) / 8)) >>> ((nbits - 1) % 8)) true).length) := by
    rw [dataCommands, List.length_append, List.length_append]
  by_cases hpart : (nbits - 1) % 8 > 0
  · simp only [hpart, if_true]
    refine Turns.congr (Turns.bind (turns_setOwn ?_) fun _ => (turns_mpssePut _).bind fun _ =>
      (turns_mpssePut _).bind fun _ => (turns_setOwn ?_).bind fun _ => (turns_mpssePut _).bind fun _ =>
        turns_setOwn ?_) ?_ ?_
    · exact fun _ => rfl
    · exact fun _ => rfl
    · exact fun _ => rfl
    · omega
    · intro own
      rw [dataCommands, ← MpssePort.put_put]
      unfold MpssePort.await replyBytes
      rw [if_pos hpart, if_pos hpart]
      rfl
  · simp only [hpart, if_false]
    refine Turns.congr (Turns.bind (turns_setOwn ?_) fun _ => (turns_mpssePut _).bind fun _ =>
      (turns_mpssePut _).bind fun _ => (turns_mpssePut _).bind fun _ => turns_setOwn ?_) ?_ ?_
    · exact fun _ => rfl
    · exact fun _ => rfl
    · omega
    · intro own
      rw [dataCommands, ← MpssePort.put_put]
      unfold MpssePort.await replyBytes
      rw [if_neg hpart, if_neg hpart]
      rfl

/-- The port with the mask that a packet without a read leaves. -/
def MpssePort.masked (own : MpssePort) (nbits : Nat) : MpssePort :=
  { own with highByteMask :=
      if (nbits - 1) % 8 > 0 then 0xff#64 <<< ((own.bytesPerWord - 1) * 8) else own.highByteMask }

/-- A packet without a read. -/
theorem turns_mpsseData_write (nbits : Nat) (tdi : BitVec 64) :
    Turns (mpsseData nbits tdi false : UsbAction MpssePort σ Unit) (dataCommands nbits tdi false).length
      fun own => (own.masked nbits).put (dataCommands nbits tdi false) := by
  unfold mpsseData
  simp only [Bool.false_eq_true, if_false, bind_pure_unit]
  have hlen : (dataCommands nbits tdi false).length = (byteCommands ((nbits - 1) / 8) tdi false).length +
      ((bitCommands ((nbits - 1) % 8) (tdi >>> (8 * ((nbits - 1) / 8))) false).length +
        (lastCommands (tdi >>> (8 * ((nbits - 1) / 8)) >>> ((nbits - 1) % 8)) false).length) := by
    rw [dataCommands, List.length_append, List.length_append]
  by_cases hpart : (nbits - 1) % 8 > 0
  · simp only [hpart, if_true]
    refine Turns.congr ((turns_mpssePut _).bind fun _ => (turns_mpssePut _).bind fun _ =>
      (turns_setOwn ?_).bind fun _ => turns_mpssePut _) ?_ ?_
    · exact fun _ => rfl
    · omega
    · intro own
      rw [dataCommands, ← MpssePort.put_put]
      unfold MpssePort.masked
      rw [if_pos hpart]
      rfl
  · simp only [hpart, if_false]
    refine Turns.congr ((turns_mpssePut _).bind fun _ => (turns_mpssePut _).bind fun _ => turns_mpssePut _) ?_ ?_
    · omega
    · intro own
      rw [dataCommands, ← MpssePort.put_put]
      unfold MpssePort.masked
      rw [if_neg hpart]

/-- All commands of a packet with the standard prolog only. -/
def sendCommands (nbits : Nat) (tdi : BitVec 64) (readFlag : Bool) : List Byte :=
  prologCommands 3 1 ++ dataCommands nbits tdi readFlag

/-- The port after a packet with the standard prolog only. -/
def MpssePort.sent (own : MpssePort) (nbits : Nat) (tdi : BitVec 64) (readFlag : Bool) : MpssePort :=
  (if readFlag then own.await nbits else own.masked nbits).put (sendCommands nbits tdi readFlag)

/-- The buffer after a scan that has been put. -/
@[simp] theorem MpssePort.output_sent (own : MpssePort) (nbits : Nat) (tdi : BitVec 64) (readFlag : Bool) :
    (own.sent nbits tdi readFlag).output = own.output ++ sendCommands nbits tdi readFlag := by
  cases readFlag <;> rfl

@[simp] theorem MpssePort.bytesToRead_sent (own : MpssePort) (nbits : Nat) (tdi : BitVec 64) (readFlag : Bool) :
    (own.sent nbits tdi readFlag).bytesToRead =
      own.bytesToRead + if readFlag then replyBytes nbits + 1 else 0 := by
  cases readFlag <;> rfl

/-- Bytes that are put do not change what is waited for. -/
theorem MpssePort.Expects.put {own : MpssePort} {nbits : Nat} (h : own.Expects nbits) (bytes : List Byte) :
    (own.put bytes).Expects nbits :=
  ⟨h.highByteBits, h.bytesPerWord, h.fixHighBit, h.highByteMask, h.highBitMask⟩

theorem MpssePort.expects_sent (own : MpssePort) (nbits : Nat) (tdi : BitVec 64) :
    (own.sent nbits tdi true).Expects nbits := (own.expects_await nbits).put _

/-- A packet has 20 bytes at most. -/
theorem length_sendCommands {nbits : Nat} (hn : nbits ≤ 64) (tdi : BitVec 64) (readFlag : Bool) :
    (sendCommands nbits tdi readFlag).length ≤ 20 := by
  have hbytes : (byteCommands ((nbits - 1) / 8) tdi readFlag).length ≤ 3 + (nbits - 1) / 8 := by
    unfold byteCommands
    split <;> simp
    omega
  have hbits (t : BitVec 64) : (bitCommands ((nbits - 1) % 8) t readFlag).length ≤ 3 := by
    unfold bitCommands
    split <;> simp
  have hprolog : (prologCommands 3 1).length = 3 := rfl
  have hlast (t : BitVec 64) : (lastCommands t readFlag).length = 3 := rfl
  have hbits' := hbits (tdi >>> (8 * ((nbits - 1) / 8)))
  rw [sendCommands, dataCommands, List.length_append, List.length_append, List.length_append, hprolog, hlast]
  omega

/-- Where there is room a packet is put into the buffer. -/
theorem reaches_mpsseSend {fuel nbits : Nat} (hpos : 0 < nbits) (hn : nbits ≤ 64) (tdi : BitVec 64)
    (readFlag : Bool) (hroom : a.own.output.length ≤ mpsseSize - 23) :
    (mpsseSend pipe fuel 0 0 nbits tdi readFlag).Reaches a ()
      { a with own := a.own.sent nbits tdi readFlag } := by
  have hlen := length_sendCommands hn tdi readFlag
  have hsize : mpsseSize = 4096 := rfl
  have hturns : Turns (do
      mpssePut (prologCommands (0 + 3) (0 ||| (1#32 <<< 0)))
      mpsseData nbits tdi readFlag : UsbAction MpssePort σ Unit) (sendCommands nbits tdi readFlag).length
      fun own => own.sent nbits tdi readFlag := by
    rw [sendCommands, List.length_append]
    cases readFlag with
    | true =>
      refine Turns.congr ((turns_mpssePut _).bind fun _ => turns_mpsseData nbits tdi) rfl fun own => ?_
      rw [MpssePort.sent, sendCommands, ← MpssePort.put_append]
      rfl
    | false =>
      refine Turns.congr ((turns_mpssePut _).bind fun _ => turns_mpsseData_write nbits tdi) rfl fun own => ?_
      rw [MpssePort.sent, sendCommands, ← MpssePort.put_append]
      rfl
  obtain ⟨_, a₁, h₁, rfl⟩ := (hturns a).2.exists_reaches fun _ h => by omega
  refine getOwn_returns.reaches.bind ?_
  dsimp only
  rw [if_neg (by omega), if_pos hpos]
  exact h₁

/-- Where there is no room the buffer is written first. -/
theorem reaches_mpsseSend_full {fuel prologNbits nbits : Nat} {prolog : Word} {tdi : BitVec 64}
    {readFlag : Bool} {a₁ : Attached MpssePort σ} (hfull : mpsseSize - 23 < a.own.output.length)
    (hflush : (mpsseFlushOutput pipe fuel).Reaches a () a₁) (hroom : a₁.own.output.length ≤ mpsseSize - 23)
    (h : (mpsseSend pipe fuel prologNbits prolog nbits tdi readFlag).Reaches a₁ () a') :
    (mpsseSend pipe fuel prologNbits prolog nbits tdi readFlag).Reaches a () a' := by
  unfold mpsseSend at h ⊢
  obtain ⟨tr, h⟩ := h
  rw [Program.Returns, getOwn_bind] at h
  dsimp only at h
  rw [if_neg (Nat.not_lt.mpr hroom)] at h
  refine getOwn_returns.reaches.bind ?_
  dsimp only
  rw [if_pos hfull]
  exact hflush.bind ⟨tr, h⟩

/-- Whatever was sent before, the masks are for the packet that was sent last. -/
theorem mpsseSend_expects {fuel prologNbits nbits : Nat} {prolog : Word} {tdi : BitVec 64} {tr : List Transfer}
    (hpos : 1 ≤ nbits) (h : (mpsseSend pipe fuel prologNbits prolog nbits tdi true).Returns a () tr a') :
    a'.own.Expects nbits := by
  have hrest (a : Attached MpssePort σ) (tr : List Transfer)
      (h : (if nbits > 0 then do
          mpssePut (prologCommands (prologNbits + 3) (prolog ||| (1#32 <<< prologNbits)))
          mpsseData nbits tdi true
        else mpssePut (prologCommands prologNbits prolog) : UsbAction MpssePort σ Unit).Returns a () tr a') :
      a'.own.Expects nbits := by
    rw [if_pos (show nbits > 0 from hpos)] at h
    obtain ⟨_, tr₁, a₁, tr₂, -, h₂, rfl⟩ := Program.returns_bind_iff.mp h
    rw [((turns_mpsseData nbits tdi) a₁).2.reaches h₂.reaches]
    exact (a₁.own.expects_await nbits).put _
  rw [mpsseSend, Program.Returns, getOwn_bind] at h
  split at h
  · obtain ⟨_, tr₁, a₁, tr₂, -, h₂, rfl⟩ := Program.returns_bind_iff.mp h
    exact hrest _ _ h₂
  · exact hrest _ _ h

/-- The word that comes from the reply to a packet is the number of its bits, whatever was sent
before and whatever else is in the buffer. -/
theorem mpsseFixData_send {fuel prologNbits nbits : Nat} {prolog : Word} {tdi : BitVec 64} {tr : List Transfer}
    (hpos : 1 ≤ nbits) (hn : nbits ≤ 57)
    (h : (mpsseSend pipe fuel prologNbits prolog nbits tdi true).Returns a () tr a')
    {t : Nat → Bool} {reply : Nat → Byte} (hreply : CarriesBits t nbits reply) :
    (mpsseFixData a'.own (loadWord reply 0)).toNat = ∑ i ∈ Finset.range nbits, (t i).toNat * 2 ^ i := by
  have hbits (i : Nat) : (mpsseFixData a'.own (loadWord reply 0)).getLsbD i = (decide (i < nbits) && t i) := by
    refine (mpsseSend_expects hpos h).getLsbD_fixData hpos hn ?_ i
    simpa only [Nat.zero_add] using hreply
  rw [toNat_eq_sum_bits (n := nbits) _ fun i hi => by rw [hbits, decide_eq_false (by omega), Bool.false_and]]
  refine Finset.sum_congr rfl fun i hi => ?_
  rw [hbits, decide_eq_true (Finset.mem_range.mp hi), Bool.true_and]

/-- The reply to twelve bits, with other bits around them, in a port that has the masks of another
packet. -/
theorem mpsseFixData_twelve : ∃ tr a', (mpsseSend zeroPipe 1 6 31 12 0xABC true).Returns
      ⟨⟨[], fun _ => 0xFF, 0, 7, 0x40#64 <<< 48, 0, 1#64 <<< 40, 5⟩, ()⟩ () tr a' ∧
    (mpsseFixData a'.own (loadWord (fun i => [0x3C, 0xBF, 0x5A, 0x77].getD i 0xFF) 0)).toNat = 0xD3C := by
  obtain ⟨tr, a', h⟩ : ∃ tr a', (mpsseSend zeroPipe 1 6 31 12 0xABC true).Returns
      ⟨⟨[], fun _ => 0xFF, 0, 7, 0x40#64 <<< 48, 0, 1#64 <<< 40, 5⟩, ()⟩ () tr a' := ⟨_, _, rfl⟩
  refine ⟨tr, a', h, ?_⟩
  have hreply : CarriesBits ((0xD3C : Word).getLsbD ·) 12 fun i => [0x3C, 0xBF, 0x5A, 0x77].getD i 0xFF :=
    ⟨by decide, by decide, by decide⟩
  exact (mpsseFixData_send (by decide) (by decide) h hreply).trans (by decide)

end Mcprog
