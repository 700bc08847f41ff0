import Mcprog.Adapter.MpsseRecv

/-!
# Scans of the MPSSE adapter

The commands of the FT2232 that `mpsse_send` uses, as clocks of the port: TMS and TDI keep
their level where a command does not set them. The commands of a packet with data are the
clocks of a scan, whatever the levels were before them.
-/

namespace Mcprog

open Interaction Jtag

/-- The levels of TMS and TDI. -/
structure PortLines where
  mode : Bool
  data : Bool
  deriving DecidableEq, Repr

/-- The clocks of bits at the TDI pin. -/
def dataClocks (mode : Bool) (bits : List Bool) : List Clock := bits.map (⟨mode, ·⟩)

/-- The levels after some clocks. -/
def PortLines.after (l : PortLines) (clocks : List Clock) : PortLines :=
  clocks.getLast?.elim l fun c => ⟨c.tms, c.tdi⟩

/-- The clocks of the first command, and the bytes behind it. -/
def mpsseStep (l : PortLines) : List Byte → Option (List Clock × List Byte)
  | [] => none
  | code :: args =>
    if code = 0x4b ∨ code = 0x6b then
      match args with
      | len :: bits :: rest =>
        -- bit 7 stands at the TDI pin during the whole command
        some ((lowBits bits (len.toNat + 1)).map (⟨·, bits.getLsbD 7⟩), rest)
      | _ => none
    else if code = 0x1b ∨ code = 0x3b then
      match args with
      | len :: bits :: rest => some (dataClocks l.mode (lowBits bits (len.toNat + 1)), rest)
      | _ => none
    else if code = 0x19 ∨ code = 0x39 then
      match args with
      | lo :: hi :: rest =>
        let count := lo.toNat + 256 * hi.toNat + 1
        if rest.length < count then none
        else some (dataClocks l.mode ((rest.take count).flatMap fun b => lowBits b 8), rest.drop count)
      | _ => none
    else none

/-- The clocks of so many commands at most. -/
def mpsseRun : Nat → PortLines → List Byte → Option (List Clock)
  | _, _, [] => some []
  | 0, _, _ => none
  | count + 1, l, bytes => do
    let (clocks, rest) ← mpsseStep l bytes
    let more ← mpsseRun count (l.after clocks) rest
    return clocks ++ more

/-- The clocks of a list of commands. -/
def mpsseClocks (l : PortLines) (bytes : List Byte) : Option (List Clock) :=
  mpsseRun bytes.length l bytes

/-- The commands are these clocks, however many of them are allowed for. -/
def Clocks (l : PortLines) (bytes : List Byte) (clocks : List Clock) : Prop :=
  ∀ count, bytes.length ≤ count → mpsseRun count l bytes = some clocks

theorem clocks_nil (l : PortLines) : Clocks l [] [] := fun count _ => by cases count <;> rfl

/-- One command, and those behind it. -/
theorem clocks_of_step {l : PortLines} {b : Byte} {bytes rest : List Byte} {clocks more : List Clock}
    (hstep : mpsseStep l (b :: bytes) = some (clocks, rest)) (hle : rest.length ≤ bytes.length)
    (h : Clocks (l.after clocks) rest more) : Clocks l (b :: bytes) (clocks ++ more) := by
  intro count hcount
  rw [List.length_cons] at hcount
  obtain ⟨count, rfl⟩ := Nat.exists_eq_succ_of_ne_zero (show count ≠ 0 by omega)
  have hmore : mpsseRun count (l.after clocks) rest = some more := h count (by omega)
  simp only [mpsseRun, hstep, hmore, Option.bind_eq_bind, Option.bind_some, Option.pure_def]

/-- Clocks with one level of TMS leave it so. -/
theorem after_dataClocks (l : PortLines) (bits : List Bool) :
    (l.after (dataClocks l.mode bits)).mode = l.mode := by
  rw [PortLines.after, dataClocks, List.getLast?_map]
  cases bits.getLast? with
  | none => rfl
  | some b => rfl

/-- The number of bits, less one, fits a byte. -/
theorem toNat_ofNat_pred {n : Nat} (h : 0 < n) (hn : n ≤ 256) : (BitVec.ofNat 8 (n - 1)).toNat + 1 = n := by
  rw [BitVec.toNat_ofNat, Nat.mod_eq_of_lt (by omega)]
  omega

variable {l : PortLines} {mode : Bool} {rest : List Byte} {more : List Clock} (tdi : BitVec 64)

/-- The command for the whole bytes of the data. -/
theorem mpsseStep_bytes (l : PortLines) {nbytes : Nat} (hpos : 0 < nbytes) (hn : nbytes ≤ 256)
    (readFlag : Bool) (rest : List Byte) :
    mpsseStep l (byteCommands nbytes tdi readFlag ++ rest) =
      some (dataClocks l.mode (lowBits tdi (8 * nbytes)), rest) := by
  have hlen : (leBytes nbytes tdi).length = nbytes := length_leBytes nbytes tdi
  have hhi : (nbytes - 1) >>> 8 = 0 := by
    rw [Nat.shiftRight_eq_div_pow]
    omega
  have hcount : (BitVec.ofNat 8 (nbytes - 1)).toNat + 256 * (BitVec.ofNat 8 0).toNat + 1 = nbytes :=
    toNat_ofNat_pred hpos hn
  have hroom : ¬ (leBytes nbytes tdi ++ rest).length < nbytes := by
    rw [List.length_append, hlen]
    omega
  have hcode : mpsseBytes readFlag = 0x19 ∨ mpsseBytes readFlag = 0x39 := by cases readFlag <;> decide
  rw [byteCommands, if_neg hpos.ne', List.append_assoc, hhi]
  change mpsseStep l (mpsseBytes readFlag :: BitVec.ofNat 8 (nbytes - 1) :: BitVec.ofNat 8 0 ::
    (leBytes nbytes tdi ++ rest)) = _
  rw [mpsseStep, if_neg (by cases readFlag <;> decide), if_neg (by cases readFlag <;> decide), if_pos hcode]
  dsimp only
  rw [hcount, if_neg hroom, List.take_left' hlen, List.drop_left' hlen, flatMap_leBytes]

/-- The command for the bits of the last byte. -/
theorem mpsseStep_bits (l : PortLines) {nbits : Nat} (hpos : 0 < nbits) (hn : nbits ≤ 8)
    (readFlag : Bool) (rest : List Byte) :
    mpsseStep l (bitCommands nbits tdi readFlag ++ rest) =
      some (dataClocks l.mode (lowBits tdi nbits), rest) := by
  have hcode : mpsseBits readFlag = 0x1b ∨ mpsseBits readFlag = 0x3b := by cases readFlag <;> decide
  rw [bitCommands, if_neg hpos.ne']
  change mpsseStep l (mpsseBits readFlag :: BitVec.ofNat 8 (nbits - 1) :: tdi.setWidth 8 :: rest) = _
  rw [mpsseStep, if_neg (by cases readFlag <;> decide), if_pos hcode,
    toNat_ofNat_pred hpos (by omega), lowBits_setWidth tdi hn]

/-- The command for the last bit, which stays at the pin for one more clock. -/
theorem mpsseStep_last (l : PortLines) (readFlag : Bool) (rest : List Byte) :
    mpsseStep l (lastCommands tdi readFlag ++ rest) =
      some ([⟨true, tdi.getLsbD 0⟩, ⟨true, tdi.getLsbD 0⟩], rest) := by
  have hcode : mpsseTms readFlag = 0x4b ∨ mpsseTms readFlag = 0x6b := by cases readFlag <;> decide
  have hbits : (lowBits ((tdi <<< 7 ||| 1 ||| 1 <<< 1).setWidth 8) 2) = [true, true] := by
    simp [lowBits, List.range_succ]
  have hdata : ((tdi <<< 7 ||| 1 ||| 1 <<< 1).setWidth 8).getLsbD 7 = tdi.getLsbD 0 := by
    simp
  change mpsseStep l (mpsseTms readFlag :: 1 :: (tdi <<< 7 ||| 1 ||| 1 <<< 1).setWidth 8 :: rest) = _
  rw [mpsseStep, if_pos hcode, hdata, show (1 : Byte).toNat + 1 = 2 from rfl, hbits]
  rfl

/-- The command for the clocks that lead to Shift-DR. -/
theorem mpsseStep_prolog (l : PortLines) (rest : List Byte) : mpsseStep l (prologCommands 3 1 ++ rest) =
    some ([⟨true, false⟩, ⟨false, false⟩, ⟨false, false⟩], rest) := rfl

/-- The whole bytes of the data. -/
theorem clocks_byteCommands {nbytes : Nat} (hl : l.mode = mode) (hn : nbytes ≤ 256)
    (h : ∀ l' : PortLines, l'.mode = mode → Clocks l' rest more) :
    Clocks l (byteCommands nbytes tdi false ++ rest)
      (dataClocks mode (lowBits tdi (8 * nbytes)) ++ more) := by
  subst hl
  rcases Nat.eq_zero_or_pos nbytes with rfl | hpos
  · exact h l rfl
  · have hstep := mpsseStep_bytes tdi l hpos hn false rest
    rw [byteCommands, if_neg hpos.ne'] at hstep ⊢
    refine clocks_of_step hstep ?_ (h _ (after_dataClocks l _))
    simp only [List.append_eq, List.length_append]
    omega

/-- The bits of the last byte. -/
theorem clocks_bitCommands {nbits : Nat} (hl : l.mode = mode) (hn : nbits ≤ 8)
    (h : ∀ l' : PortLines, l'.mode = mode → Clocks l' rest more) :
    Clocks l (bitCommands nbits tdi false ++ rest) (dataClocks mode (lowBits tdi nbits) ++ more) := by
  subst hl
  rcases Nat.eq_zero_or_pos nbits with rfl | hpos
  · exact h l rfl
  · have hstep := mpsseStep_bits tdi l hpos hn false rest
    rw [bitCommands, if_neg hpos.ne'] at hstep ⊢
    refine clocks_of_step hstep ?_ (h _ (after_dataClocks l _))
    simp only [List.append_eq, List.length_append]
    omega

/-- The last bit, which stays at the pin for one more clock. -/
theorem clocks_lastCommands :
    Clocks l (lastCommands tdi false) [⟨true, tdi.getLsbD 0⟩, ⟨true, tdi.getLsbD 0⟩] := by
  have hstep := mpsseStep_last tdi l false []
  rw [List.append_nil] at hstep
  exact clocks_of_step hstep (Nat.zero_le _) (clocks_nil _)

/-- The commands of a packet of data with the standard prolog only. -/
def packetCommands (nbits : Nat) (tdi : BitVec 64) : List Byte :=
  prologCommands 3 1 ++ (byteCommands ((nbits - 1) / 8) tdi false ++
    (bitCommands ((nbits - 1) % 8) (tdi >>> (8 * ((nbits - 1) / 8))) false ++
      lastCommands (tdi >>> (8 * ((nbits - 1) / 8)) >>> ((nbits - 1) % 8)) false))

/-- The clocks of a packet are a scan of its data. -/
theorem scans_packetCommands {nbits : Nat} (hpos : 0 < nbits) (hn : nbits ≤ 64) (tdi : BitVec 64) :
    ∃ clocks, Scans (lowBits tdi nbits) clocks ∧ ∀ l, Clocks l (packetCommands nbits tdi) clocks := by
  obtain ⟨n, rfl⟩ := Nat.exists_eq_succ_of_ne_zero hpos.ne'
  rw [Nat.succ_eq_add_one] at hn ⊢
  have hdiv : 8 * (n / 8) + n % 8 = n := Nat.div_add_mod n 8
  have hbits : lowBits tdi (8 * (n / 8)) ++ lowBits (tdi >>> (8 * (n / 8))) (n % 8) = lowBits tdi n := by
    rw [← lowBits_add, hdiv]
  have hlast : (tdi >>> (8 * (n / 8)) >>> (n % 8)).getLsbD 0 = tdi.getLsbD n := by
    rw [BitVec.getLsbD_ushiftRight, BitVec.getLsbD_ushiftRight, Nat.add_zero, hdiv]
  obtain ⟨bit, hbit⟩ : ∃ bit, bit = tdi.getLsbD n := ⟨_, rfl⟩
  refine ⟨[⟨true, false⟩, ⟨false, false⟩, ⟨false, false⟩] ++
    (dataClocks false (lowBits tdi n) ++ [⟨true, bit⟩, ⟨true, bit⟩]), ?_, fun l => ?_⟩
  · refine ⟨_, _, _, dataClocks false (lowBits tdi n), ⟨true, bit⟩, ⟨true, bit⟩, rfl, ⟨rfl, rfl, rfl⟩,
      fun c hc => ?_, ⟨rfl, rfl⟩, ?_⟩
    · obtain ⟨_, -, rfl⟩ := List.mem_map.mp hc
      rfl
    · rw [dataClocks, List.map_append, List.map_map, lowBits_succ, ← hbit]
      exact congrArg (· ++ [bit]) (List.map_id _)
  · have hdata (l' : PortLines) (hl' : l'.mode = false) :
        Clocks l' (byteCommands (n / 8) tdi false ++ (bitCommands (n % 8) (tdi >>> (8 * (n / 8))) false ++
          lastCommands (tdi >>> (8 * (n / 8)) >>> (n % 8)) false))
          (dataClocks false (lowBits tdi n) ++ [⟨true, bit⟩, ⟨true, bit⟩]) := by
      have hsplit : dataClocks false (lowBits tdi n) ++ [⟨true, bit⟩, ⟨true, bit⟩] =
          dataClocks false (lowBits tdi (8 * (n / 8))) ++
            (dataClocks false (lowBits (tdi >>> (8 * (n / 8))) (n % 8)) ++
              [⟨true, bit⟩, ⟨true, bit⟩]) := by
        rw [← hbits, dataClocks, List.map_append, List.append_assoc]
        rfl
      rw [hsplit]
      refine clocks_byteCommands tdi hl' (by omega) fun l₁ hl₁ =>
        clocks_bitCommands _ hl₁ (by omega) fun l₂ _ => ?_
      have hclocks := clocks_lastCommands (l := l₂) (tdi >>> (8 * (n / 8)) >>> (n % 8))
      rwa [hlast, ← hbit] at hclocks
    have hstep : mpsseStep l (packetCommands (n + 1) tdi) =
        some ([⟨true, false⟩, ⟨false, false⟩, ⟨false, false⟩],
          byteCommands (n / 8) tdi false ++ (bitCommands (n % 8) (tdi >>> (8 * (n / 8))) false ++
            lastCommands (tdi >>> (8 * (n / 8)) >>> (n % 8)) false)) := rfl
    exact clocks_of_step hstep (Nat.le_add_right _ 2) (hdata _ rfl)

/-- The bytes that are given to the library in a run. -/
def given (tr : List Transfer) : List Byte := tr.flatMap Transfer.given

/-- What is given to the device in two parts of a run. -/
theorem given_append (tr tr' : List Transfer) : given (tr ++ tr') = given tr ++ given tr' :=
  List.flatMap_append

variable {σ α : Type} {pipe : BulkPipe σ} {a a' : Attached MpssePort σ} {tr : List Transfer}

/-- A run that returns adds the bytes to the stream of what is written and what waits for it. -/
def Emits (m : UsbAction MpssePort σ α) (xs : List Byte) : Prop :=
  ∀ a r tr a', m.Returns a r tr a' → given tr ++ a'.own.output = a.own.output ++ xs

theorem emits_pure (r : α) : Emits (pure r : UsbAction MpssePort σ α) [] := by
  intro a r tr a' h
  obtain ⟨-, rfl, rfl⟩ := Program.returns_pure_iff.mp h
  exact (List.append_nil _).symm

theorem emits_stop (e : Fatal) (xs : List Byte) :
    Emits (Program.stop e : UsbAction MpssePort σ α) xs :=
  fun _ _ _ _ h => absurd h Program.not_returns_stop

/-- The bytes of two parts, one after the other. -/
theorem Emits.bind {β : Type} {m : UsbAction MpssePort σ α} {f : α → UsbAction MpssePort σ β}
    {xs ys : List Byte} (hm : Emits m xs) (hf : ∀ r, Emits (f r) ys) : Emits (m >>= f) (xs ++ ys) := by
  intro a r tr a' h
  obtain ⟨r₁, tr₁, a₁, tr₂, h₁, h₂, rfl⟩ := Program.returns_bind_iff.mp h
  have hfirst := hm _ _ _ _ h₁
  have hsecond := hf r₁ _ _ _ _ h₂
  rw [given_append, List.append_assoc, hsecond, ← List.append_assoc, hfirst, List.append_assoc]

/-- What does not emit leaves the stream to what follows. -/
theorem Emits.bind_nil {β : Type} {m : UsbAction MpssePort σ α} {f : α → UsbAction MpssePort σ β}
    {ys : List Byte} (hm : Emits m []) (hf : ∀ r, Emits (f r) ys) : Emits (m >>= f) ys :=
  hm.bind hf

/-- Either of two parts. -/
theorem emits_ite {c : Prop} [Decidable c] {m m' : UsbAction MpssePort σ α} {xs : List Byte}
    (hm : Emits m xs) (hm' : Emits m' xs) : Emits (if c then m else m') xs := by
  split
  · exact hm
  · exact hm'

theorem emits_getOwn : Emits (getOwn : UsbAction MpssePort σ MpssePort) [] := by
  intro a r tr a' h
  obtain ⟨-, rfl, rfl⟩ := (getOwn_returns (a := a)).unique h
  exact (List.append_nil _).symm

/-- Bytes are put behind those in the buffer. -/
theorem emits_setOwn {f : MpssePort → MpssePort} {xs : List Byte}
    (hf : ∀ own, (f own).output = own.output ++ xs) : Emits (setOwn f : UsbAction MpssePort σ Unit) xs := by
  intro a r tr a' h
  obtain ⟨rfl, rfl⟩ := Program.returns_update_iff.mp h
  exact hf a.own

theorem emits_mpssePut (bytes : List Byte) : Emits (mpssePut bytes : UsbAction MpssePort σ Unit) bytes :=
  emits_getOwn.bind_nil fun _ => emits_ite (emits_stop _ _) (emits_setOwn fun _ => rfl)

/-- The waiting for a reply puts nothing. -/
theorem emits_mpsseReply (fuel bytesRead : Nat) : Emits (mpsseReply pipe fuel bytesRead) [] := by
  induction fuel generalizing bytesRead with
  | zero => exact emits_getOwn.bind_nil fun _ => emits_ite (emits_stop _ _) (emits_pure _)
  | succ fuel ih =>
    have hread (size : Nat) : Emits (usbBulkRead pipe size : UsbAction MpssePort σ _) [] := by
      intro a r tr a' h
      obtain ⟨rfl, hown, -⟩ := usbBulkRead_returns h
      rw [hown]
      exact (List.append_nil _).symm
    refine emits_getOwn.bind_nil fun own => emits_ite ((hread _).bind_nil fun reply => ?_) (emits_pure _)
    cases reply with
    | none => exact emits_stop _ _
    | some reply =>
      refine emits_ite (emits_stop _ _) (emits_ite (emits_ite (emits_stop _ _)
        (Emits.bind_nil ?_ fun _ => ih _)) (ih _))
      exact emits_setOwn fun _ => (List.append_nil _).symm

/-- What waited is given to the library. -/
theorem emits_mpsseFlushOutput (fuel : Nat) : Emits (mpsseFlushOutput pipe fuel) [] := by
  intro a r tr a' h
  rw [mpsseFlushOutput, Program.Returns, getOwn_bind] at h
  split at h
  · exact emits_pure _ _ _ _ _ h
  · obtain ⟨_, tr₁, a₁, tr₂, h₁, h₂, rfl⟩ := Program.returns_bind_iff.mp h
    obtain ⟨written, tr₃, a₃, tr₄, h₃, h₄, rfl⟩ := Program.returns_bind_iff.mp h₁
    obtain ⟨rfl, hown, -⟩ := usbBulkWrite_returns h₃
    obtain ⟨_, tr₅, a₅, tr₆, h₅, h₆, rfl⟩ := Program.returns_bind_iff.mp h₂
    obtain ⟨rfl, rfl⟩ := Program.returns_update_iff.mp h₅
    cases written with
    | none => exact absurd h₄ Program.not_returns_stop
    | some n =>
      obtain ⟨-, rfl, rfl⟩ := Program.returns_pure_iff.mp h₄
      have hrest : Emits (if a.own.bytesToRead = 0 then pure () else do
          mpsseReply pipe fuel 0
          setOwn fun own => { own with bytesToRead := 0 } : UsbAction MpssePort σ Unit) [] :=
        emits_ite (emits_pure _) ((emits_mpsseReply fuel 0).bind_nil fun _ =>
          emits_setOwn fun _ => (List.append_nil _).symm)
      have hlater := hrest _ _ _ _ h₆
      rw [given_append, given_append, List.append_assoc, List.nil_append, hlater]
      simp only [given, List.flatMap_cons, List.flatMap_nil, Transfer.given, List.append_nil]

/-- A packet of data goes behind what was written and what waited. -/
theorem emits_mpsseSend {fuel nbits : Nat} (hpos : 0 < nbits) (tdi : BitVec 64) :
    Emits (mpsseSend pipe fuel 0 0 nbits tdi false) (packetCommands nbits tdi) := by
  have hlast (t : BitVec 64) : Emits (do mpssePut (lastCommands t false); pure () :
      UsbAction MpssePort σ Unit) (lastCommands t false) := by
    have hput := (emits_mpssePut (σ := σ) (lastCommands t false)).bind fun _ => emits_pure ()
    rwa [List.append_nil] at hput
  have hmask : Emits (setOwn fun own => { own with
      highByteMask := 0xff#64 <<< ((own.bytesPerWord - 1) * 8) } : UsbAction MpssePort σ Unit) [] :=
    emits_setOwn fun _ => (List.append_nil _).symm
  have hdata : Emits (mpsseData nbits tdi false : UsbAction MpssePort σ Unit)
      (byteCommands ((nbits - 1) / 8) tdi false ++
        (bitCommands ((nbits - 1) % 8) (tdi >>> (8 * ((nbits - 1) / 8))) false ++
          lastCommands (tdi >>> (8 * ((nbits - 1) / 8)) >>> ((nbits - 1) % 8)) false)) :=
    (emits_mpssePut _).bind fun _ => (emits_mpssePut _).bind fun _ =>
      emits_ite (hmask.bind_nil fun _ => hlast _) (hlast _)
  have hrest : Emits (if nbits > 0 then do
        mpssePut (prologCommands (0 + 3) (0 ||| (1#32 <<< 0)))
        mpsseData nbits tdi false
      else mpssePut (prologCommands 0 0) : UsbAction MpssePort σ Unit) (packetCommands nbits tdi) := by
    rw [if_pos hpos]
    exact (emits_mpssePut _).bind fun _ => hdata
  exact emits_getOwn.bind_nil fun _ =>
    emits_ite ((emits_mpsseFlushOutput fuel).bind_nil fun _ => hrest) hrest

/-- Where there is room for so many bytes, the program returns with so many more. -/
def Fills (m : UsbAction MpssePort σ Unit) (n : Nat) : Prop :=
  ∀ a : Attached MpssePort σ, a.own.output.length + n ≤ mpsseSize →
    ∃ a', m.Reaches a () a' ∧ a'.own.output.length = a.own.output.length + n

/-- A change of anything else leaves the length of the buffer. -/
theorem fills_setOwn {f : MpssePort → MpssePort} (hf : ∀ own, (f own).output = own.output) :
    Fills (setOwn f : UsbAction MpssePort σ Unit) 0 :=
  fun a _ => ⟨_, (setOwn_returns f).reaches, congrArg List.length (hf a.own)⟩

/-- The buffer gets longer by the bytes of the command. -/
theorem fills_mpssePut (bytes : List Byte) :
    Fills (mpssePut bytes : UsbAction MpssePort σ Unit) bytes.length := by
  intro a ha
  refine ⟨{ a with own := { a.own with output := a.own.output ++ bytes } },
    getOwn_returns.reaches.bind ?_, List.length_append⟩
  rw [if_neg (by omega)]
  exact (setOwn_returns _).reaches

/-- The lengths of two parts are added. -/
theorem Fills.bind {m : UsbAction MpssePort σ Unit} {f : Unit → UsbAction MpssePort σ Unit}
    {n k : Nat} (hm : Fills m n) (hf : Fills (f ()) k) : Fills (m >>= f) (n + k) := by
  intro a ha
  obtain ⟨a₁, h₁, hlen₁⟩ := hm a (by omega)
  obtain ⟨a₂, h₂, hlen₂⟩ := hf a₁ (by omega)
  exact ⟨a₂, h₁.bind h₂, by omega⟩

/-- Either of two parts of one length. -/
theorem fills_ite {c : Prop} [Decidable c] {m m' : UsbAction MpssePort σ Unit} {n : Nat}
    (hm : Fills m n) (hm' : Fills m' n) : Fills (if c then m else m') n := by
  split
  · exact hm
  · exact hm'

/-- The buffers have their sizes. -/
def MpssePort.Fits (own : MpssePort) : Prop :=
  own.output.length ≤ mpsseSize ∧ own.bytesToRead + 2 ≤ mpsseInputSize

/-- A device that answers at once is waited for once. -/
theorem BulkPipe.Prompt.mpsseReply (hp : pipe.Prompt) (a : Attached MpssePort σ) {fuel : Nat}
    (hfuel : 0 < fuel) (hpos : 0 < a.own.bytesToRead) (hfits : a.own.bytesToRead + 2 ≤ mpsseInputSize) :
    ∃ a', (mpsseReply pipe fuel 0).Reaches a () a' ∧ a'.own.output = a.own.output := by
  obtain ⟨fuel, rfl⟩ := Nat.exists_eq_succ_of_ne_zero hfuel.ne'
  obtain ⟨reply, hreply, hlen⟩ := hp.2 (a.own.bytesToRead + 2) a.usb
  obtain ⟨a₁, ha₁⟩ : ∃ a₁ : Attached MpssePort σ, a₁ = ⟨a.own, (pipe.read (a.own.bytesToRead + 2) a.usb).2⟩ :=
    ⟨_, rfl⟩
  have hread : (usbBulkRead pipe (a.own.bytesToRead + 2)).Reaches a (some reply) a₁ :=
    Program.reaches_request (by rw [hreply, ha₁])
  obtain ⟨a₂, ha₂⟩ : ∃ a₂ : Attached MpssePort σ,
      a₂ = ⟨{ a₁.own with input := Cells.store a₁.own.input 0 (reply.drop 2) }, a₁.usb⟩ := ⟨_, rfl⟩
  have hstore := setOwn_returns (a := a₁) fun own : MpssePort =>
    { own with input := Cells.store own.input 0 (reply.drop 2) }
  rw [← ha₂] at hstore
  have hcount : a₂.own.bytesToRead = a.own.bytesToRead := by rw [ha₂, ha₁]
  have hdone : (Mcprog.mpsseReply pipe fuel (0 + (reply.length - 2))).Reaches a₂ () a₂ := by
    have hnot : ¬ 0 + (reply.length - 2) < a₂.own.bytesToRead := by omega
    cases fuel with
    | zero =>
      refine getOwn_returns.reaches.bind ?_
      rw [if_neg hnot]
      exact Program.reaches_pure _ _
    | succ fuel =>
      refine getOwn_returns.reaches.bind ?_
      rw [if_neg hnot]
      exact Program.reaches_pure _ _
  refine ⟨a₂, getOwn_returns.reaches.bind ?_, by rw [ha₂, ha₁]⟩
  rw [if_pos hpos]
  refine hread.bind ?_
  dsimp only
  rw [if_neg (by omega), if_pos (by omega), if_neg (by omega)]
  exact hstore.reaches.bind hdone

/-- The buffer is empty after it was written. -/
theorem BulkPipe.Prompt.mpsseFlushOutput (hp : pipe.Prompt) (a : Attached MpssePort σ) {fuel : Nat}
    (hfuel : 0 < fuel) (hfits : a.own.Fits) :
    ∃ a', (mpsseFlushOutput pipe fuel).Reaches a () a' ∧ a'.own.output = [] := by
  by_cases hempty : a.own.output = []
  · refine ⟨a, getOwn_returns.reaches.bind ?_, hempty⟩
    rw [if_pos hempty]
    exact Program.reaches_pure _ _
  · obtain ⟨a₁, ha₁⟩ : ∃ a₁ : Attached MpssePort σ, a₁ = ⟨a.own, (pipe.write a.own.output a.usb).2⟩ :=
      ⟨_, rfl⟩
    have hwrite : (usbBulkWrite pipe a.own.output).Reaches a (some a.own.output.length) a₁ :=
      Program.reaches_request (by rw [hp.1, ha₁])
    have hbulk : (bulkWrite pipe a.own.output).Reaches a () a₁ :=
      hwrite.bind (Program.reaches_pure () a₁)
    obtain ⟨a₂, ha₂⟩ : ∃ a₂ : Attached MpssePort σ, a₂ = ⟨{ a₁.own with output := [] }, a₁.usb⟩ := ⟨_, rfl⟩
    have hclear := setOwn_returns (a := a₁) fun own : MpssePort => { own with output := [] }
    rw [← ha₂] at hclear
    have hcount : a₂.own.bytesToRead = a.own.bytesToRead := by rw [ha₂, ha₁]
    have hnil : a₂.own.output = [] := by rw [ha₂]
    rcases Nat.eq_zero_or_pos a.own.bytesToRead with hzero | hpos
    · refine ⟨a₂, getOwn_returns.reaches.bind ?_, hnil⟩
      rw [if_neg hempty]
      refine hbulk.bind (hclear.reaches.bind ?_)
      rw [if_pos hzero]
      exact Program.reaches_pure _ _
    · obtain ⟨a₃, h₃, hout⟩ := hp.mpsseReply a₂ hfuel (by omega) (by rw [hcount]; exact hfits.2)
      refine ⟨{ a₃ with own := { a₃.own with bytesToRead := 0 } }, getOwn_returns.reaches.bind ?_,
        hout.trans hnil⟩
      rw [if_neg hempty]
      refine hbulk.bind (hclear.reaches.bind ?_)
      rw [if_neg hpos.ne']
      exact h₃.bind (setOwn_returns _).reaches

/-- A packet has 20 bytes at most. -/
theorem length_packetCommands {nbits : Nat} (hn : nbits ≤ 64) (tdi : BitVec 64) :
    (packetCommands nbits tdi).length ≤ 20 := length_sendCommands hn tdi false

/-- The length of the commands of a scan. -/
theorem fills_mpsseData (nbits : Nat) (tdi : BitVec 64) :
    Fills (do mpssePut (prologCommands 3 1); mpsseData nbits tdi false : UsbAction MpssePort σ Unit)
      (packetCommands nbits tdi).length := by
  have hmask : Fills (setOwn fun own => { own with
      highByteMask := 0xff#64 <<< ((own.bytesPerWord - 1) * 8) } : UsbAction MpssePort σ Unit) 0 :=
    fills_setOwn fun _ => rfl
  have hlast (t : BitVec 64) : Fills (do mpssePut (lastCommands t false); pure () :
      UsbAction MpssePort σ Unit) (lastCommands t false).length := by
    rw [bind_pure]
    exact fills_mpssePut _
  rw [packetCommands, List.length_append, List.length_append, List.length_append]
  have hmasked (t : BitVec 64) := hmask.bind (f := fun _ => do mpssePut (lastCommands t false); pure ())
    (hlast t)
  simp only [Nat.zero_add] at hmasked
  exact (fills_mpssePut _).bind ((fills_mpssePut _).bind ((fills_mpssePut _).bind
    (fills_ite (hmasked _) (hlast _))))

/-- On a device that keeps up a packet is added. -/
theorem BulkPipe.Prompt.mpsseSend (hp : pipe.Prompt) (a : Attached MpssePort σ) {fuel nbits : Nat}
    (hfuel : 0 < fuel) (hfits : a.own.Fits) (hpos : 0 < nbits) (hn : nbits ≤ 64) (tdi : BitVec 64) :
    ∃ a', (mpsseSend pipe fuel 0 0 nbits tdi false).Reaches a () a' := by
  have hlen := length_packetCommands hn tdi
  have hsize : mpsseSize = 4096 := rfl
  have hrest (a₁ : Attached MpssePort σ) (h₁ : a₁.own.output.length ≤ mpsseSize - 23) :
      ∃ a', (if nbits > 0 then do
        mpssePut (prologCommands (0 + 3) (0 ||| (1#32 <<< 0)))
        mpsseData nbits tdi false
      else mpssePut (prologCommands 0 0) : UsbAction MpssePort σ Unit).Reaches a₁ () a' := by
    obtain ⟨a', h', -⟩ := fills_mpsseData (σ := σ) nbits tdi a₁ (by omega)
    rw [if_pos hpos]
    exact ⟨a', h'⟩
  by_cases hfull : a.own.output.length > mpsseSize - 23
  · obtain ⟨a₁, h₁, hempty⟩ := hp.mpsseFlushOutput a hfuel hfits
    obtain ⟨a₂, h₂⟩ := hrest a₁ (by rw [hempty]; exact Nat.zero_le _)
    refine ⟨a₂, getOwn_returns.reaches.bind ?_⟩
    dsimp only
    rw [if_pos hfull]
    exact h₁.bind h₂
  · obtain ⟨a₂, h₂⟩ := hrest a (Nat.le_of_not_lt hfull)
    refine ⟨a₂, getOwn_returns.reaches.bind ?_⟩
    dsimp only
    rw [if_neg hfull]
    exact h₂

end Mcprog
