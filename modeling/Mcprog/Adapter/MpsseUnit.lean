import Mcprog.Adapter.MpsseMethods

/-!
# The chip of the MPSSE adapter in front of a processor

The chip clocks the port for the commands with data, and moves the other lines for the commands
`mpsse_reset` sends. Once the prolog of a packet has led to one of the registers, the rest of the
packet is a scan of that register, whichever of the two it is.
-/

namespace Mcprog

open Interaction Jtag

variable {τ : Type}

namespace Chip

/-- What a command for the lines does. TCK stays low, and TRST high; of other commands nothing is
known. -/
def moveLines (P : DebugPort τ) (c : Chip τ) : List Byte → Option (Chip τ × List Byte)
  | code :: value :: _ :: rest =>
    if code = 0x80 ∧ value.getLsbD 0 = false then
      some (⟨⟨value.getLsbD 3, value.getLsbD 1⟩, c.chain⟩, rest)
    else if code = 0x82 ∧ value.getLsbD 0 = true then
      let held := if value.getLsbD 1 then P.hardReset c.chain.held else c.chain.held
      some (⟨c.lines, { c.chain with held }⟩, rest)
    else none
  | _ => none

/-- The chip takes a list of commands and sends bytes back. -/
inductive Executes (P : DebugPort τ) : Chip τ → List Byte → Chip τ → List Byte → Prop
  | done (c : Chip τ) : Executes P c [] c []
  | lines {c c₁ c' : Chip τ} {commands rest reply : List Byte} (step : moveLines P c commands = some (c₁, rest))
      (more : Executes P c₁ rest c' reply) : Executes P c commands c' reply
  | clocks {c c' : Chip τ} {code : Byte} {args rest sent reply : List Byte} {clocks : List Clock}
      (step : mpsseStep c.lines (code :: args) = some (clocks, rest))
      (sends : Sends code (P.captured c.chain clocks) sent)
      (more : Executes P ⟨c.lines.after clocks, P.after c.chain clocks⟩ rest c' reply) :
      Executes P c (code :: args) c' (sent ++ reply)
  | unknown (c c' : Chip τ) {code : Byte} {args : List Byte} (reply : List Byte)
      (lines : moveLines P c (code :: args) = none) (step : mpsseStep c.lines (code :: args) = none) :
      Executes P c (code :: args) c' reply

variable {P : DebugPort τ} {c c' : Chip τ} {rest reply : List Byte}

theorem moveLines_nil : moveLines P c [] = none := rfl

/-- A command with clocks is none for the lines. -/
theorem moveLines_of_mpsseStep {l : PortLines} {code : Byte} {args : List Byte} {r : List Clock × List Byte}
    (h : mpsseStep l (code :: args) = some r) : moveLines P c (code :: args) = none := by
  have hcode : code ≠ 0x80 ∧ code ≠ 0x82 := by
    constructor <;> rintro rfl <;> exact absurd h (by simp [mpsseStep])
  rcases args with _ | ⟨value, _ | ⟨_, _⟩⟩
  · rfl
  · rfl
  · rw [moveLines, if_neg fun h => hcode.1 h.1, if_neg fun h => hcode.2 h.1]

theorem Executes.nil (h : c.Executes P [] c' reply) : c' = c ∧ reply = [] := by
  cases h with
  | done => exact ⟨rfl, rfl⟩
  | lines step more => exact absurd step (by rw [moveLines_nil]; exact (Option.some_ne_none _).symm)

/-- The first command, where it has clocks. -/
theorem Executes.step {code : Byte} {args : List Byte} {clocks : List Clock}
    (h : c.Executes P (code :: args) c' reply) (hstep : mpsseStep c.lines (code :: args) = some (clocks, rest)) :
    ∃ sent more, reply = sent ++ more ∧ Sends code (P.captured c.chain clocks) sent ∧
      Executes P ⟨c.lines.after clocks, P.after c.chain clocks⟩ rest c' more := by
  cases h with
  | lines step more =>
    exact absurd (step.symm.trans (moveLines_of_mpsseStep hstep)) (Option.some_ne_none _)
  | clocks step sends more =>
    obtain ⟨rfl, rfl⟩ := Prod.mk.inj (Option.some.inj (step.symm.trans hstep))
    exact ⟨_, _, rfl, sends, more⟩
  | unknown _ _ _ lines step => exact absurd (hstep.symm.trans step) (Option.some_ne_none _)

/-- The first command, where it is for the lines. -/
theorem Executes.step_lines {commands : List Byte} {c₁ : Chip τ} (h : c.Executes P commands c' reply)
    (hstep : moveLines P c commands = some (c₁, rest)) : c₁.Executes P rest c' reply := by
  cases h with
  | done => exact absurd (hstep.symm.trans moveLines_nil) (Option.some_ne_none _)
  | lines step more =>
    obtain ⟨rfl, rfl⟩ := Prod.mk.inj (Option.some.inj (step.symm.trans hstep))
    exact more
  | clocks step sends more =>
    exact absurd (hstep.symm.trans (moveLines_of_mpsseStep step)) (Option.some_ne_none _)
  | unknown _ _ _ lines step => exact absurd (hstep.symm.trans lines) (Option.some_ne_none _)

variable {side : Side} {l : PortLines} {d : Chain τ} {commands : List Byte}

/-- While a register is scanned the chip in front of the processor does with the commands what the
chip in front of that register alone may do. -/
def Mirrors (P : DebugPort τ) (side : Side) (l : PortLines) (d : Chain τ) (commands : List Byte)
    (Q : PortLines → Chain τ → Prop) : Prop :=
  ∀ rest c' reply, Executes P ⟨l, side.chain d⟩ (commands ++ rest) c' reply →
    ∃ l₁ d₁ sent more, reply = sent ++ more ∧ Q l₁ d₁ ∧
      (∀ xs c₁ ys, Runs (P.register side) ⟨l₁, d₁⟩ xs c₁ ys →
        Runs (P.register side) ⟨l, d⟩ (commands ++ xs) c₁ (sent ++ ys)) ∧
      Executes P ⟨l₁, side.chain d₁⟩ rest c' more

variable {Q Q' : PortLines → Chain τ → Prop}

theorem mirrors_nil (h : Q l d) : Mirrors P side l d [] Q :=
  fun _ _ reply hrun => ⟨l, d, [], reply, rfl, h, fun _ _ _ hr => hr, hrun⟩

theorem Mirrors.append {more : List Byte} (h : Mirrors P side l d commands Q)
    (hmore : ∀ l₁ d₁, Q l₁ d₁ → Mirrors P side l₁ d₁ more Q') : Mirrors P side l d (commands ++ more) Q' := by
  intro rest c' reply hrun
  rw [List.append_assoc] at hrun
  obtain ⟨l₁, d₁, sent₁, reply₁, rfl, hQ, hruns₁, hrun₁⟩ := h _ _ _ hrun
  obtain ⟨l₂, d₂, sent₂, reply₂, rfl, hQ', hruns₂, hrun₂⟩ := hmore l₁ d₁ hQ _ _ _ hrun₁
  refine ⟨l₂, d₂, sent₁ ++ sent₂, reply₂, (List.append_assoc _ _ _).symm, hQ', fun xs c₁ ys hr => ?_, hrun₂⟩
  rw [List.append_assoc, List.append_assoc]
  exact hruns₁ _ _ _ (hruns₂ _ _ _ hr)

/-- One command, where the processor does with its clocks what the register does. -/
theorem mirrors_command {code : Byte} {args : List Byte} {clocks : List Clock}
    (hstep : ∀ rest, mpsseStep l (code :: args ++ rest) = some (clocks, rest))
    (hclocks : P.after (side.chain d) clocks = side.chain ((P.register side).after d clocks) ∧
      P.captured (side.chain d) clocks = (P.register side).captured d clocks)
    (hQ : Q (l.after clocks) ((P.register side).after d clocks)) : Mirrors P side l d (code :: args) Q := by
  intro rest c' reply hrun
  obtain ⟨sent, more, rfl, hsends, hmore⟩ := Executes.step hrun (hstep rest)
  rw [hclocks.1] at hmore
  rw [hclocks.2] at hsends
  exact ⟨_, _, sent, more, rfl, hQ, fun xs c₁ ys hr => .command (hstep xs) hsends hr, hmore⟩

/-- The levels and the state between the commands of the data. -/
def Shifting (l : PortLines) (d : Chain τ) : Prop := l.mode = false ∧ d.tap = .shiftDr

/-- A command with data at the TDI pin. -/
theorem mirrors_low {code : Byte} {args : List Byte} {bits : List Bool} (h : Shifting l d)
    (hstep : ∀ rest, mpsseStep l (code :: args ++ rest) = some (dataClocks l.mode bits, rest)) :
    Mirrors P side l d (code :: args) Shifting := by
  obtain ⟨hmode, htap⟩ := h
  refine mirrors_command hstep ?_ ⟨?_, ?_⟩
  · rw [hmode]
    exact TapUnit.after_low htap (low_dataClocks bits)
  · rw [after_dataClocks, hmode]
  · rw [hmode, DataRegister.after_shiftDr htap (low_dataClocks bits)]
    exact htap

/-- The data of a packet. -/
theorem mirrors_dataCommands (h : Shifting l d) {nbits : Nat} (hn : nbits ≤ 64) (tdi : BitVec 64)
    (readFlag : Bool) : Mirrors P side l d (dataCommands nbits tdi readFlag) fun _ d₁ => d₁.tap = .updateDr := by
  refine Mirrors.append (Q := Shifting) ?_ fun l₁ d₁ h₁ => Mirrors.append (Q := Shifting) ?_ fun l₂ d₂ h₂ => ?_
  · rcases Nat.eq_zero_or_pos ((nbits - 1) / 8) with hzero | hpos
    · rw [hzero]
      exact mirrors_nil h
    · have hstep := mpsseStep_bytes tdi l hpos (by omega) readFlag
      rw [byteCommands, if_neg hpos.ne'] at hstep ⊢
      exact mirrors_low h hstep
  · rcases Nat.eq_zero_or_pos ((nbits - 1) % 8) with hzero | hpos
    · rw [hzero]
      exact mirrors_nil h₁
    · have hstep := mpsseStep_bits (tdi >>> (8 * ((nbits - 1) / 8))) l₁ hpos (by omega) readFlag
      rw [bitCommands, if_neg hpos.ne'] at hstep ⊢
      exact mirrors_low h₁ hstep
  · refine mirrors_command (mpsseStep_last _ l₂ readFlag) (TapUnit.after_exit h₂.2 rfl rfl) ?_
    rw [DataRegister.after_exit h₂.2 rfl rfl]

/-- The commands lead to the shift state of a side, with the processor changed in this way. -/
def Leads (P : DebugPort τ) (side : Side) (commands : List Byte) (f : τ → τ) : Prop :=
  ∀ c : Chip τ, c.chain.tap.Rests → ∀ rest c' reply, c.Executes P (commands ++ rest) c' reply →
    Executes P ⟨⟨false, false⟩, side.chain ⟨.shiftDr, [], f c.chain.held⟩⟩ rest c' reply

/-- The standard prolog. -/
theorem leads_data : Leads P .data (prologCommands 3 1) id := by
  intro c hrests rest c' reply h
  obtain ⟨sent, more, rfl, hsends, hmore⟩ := h.step (mpsseStep_prolog c.lines rest)
  obtain rfl : sent = [] := hsends
  have hlead := TapUnit.after_lead (U := P.toTapUnit) hrests .data false
  rwa [show P.after c.chain [⟨true, false⟩, ⟨false, false⟩, ⟨false, false⟩] = _ from hlead] at hmore

/-- The prolog with one more clock at first. -/
theorem leads_instruction : Leads P .instruction (prologCommands 4 3) id := by
  intro c hrests rest c' reply h
  have hstep : mpsseStep c.lines (prologCommands 4 3 ++ rest) =
      some (modeClocks false Side.instruction.lead, rest) := rfl
  obtain ⟨sent, more, rfl, hsends, hmore⟩ := h.step hstep
  obtain rfl : sent = [] := hsends
  rwa [TapUnit.after_lead hrests] at hmore

/-- The prolog with a reset of the controller at first, in two commands. -/
theorem leads_reset : Leads P .data (prologCommands 9 95) P.reset := by
  intro c hrests rest c' reply h
  have hstep : mpsseStep c.lines (prologCommands 9 95 ++ rest) =
      some (modeClocks false [true, true, true, true, true, false, true],
        [mpsseTms false, 1, 0] ++ rest) := rfl
  obtain ⟨sent, more, rfl, hsends, hmore⟩ := h.step hstep
  obtain rfl : sent = [] := hsends
  obtain ⟨l₁, hl₁⟩ : ∃ l₁, l₁ = c.lines.after (modeClocks false [true, true, true, true, true, false, true]) :=
    ⟨_, rfl⟩
  rw [← hl₁] at hmore
  have hstep₂ : mpsseStep l₁ ([mpsseTms false, 1, 0] ++ rest) = some (modeClocks false [false, false], rest) := rfl
  obtain ⟨sent₂, more₂, rfl, hsends₂, hmore₂⟩ := hmore.step hstep₂
  obtain rfl : sent₂ = [] := hsends₂
  obtain ⟨shifted, hreset⟩ := TapUnit.after_reset (U := P.toTapUnit) hrests false
  have hrests' : (⟨.runTestIdle, shifted, P.reset c.chain.held⟩ : Chain τ).tap.Rests := .inl rfl
  have hlead := TapUnit.after_lead (U := P.toTapUnit) hrests' .data false
  -- the clocks of the two commands are those of a reset and of the standard prolog
  have hclocks : P.after (P.after c.chain (modeClocks false [true, true, true, true, true, false, true]))
      (modeClocks false [false, false]) = P.after (P.after c.chain
        (modeClocks false [true, true, true, true, true, false])) (modeClocks false Side.data.lead) := rfl
  rw [hclocks, hreset, hlead] at hmore₂
  exact hmore₂

/-- A packet is a scan of the register to which its prolog leads. With a read the bits that come out
come back. -/
theorem Executes.packet {f : τ → τ} {nbits : Nat} {readFlag : Bool} {lead : List Byte}
    (hlead : Leads P side lead f) (hpos : 0 < nbits) (hn : nbits ≤ 64) (tdi : BitVec 64)
    (hrests : c.chain.tap.Rests) (h : c.Executes P (lead ++ dataCommands nbits tdi readFlag ++ rest) c' reply) :
    ∃ (c₁ : Chip τ) (sent more : List Byte), reply = sent ++ more ∧ c₁.chain.tap.Rests ∧
      c₁.chain.held = (P.register side).update (f c.chain.held) (lowBits tdi nbits) ∧
      sent.length = (if readFlag then replyBytes nbits + 1 else 0) ∧
      (readFlag = true → CarriesBits (fun i => (P.register side).out (f c.chain.held) (lowBits tdi i)) nbits
        (sent.getD · 0)) ∧ c₁.Executes P rest c' more := by
  rw [List.append_assoc] at h
  have hdata := hlead c hrests _ _ _ h
  obtain ⟨l₁, d₁, sent, more, rfl, htap, hruns, hmore⟩ :=
    (mirrors_dataCommands ⟨rfl, rfl⟩ hn tdi readFlag :
      Mirrors P side ⟨false, false⟩ ⟨.shiftDr, [], f c.chain.held⟩ _ _) _ _ _ hdata
  have hdone := hruns [] _ _ (.done _)
  rw [List.append_nil, List.append_nil] at hdone
  -- in front of the register alone the standard prolog leads to the same place
  have hpacket : Runs (P.register side) ⟨⟨false, false⟩, ⟨.runTestIdle, [], f c.chain.held⟩⟩
      (sendCommands nbits tdi readFlag ++ []) ⟨l₁, d₁⟩ ([] ++ sent) := by
    rw [List.append_nil]
    refine .command (mpsseStep_prolog _ _) rfl ?_
    rwa [DataRegister.after_select (.inl rfl) rfl rfl rfl]
  obtain ⟨c₂, sent₂, more₂, hsent, htap₂, hheld, hlen, hbits, hrest⟩ :=
    hpacket.packet tdi hpos hn (.inl rfl)
  obtain ⟨rfl, rfl⟩ : c₂ = ⟨l₁, d₁⟩ ∧ more₂ = [] := by
    cases hrest with
    | done => exact ⟨rfl, rfl⟩
  rw [List.nil_append, List.append_nil] at hsent
  subst hsent
  refine ⟨⟨l₁, side.chain d₁⟩, sent, more, rfl, ?_, hheld, hlen, hbits, hmore⟩
  change (side.state d₁.tap).Rests
  rw [htap]
  exact side.rests_update

/-- A chip that stops at the first command it does not know. -/
def execute (P : DebugPort τ) : Nat → Chip τ → List Byte → Chip τ × List Byte
  | _, c, [] => (c, [])
  | 0, c, _ :: _ => (c, [])
  | count + 1, c, code :: args =>
    match moveLines P c (code :: args) with
    | some (c₁, rest) => execute P count c₁ rest
    | none =>
      match mpsseStep c.lines (code :: args) with
      | none => (c, [])
      | some (clocks, rest) =>
        ((execute P count ⟨c.lines.after clocks, P.after c.chain clocks⟩ rest).1,
          sendBack code (P.captured c.chain clocks) ++
            (execute P count ⟨c.lines.after clocks, P.after c.chain clocks⟩ rest).2)

/-- A command for the lines takes three bytes. -/
theorem moveLines_some {c₁ : Chip τ} {code : Byte} {args : List Byte}
    (h : moveLines P c (code :: args) = some (c₁, rest)) : rest.length ≤ args.length := by
  rcases args with _ | ⟨value, _ | ⟨direction, args⟩⟩
  · exact absurd h (Option.some_ne_none _).symm
  · exact absurd h (Option.some_ne_none _).symm
  · have hrest : args = rest := by
      rw [moveLines] at h
      split at h
      · exact (Prod.mk.inj (Option.some.inj h)).2
      · split at h
        · exact (Prod.mk.inj (Option.some.inj h)).2
        · exact absurd h (Option.some_ne_none _).symm
    rw [hrest, List.length_cons, List.length_cons]
    omega

/-- What it does is one of the things a chip may do. -/
theorem executes_execute (P : DebugPort τ) {count : Nat} {bytes : List Byte} (c : Chip τ)
    (h : bytes.length ≤ count) : Executes P c bytes (execute P count c bytes).1 (execute P count c bytes).2 := by
  induction count generalizing bytes c with
  | zero =>
    obtain rfl := List.length_eq_zero_iff.mp (Nat.le_zero.mp h)
    exact .done c
  | succ count ih =>
    cases bytes with
    | nil => exact .done c
    | cons code args =>
      rw [List.length_cons] at h
      rw [execute]
      split
      · rename_i c₁ rest hstep
        have hlen := moveLines_some hstep
        exact .lines hstep (ih c₁ (by omega))
      · rename_i hlines
        split
        · rename_i hstep
          exact .unknown c c [] hlines hstep
        · rename_i clocks rest hstep
          obtain ⟨hlen, hdvd⟩ := mpsseStep_some hstep
          refine .clocks hstep (sends_sendBack fun hcode => ?_) (ih _ (by omega))
          rw [TapUnit.length_captured]
          exact hdvd hcode

end Chip

end Mcprog
