import Mathlib.Data.List.GetD
import Mcprog.Adapter.MpsseScan
import Mcprog.Library.TapRegister

/-!
# The chip of the MPSSE adapter

The FT2232 clocks its port for each command and sends back the bits that it captures in the
commands with a read. A packet is a scan of the data register behind the port, and what comes
back is the reply that the masks of `mpsse_send` are made for.
-/

namespace Mcprog

open Jtag

/-- The chip, and what is behind its port. -/
structure Chip (τ : Type) where
  lines : PortLines
  chain : Chain τ

/-- The bytes that a command sends back for the bits captured during its clocks. Bits that are
less than a byte come in at the top, above whatever was there. -/
def Sends (code : Byte) (bits : List Bool) (sent : List Byte) : Prop :=
  if code = 0x39 then
    8 * sent.length = bits.length ∧
      ∀ i < bits.length, (sent.getD (i / 8) 0).getLsbD (i % 8) = bits.getD i false
  else if code = 0x3b ∨ code = 0x6b then
    ∃ b, sent = [b] ∧
      (bits.length ≤ 8 → ∀ i < bits.length, b.getLsbD (8 - bits.length + i) = bits.getD i false)
  else sent = []

variable {τ : Type}

/-- The chip takes a list of commands and sends bytes back. Of commands that the adapter does not
use nothing is known. -/
inductive Chip.Runs (R : DataRegister τ) : Chip τ → List Byte → Chip τ → List Byte → Prop
  | done (c : Chip τ) : Runs R c [] c []
  | command {c c' : Chip τ} {code : Byte} {args rest sent reply : List Byte} {clocks : List Clock}
      (step : mpsseStep c.lines (code :: args) = some (clocks, rest))
      (sends : Sends code (R.captured c.chain clocks) sent)
      (more : Runs R ⟨c.lines.after clocks, R.after c.chain clocks⟩ rest c' reply) :
      Runs R c (code :: args) c' (sent ++ reply)
  | unknown (c c' : Chip τ) {code : Byte} {args : List Byte} (reply : List Byte)
      (step : mpsseStep c.lines (code :: args) = none) : Runs R c (code :: args) c' reply

namespace Chip

variable {R : DataRegister τ} {c c' : Chip τ} {args rest reply : List Byte} {code : Byte}
  {clocks : List Clock}

/-- The first command of a list. -/
theorem Runs.step (h : Runs R c (code :: args) c' reply)
    (hstep : mpsseStep c.lines (code :: args) = some (clocks, rest)) :
    ∃ sent more, reply = sent ++ more ∧ Sends code (R.captured c.chain clocks) sent ∧
      Runs R ⟨c.lines.after clocks, R.after c.chain clocks⟩ rest c' more := by
  cases h with
  | command step sends more =>
    obtain ⟨rfl, rfl⟩ := Prod.mk.inj (Option.some.inj (step.symm.trans hstep))
    exact ⟨_, _, rfl, sends, more⟩
  | unknown _ _ _ step => exact absurd (step.symm.trans hstep) (Option.some_ne_none _).symm

section Shift

variable {chain : Chain τ} (tdi : BitVec 64) {n : Nat}

theorem low_dataClocks (bits : List Bool) : ∀ k ∈ dataClocks false bits, k.tms = false := by
  intro k hk
  obtain ⟨_, -, rfl⟩ := List.mem_map.mp hk
  rfl

theorem map_tdi_dataClocks (mode : Bool) (bits : List Bool) : (dataClocks mode bits).map Clock.tdi = bits := by
  rw [dataClocks, List.map_map]
  exact List.map_id bits

/-- The data are shifted in. -/
theorem after_dataClocks_shiftDr (h : chain.tap = .shiftDr) :
    R.after chain (dataClocks false (lowBits tdi n)) =
      { chain with shifted := chain.shifted ++ lowBits tdi n } := by
  rw [DataRegister.after_shiftDr h (low_dataClocks _), map_tdi_dataClocks]

/-- Each bit that comes out is captured. -/
theorem captured_dataClocks (h : chain.tap = .shiftDr) {i : Nat} (hi : i < n) :
    (R.captured chain (dataClocks false (lowBits tdi n))).getD i false =
      R.out chain.held (chain.shifted ++ lowBits tdi i) := by
  have hlen : i < (dataClocks false (lowBits tdi n)).length := by
    rwa [dataClocks, List.length_map, length_lowBits]
  rw [DataRegister.getD_captured_shiftDr h (low_dataClocks _) hlen, List.map_take, map_tdi_dataClocks,
    take_lowBits tdi hi.le]

theorem length_captured_dataClocks :
    (R.captured chain (dataClocks false (lowBits tdi n))).length = n := by
  rw [DataRegister.length_captured, dataClocks, List.length_map, length_lowBits]

end Shift

variable (tdi : BitVec 64)

/-- The whole bytes of a packet. -/
theorem Runs.bytes {nbytes : Nat} {readFlag : Bool} (htap : c.chain.tap = .shiftDr)
    (hmode : c.lines.mode = false) (hn : nbytes ≤ 256)
    (h : Runs R c (byteCommands nbytes tdi readFlag ++ rest) c' reply) :
    ∃ c₁ sent more, reply = sent ++ more ∧ c₁.lines.mode = false ∧
      c₁.chain = { c.chain with shifted := c.chain.shifted ++ lowBits tdi (8 * nbytes) } ∧
      sent.length = (if readFlag then nbytes else 0) ∧
      (readFlag = true → ∀ i < 8 * nbytes, (sent.getD (i / 8) 0).getLsbD (i % 8) =
        R.out c.chain.held (c.chain.shifted ++ lowBits tdi i)) ∧
      Runs R c₁ rest c' more := by
  rcases Nat.eq_zero_or_pos nbytes with rfl | hpos
  · refine ⟨c, [], reply, rfl, hmode, ?_, by cases readFlag <;> rfl, fun _ i hi => ?_, h⟩
    · rw [Nat.mul_zero, show lowBits tdi 0 = [] from rfl, List.append_nil]
    · exact absurd hi (Nat.not_lt_zero i)
  · have hstep := mpsseStep_bytes tdi c.lines hpos hn readFlag rest
    rw [byteCommands, if_neg hpos.ne'] at hstep h
    obtain ⟨sent, more, rfl, hsends, hmore⟩ := h.step hstep
    rw [hmode, after_dataClocks_shiftDr tdi htap] at hmore
    rw [hmode] at hsends
    refine ⟨_, sent, more, rfl, ?_, rfl, ?_, ?_, hmore⟩
    · rw [← hmode]
      exact after_dataClocks c.lines _
    · cases readFlag with
      | false => exact congrArg List.length (show sent = [] from hsends)
      | true =>
        have hlen : 8 * sent.length = 8 * nbytes := hsends.1.trans (length_captured_dataClocks tdi)
        exact Nat.eq_of_mul_eq_mul_left (by decide) hlen
    · rintro rfl i hi
      have hbit := hsends.2 i (by rwa [length_captured_dataClocks])
      rwa [captured_dataClocks tdi htap hi] at hbit

/-- The bits of a packet that are less than a byte. -/
theorem Runs.bits {nbits : Nat} {readFlag : Bool} (htap : c.chain.tap = .shiftDr)
    (hmode : c.lines.mode = false) (hn : nbits ≤ 8)
    (h : Runs R c (bitCommands nbits tdi readFlag ++ rest) c' reply) :
    ∃ c₁ sent more, reply = sent ++ more ∧
      c₁.chain = { c.chain with shifted := c.chain.shifted ++ lowBits tdi nbits } ∧
      sent.length = (if readFlag = true ∧ 0 < nbits then 1 else 0) ∧
      (readFlag = true → ∀ i < nbits, (sent.getD 0 0).getLsbD (8 - nbits + i) =
        R.out c.chain.held (c.chain.shifted ++ lowBits tdi i)) ∧
      Runs R c₁ rest c' more := by
  rcases Nat.eq_zero_or_pos nbits with rfl | hpos
  · refine ⟨c, [], reply, rfl, ?_, ?_, fun _ i hi => ?_, h⟩
    · rw [show lowBits tdi 0 = [] from rfl, List.append_nil]
    · rw [if_neg fun hand => absurd hand.2 (Nat.lt_irrefl 0)]
      rfl
    · exact absurd hi (Nat.not_lt_zero i)
  · have hstep := mpsseStep_bits tdi c.lines hpos hn readFlag rest
    rw [bitCommands, if_neg hpos.ne'] at hstep h
    obtain ⟨sent, more, rfl, hsends, hmore⟩ := h.step hstep
    rw [hmode, after_dataClocks_shiftDr tdi htap] at hmore
    rw [hmode] at hsends
    refine ⟨_, sent, more, rfl, rfl, ?_, ?_, hmore⟩
    · cases readFlag with
      | false => exact congrArg List.length (show sent = [] from hsends)
      | true =>
        obtain ⟨b, rfl, -⟩ := hsends
        rw [if_pos ⟨rfl, hpos⟩]
        rfl
    · rintro rfl i hi
      obtain ⟨b, rfl, hbits⟩ := hsends
      have hbit := hbits (by rwa [length_captured_dataClocks]) i (by rwa [length_captured_dataClocks])
      rwa [length_captured_dataClocks, captured_dataClocks tdi htap hi] at hbit

/-- The last bit of a packet. -/
theorem Runs.last {readFlag : Bool} (htap : c.chain.tap = .shiftDr)
    (h : Runs R c (lastCommands tdi readFlag ++ rest) c' reply) :
    ∃ c₁ sent more, reply = sent ++ more ∧
      c₁.chain = ⟨.updateDr, c.chain.shifted ++ [tdi.getLsbD 0],
        R.update c.chain.held (c.chain.shifted ++ [tdi.getLsbD 0])⟩ ∧
      sent.length = (if readFlag then 1 else 0) ∧
      (readFlag = true → (sent.getD 0 0).getLsbD 6 = R.out c.chain.held c.chain.shifted) ∧
      Runs R c₁ rest c' more := by
  obtain ⟨sent, more, rfl, hsends, hmore⟩ := h.step (mpsseStep_last tdi c.lines readFlag rest)
  rw [DataRegister.after_exit htap rfl rfl] at hmore
  refine ⟨_, sent, more, rfl, rfl, ?_, ?_, hmore⟩
  · cases readFlag with
    | false => exact congrArg List.length (show sent = [] from hsends)
    | true =>
      obtain ⟨b, rfl, -⟩ := hsends
      rfl
  · rintro rfl
    obtain ⟨b, rfl, hbits⟩ := hsends
    have hlen : (R.captured c.chain [⟨true, tdi.getLsbD 0⟩, ⟨true, tdi.getLsbD 0⟩]).length = 2 :=
      R.length_captured _ _
    exact hbits (by rw [hlen]; decide) 0 (by rw [hlen]; decide)

/-- The bits of a number in two parts, as they are shifted behind each other. -/
theorem lowBits_shifted (m n : Nat) : [] ++ lowBits tdi m ++ lowBits (tdi >>> m) n = lowBits tdi (m + n) := by
  rw [List.nil_append, lowBits_add]

/-- The three parts of a reply hold the bits where the masks look for them. -/
theorem carriesBits_append {t : Nat → Bool} {nbits : Nat} {whole part last : List Byte}
    (hwhole : whole.length = (nbits - 1) / 8)
    (hpart : part.length = if 0 < (nbits - 1) % 8 then 1 else 0)
    (hbits : ∀ i < 8 * ((nbits - 1) / 8), (whole.getD (i / 8) 0).getLsbD (i % 8) = t i)
    (hpartBits : ∀ i < (nbits - 1) % 8,
      (part.getD 0 0).getLsbD (8 - (nbits - 1) % 8 + i) = t (8 * ((nbits - 1) / 8) + i))
    (hlast : (last.getD 0 0).getLsbD 6 = t (nbits - 1)) :
    CarriesBits t nbits fun i => (whole ++ (part ++ last)).getD i 0 where
  whole i hi := by
    rw [List.getD_append _ _ _ _ (by rw [hwhole]; omega)]
    exact hbits i hi
  part i hi := by
    rw [if_pos (Nat.zero_lt_of_lt hi)] at hpart
    rw [List.getD_append_right _ _ _ _ hwhole.le, hwhole, Nat.sub_self,
      List.getD_append _ _ _ _ (by rw [hpart]; exact Nat.one_pos)]
    exact hpartBits i hi
  last := by
    have hbytes : replyBytes nbits = whole.length + part.length := by
      rw [hwhole, hpart, replyBytes]
      split <;> rfl
    rw [hbytes, List.getD_append_right _ _ _ _ (Nat.le_add_right _ _), Nat.add_sub_cancel_left,
      List.getD_append_right _ _ _ _ (le_refl _), Nat.sub_self]
    exact hlast

/-- A packet lets its bits take effect, and with a read the bits that come out come back. -/
theorem Runs.packet {nbits : Nat} {readFlag : Bool} (hpos : 0 < nbits) (hn : nbits ≤ 64)
    (hrests : c.chain.tap.Rests)
    (h : Runs R c (sendCommands nbits tdi readFlag ++ rest) c' reply) :
    ∃ c₁ sent more, reply = sent ++ more ∧ c₁.chain.tap = .updateDr ∧
      c₁.chain.held = R.update c.chain.held (lowBits tdi nbits) ∧
      sent.length = (if readFlag then replyBytes nbits + 1 else 0) ∧
      (readFlag = true → CarriesBits (fun i => R.out c.chain.held (lowBits tdi i)) nbits (sent.getD · 0)) ∧
      Runs R c₁ rest c' more := by
  have hdiv : 8 * ((nbits - 1) / 8) + (nbits - 1) % 8 = nbits - 1 := Nat.div_add_mod _ 8
  rw [sendCommands, List.append_assoc] at h
  obtain ⟨sent₀, reply₁, rfl, hsent₀, h₁⟩ := h.step (mpsseStep_prolog c.lines _)
  obtain rfl : sent₀ = [] := hsent₀
  rw [DataRegister.after_select hrests rfl rfl rfl, dataCommands, List.append_assoc] at h₁
  obtain ⟨c₂, whole, reply₂, rfl, hmode, hchain₂, hlen₂, hbits₂, h₂⟩ := h₁.bytes tdi rfl rfl (by omega)
  rw [List.append_assoc] at h₂
  obtain ⟨c₃, part, reply₃, rfl, hchain₃, hlen₃, hbits₃, h₃⟩ :=
    h₂.bits _ (by rw [hchain₂]) hmode (by omega)
  rw [hchain₂] at hchain₃ hbits₃
  obtain ⟨c₄, last, more, rfl, hchain₄, hlen₄, hbit₄, h₄⟩ := h₃.last _ (by rw [hchain₃])
  rw [hchain₃] at hchain₄ hbit₄
  dsimp only at hchain₄ hbits₂ hbits₃ hbit₄
  rw [lowBits_shifted, hdiv] at hchain₄ hbit₄
  have hall : lowBits tdi (nbits - 1) ++
      [(tdi >>> (8 * ((nbits - 1) / 8)) >>> ((nbits - 1) % 8)).getLsbD 0] = lowBits tdi nbits := by
    obtain ⟨n, rfl⟩ := Nat.exists_eq_succ_of_ne_zero hpos.ne'
    rw [Nat.succ_sub_one] at hdiv ⊢
    rw [BitVec.getLsbD_ushiftRight, BitVec.getLsbD_ushiftRight, Nat.add_zero, hdiv, lowBits_succ]
  refine ⟨c₄, whole ++ (part ++ last), more, ?_, by rw [hchain₄], ?_, ?_, ?_, h₄⟩
  · rw [List.nil_append, List.append_assoc, List.append_assoc]
  · rw [hchain₄, hall]
  · rw [List.length_append, List.length_append, hlen₂, hlen₃, hlen₄, replyBytes]
    cases readFlag with
    | false => rfl
    | true =>
      rw [if_pos rfl, if_pos rfl, if_pos rfl]
      split <;> rename_i hk
      · rw [if_pos hk.2, Nat.add_assoc]
      · rw [if_neg fun hk' => hk ⟨rfl, hk'⟩]
  · rintro rfl
    refine carriesBits_append hlen₂ ?_ (fun i hi => ?_) (fun i hi => ?_) (hbit₄ rfl)
    · rw [hlen₃]
      exact if_congr (and_iff_right rfl) rfl rfl
    · rw [hbits₂ rfl i hi, List.nil_append]
    · rw [hbits₃ rfl i hi, lowBits_shifted]

/-- The bytes that a command sends back, with zeros below the bits. -/
def sendBack (code : Byte) (bits : List Bool) : List Byte :=
  if code = 0x39 then (List.range (bits.length / 8)).map fun i => ofBits 8 (bits.drop (8 * i))
  else if code = 0x3b ∨ code = 0x6b then [ofBits 8 bits <<< (8 - bits.length)]
  else []

/-- A chip that stops at the first command it does not know. -/
def run (R : DataRegister τ) : Nat → Chip τ → List Byte → Chip τ × List Byte
  | _, c, [] => (c, [])
  | 0, c, _ :: _ => (c, [])
  | count + 1, c, code :: args =>
    match mpsseStep c.lines (code :: args) with
    | none => (c, [])
    | some (clocks, rest) =>
      let (c', reply) := run R count ⟨c.lines.after clocks, R.after c.chain clocks⟩ rest
      (c', sendBack code (R.captured c.chain clocks) ++ reply)

/-- What a command of whole bytes sends back. -/
theorem sends_sendBack {bits : List Bool} (h : code = 0x39 → 8 ∣ bits.length) :
    Sends code bits (sendBack code bits) := by
  unfold Sends sendBack
  by_cases hbytes : code = 0x39
  · rw [if_pos hbytes, if_pos hbytes]
    have hdvd := Nat.mul_div_cancel' (h hbytes)
    refine ⟨by rw [List.length_map, List.length_range, hdvd], fun i hi => ?_⟩
    have hget : ((List.range (bits.length / 8)).map fun i => ofBits 8 (bits.drop (8 * i))).getD (i / 8) 0 =
        ofBits 8 (bits.drop (8 * (i / 8))) := by
      rw [List.getD_eq_getElem?_getD, List.getElem?_map, List.getElem?_range (by omega)]
      rfl
    rw [hget, getLsbD_ofBits _ (Nat.mod_lt i (by decide)), List.getD_eq_getElem?_getD, List.getElem?_drop,
      Nat.div_add_mod, List.getD_eq_getElem?_getD]
  · rw [if_neg hbytes, if_neg hbytes]
    by_cases hbits : code = 0x3b ∨ code = 0x6b
    · rw [if_pos hbits, if_pos hbits]
      refine ⟨_, rfl, fun hlen i hi => ?_⟩
      have hup : 8 - bits.length + i < 8 := by omega
      have hlow : ¬ 8 - bits.length + i < 8 - bits.length := by omega
      rw [BitVec.getLsbD_shiftLeft, decide_eq_true hup, decide_eq_false hlow, Nat.add_sub_cancel_left,
        getLsbD_ofBits _ (by omega)]
      rfl
    · rw [if_neg hbits, if_neg hbits]

/-- A command takes at least its code, and a command of whole bytes has eight clocks for each. -/
theorem mpsseStep_some {l : PortLines} (h : mpsseStep l (code :: args) = some (clocks, rest)) :
    rest.length ≤ args.length ∧ (code = 0x39 → 8 ∣ clocks.length) := by
  unfold mpsseStep at h
  dsimp only at h
  split at h
  · rename_i hcode
    split at h
    · obtain ⟨rfl, rfl⟩ := Prod.mk.inj (Option.some.inj h)
      refine ⟨by simp only [List.length_cons]; omega, ?_⟩
      rintro rfl
      exact absurd hcode (by decide)
    · cases h
  · split at h
    · rename_i hcode
      split at h
      · obtain ⟨rfl, rfl⟩ := Prod.mk.inj (Option.some.inj h)
        refine ⟨by simp only [List.length_cons]; omega, ?_⟩
        rintro rfl
        exact absurd hcode (by decide)
      · cases h
    · split at h
      · split at h
        · split at h
          · cases h
          · rename_i hroom
            obtain ⟨rfl, rfl⟩ := Prod.mk.inj (Option.some.inj h)
            refine ⟨by simp only [List.length_cons, List.length_drop]; omega, fun _ => ?_⟩
            have hbytes (bytes : List Byte) : 8 ∣ (bytes.flatMap fun b => lowBits b 8).length := by
              induction bytes with
              | nil => exact Dvd.intro 0 rfl
              | cons b bytes ih =>
                rw [List.flatMap_cons, List.length_append, length_lowBits]
                exact (Nat.dvd_add_right (dvd_refl 8)).mpr ih
            rw [dataClocks, List.length_map]
            exact hbytes _
        · cases h
      · cases h

/-- What it does is one of the things a chip may do. -/
theorem runs_run (R : DataRegister τ) {count : Nat} {bytes : List Byte} (c : Chip τ) (h : bytes.length ≤ count) :
    Runs R c bytes (run R count c bytes).1 (run R count c bytes).2 := by
  induction count generalizing bytes c with
  | zero =>
    obtain rfl := List.length_eq_zero_iff.mp (Nat.le_zero.mp h)
    exact .done c
  | succ count ih =>
    cases bytes with
    | nil => exact .done c
    | cons code args =>
      rw [run]
      split
      · rename_i hstep
        exact .unknown c c [] hstep
      · rename_i clocks rest hstep
        obtain ⟨hlen, hdvd⟩ := mpsseStep_some hstep
        rw [List.length_cons] at h
        refine .command hstep (sends_sendBack fun hcode => ?_) (ih _ (by omega))
        rw [DataRegister.length_captured]
        exact hdvd hcode

end Chip

end Mcprog
