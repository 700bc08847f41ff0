import Mcprog.Adapter.MpsseRefines

/-!
# Memory behind the port

A processor whose registers reach a memory: what is written to one of them stays there, and an
access moves a word between the data register and the memory, as the control register says. The
stores and loads of the block methods are then stores and loads of that memory.
-/

namespace Mcprog

open Interaction Jtag

variable {τ : Type} {P : DebugPort τ}

/-- The flags of the control register under which an access to the memory is a write. -/
def writesMem (oscr : Word) : Prop := oscr &&& (oscrSlctMem ||| oscrRo) = oscrSlctMem

/-- The registers through which the memory is reached, while the instruction register selects them. -/
structure PortMemory (P : DebugPort τ) where
  selected : τ → Prop
  oscr : τ → Word
  omar : τ → Word
  omdr : τ → Word
  mem : τ → Word → Word
  oscr_write : ∀ t val, selected t → selected (P.oncdWrite val (BitVec.ofNat 32 oncdOscr) 32 t) ∧
    oscr (P.oncdWrite val (BitVec.ofNat 32 oncdOscr) 32 t) = val ∧
    mem (P.oncdWrite val (BitVec.ofNat 32 oncdOscr) 32 t) = mem t
  omar_write : ∀ t val, selected t → selected (P.oncdWrite val (BitVec.ofNat 32 oncdOmar) 32 t) ∧
    omar (P.oncdWrite val (BitVec.ofNat 32 oncdOmar) 32 t) = val ∧
    oscr (P.oncdWrite val (BitVec.ofNat 32 oncdOmar) 32 t) = oscr t ∧
    mem (P.oncdWrite val (BitVec.ofNat 32 oncdOmar) 32 t) = mem t
  omdr_write : ∀ t val, selected t → selected (P.oncdWrite val (BitVec.ofNat 32 oncdOmdr) 32 t) ∧
    omdr (P.oncdWrite val (BitVec.ofNat 32 oncdOmdr) 32 t) = val ∧
    omar (P.oncdWrite val (BitVec.ofNat 32 oncdOmdr) 32 t) = omar t ∧
    oscr (P.oncdWrite val (BitVec.ofNat 32 oncdOmdr) 32 t) = oscr t ∧
    mem (P.oncdWrite val (BitVec.ofNat 32 oncdOmdr) 32 t) = mem t
  mem_read : ∀ t, selected t → reads (oscr t) → selected (P.oncdWrite 0 (BitVec.ofNat 32 oncdMem) 0 t) ∧
    omdr (P.oncdWrite 0 (BitVec.ofNat 32 oncdMem) 0 t) = mem t (omar t) ∧
    oscr (P.oncdWrite 0 (BitVec.ofNat 32 oncdMem) 0 t) = oscr t ∧
    mem (P.oncdWrite 0 (BitVec.ofNat 32 oncdMem) 0 t) = mem t
  mem_write : ∀ t, selected t → writesMem (oscr t) → selected (P.oncdWrite 0 (BitVec.ofNat 32 oncdMem) 0 t) ∧
    mem (P.oncdWrite 0 (BitVec.ofNat 32 oncdMem) 0 t) = Function.update (mem t) (omar t) (omdr t) ∧
    oscr (P.oncdWrite 0 (BitVec.ofNat 32 oncdMem) 0 t) = oscr t
  omdr_read : ∀ t, selected t → selected (P.oncdRead (BitVec.ofNat 32 oncdOmdr) 32 t).2 ∧
    (P.oncdRead (BitVec.ofNat 32 oncdOmdr) 32 t).1 = omdr t ∧
    oscr (P.oncdRead (BitVec.ofNat 32 oncdOmdr) 32 t).2 = oscr t ∧
    mem (P.oncdRead (BitVec.ofNat 32 oncdOmdr) 32 t).2 = mem t

/-- The registers are selected, with this control register and this memory. -/
structure PortMemory.Holds (U : PortMemory P) (oscr : Word) (mem : Word → Word) (t : τ) : Prop where
  selected : U.selected t
  oscr : U.oscr t = oscr
  mem : U.mem t = mem

namespace PortMemory

variable {U : PortMemory P} {t : τ} {oscr : Word} {mem : Word → Word}

/-- The control bits that `target_read_start` sets are for loads. -/
theorem reads_readable (oscr : Word) : reads (oscr ||| oscrSlctMem ||| oscrRo) := by
  rw [reads]
  apply BitVec.eq_of_getLsbD_eq
  intro i _
  simp only [BitVec.getLsbD_and, BitVec.getLsbD_or]
  cases oscr.getLsbD i <;> cases oscrSlctMem.getLsbD i <;> cases oscrRo.getLsbD i <;> rfl

/-- The control bits for stores are for stores. -/
theorem writesMem_writable (oscr : Word) : writesMem (Mpsse.writable oscr) := by
  have hdisjoint : oscrSlctMem &&& oscrRo = 0 := by decide
  rw [writesMem, Mpsse.writable]
  apply BitVec.eq_of_getLsbD_eq
  intro i hi
  have hbit := congrArg (fun x : Word => x.getLsbD i) hdisjoint
  simp only [BitVec.getLsbD_and, BitVec.getLsbD_or, BitVec.getLsbD_not, hi, decide_true, Bool.true_and,
    BitVec.ofNat_eq_ofNat, BitVec.getLsbD_zero] at hbit ⊢
  cases oscr.getLsbD i <;> cases hs : oscrSlctMem.getLsbD i <;> cases hr : oscrRo.getLsbD i <;> simp [hs, hr] at hbit ⊢

/-- Where the cached register is that of the unit, the unit has the new one afterwards. -/
theorem Holds.allow (h : U.Holds oscr mem t) (oscrNew : Word) :
    U.Holds oscrNew mem (P.allow oscr oscrNew t) := by
  unfold DebugPort.allow
  split
  · obtain ⟨hselected, hoscr, hmem⟩ := U.oscr_write t oscrNew h.selected
    exact ⟨hselected, hoscr, hmem.trans h.mem⟩
  · rename_i hsame
    rwa [not_not.mp hsame]

/-- A store changes one word of the memory. -/
theorem Holds.store (h : U.Holds oscr mem t) (hw : writesMem oscr) (addr data : Word) :
    U.Holds oscr (Function.update mem addr data) (P.store addr data t) := by
  obtain ⟨hselected₁, homar, hoscr₁, hmem₁⟩ := U.omar_write t addr h.selected
  obtain ⟨hselected₂, homdr, homar₂, hoscr₂, hmem₂⟩ :=
    U.omdr_write (P.oncdWrite addr (BitVec.ofNat 32 oncdOmar) 32 t) data hselected₁
  obtain ⟨hselected, hmem, hoscr⟩ := U.mem_write _ hselected₂ (by rwa [hoscr₂, hoscr₁, h.oscr])
  rw [homar₂, homar, homdr, hmem₂, hmem₁, h.mem] at hmem
  rw [hoscr₂, hoscr₁, h.oscr] at hoscr
  exact ⟨hselected, hoscr, hmem⟩

/-- The memory after stores in their order. -/
def stored (mem : Word → Word) (args : List (Word × Word)) : Word → Word :=
  args.foldl (fun mem w => Function.update mem w.1 w.2) mem

/-- Stores in their order, by induction on them. -/
theorem Holds.stores (h : U.Holds oscr mem t) (hw : writesMem oscr) (args : List (Word × Word)) :
    U.Holds oscr (stored mem args) (P.stores args t) := by
  induction args generalizing t mem with
  | nil => exact h
  | cons w args ih => exact ih (h.store hw w.1 w.2)

/-- Stores elsewhere leave a word alone. -/
theorem stored_of_ne {args : List (Word × Word)} {a : Word} (h : ∀ w ∈ args, w.1 ≠ a) :
    stored mem args a = mem a := by
  induction args generalizing mem with
  | nil => rfl
  | cons w args ih =>
    have hrest : stored (Function.update mem w.1 w.2) args a = Function.update mem w.1 w.2 a :=
      ih fun w' hw' => h w' (List.mem_cons_of_mem w hw')
    exact hrest.trans (Function.update_of_ne (h w List.mem_cons_self).symm _ _)

/-- A word of a block is some steps behind its start. -/
theorem mem_consecutive {addr : Word} {data : List Word} {w : Word × Word} (h : w ∈ consecutive addr data) :
    ∃ i < data.length, w.1 = addr + BitVec.ofNat 32 (i * 4) := by
  induction data generalizing addr with
  | nil => exact absurd h List.not_mem_nil
  | cons word data ih =>
    rcases List.mem_cons.mp h with rfl | h
    · exact ⟨0, Nat.succ_pos _, (BitVec.add_zero addr).symm⟩
    · obtain ⟨i, hi, hw⟩ := ih h
      exact ⟨i + 1, Nat.succ_lt_succ hi, hw.trans (DebugPort.four_add addr i)⟩

/-- Words of a block that are not further apart than the memory is large are at different addresses. -/
theorem add_mul_four_ne (addr : Word) {i : Nat} (hpos : 0 < i) (hi : i < 2 ^ 30) :
    addr + BitVec.ofNat 32 (i * 4) ≠ addr := by
  intro hsame
  have hzero : BitVec.ofNat 32 (i * 4) = 0 := by
    have hsub := congrArg (fun x => x - addr) hsame
    simpa [BitVec.add_comm addr, BitVec.add_sub_cancel] using hsub
  have hnat := congrArg BitVec.toNat hzero
  rw [BitVec.toNat_ofNat, Nat.mod_eq_of_lt (by omega)] at hnat
  exact absurd hnat (by simp; omega)

/-- Each word of a block is where it was stored. -/
theorem stored_consecutive (mem : Word → Word) (addr : Word) {data : List Word} (hlen : data.length ≤ 2 ^ 30)
    {i : Nat} (hi : i < data.length) :
    stored mem (consecutive addr data) (addr + BitVec.ofNat 32 (i * 4)) = data.getD i 0 := by
  induction data generalizing mem addr i with
  | nil => exact absurd hi (Nat.not_lt_zero i)
  | cons word data ih =>
    rw [List.length_cons] at hlen hi
    have hcons : stored mem (consecutive addr (word :: data)) =
        stored (Function.update mem addr word) (consecutive (addr + 4) data) := rfl
    rw [hcons]
    cases i with
    | zero =>
      rw [Nat.zero_mul, BitVec.add_zero, stored_of_ne, Function.update_self]
      · rfl
      · intro w hw
        obtain ⟨i, hi, hw⟩ := mem_consecutive hw
        rw [hw, DebugPort.four_add]
        exact add_mul_four_ne addr (Nat.succ_pos i) (by omega)
    | succ i =>
      rw [← DebugPort.four_add, ih _ _ (by omega) (by omega)]
      rfl

/-- A load answers the word of the memory, and keeps it. -/
theorem Holds.load (h : U.Holds oscr mem t) (hr : reads oscr) (addr : Word) :
    (P.load addr t).1 = mem addr ∧ U.Holds oscr mem (P.load addr t).2 := by
  obtain ⟨hselected₁, homar, hoscr₁, hmem₁⟩ := U.omar_write t addr h.selected
  obtain ⟨hselected₂, homdr, hoscr₂, hmem₂⟩ := U.mem_read (P.oncdWrite addr (BitVec.ofNat 32 oncdOmar) 32 t)
    hselected₁ (by rwa [hoscr₁, h.oscr])
  obtain ⟨hselected, hword, hoscr, hmem⟩ := U.omdr_read _ hselected₂
  refine ⟨hword.trans ?_, hselected, hoscr.trans (hoscr₂.trans (hoscr₁.trans h.oscr)),
    hmem.trans (hmem₂.trans (hmem₁.trans h.mem))⟩
  rw [homdr, hmem₁, homar, h.mem]

/-- Loads give the words of a block. -/
theorem Holds.loads (h : U.Holds oscr mem t) (hr : reads oscr) (n : Nat) (addr : Word) :
    (∀ i < n, (P.loads n addr t).1.getD i 0 = mem (addr + BitVec.ofNat 32 (i * 4))) ∧
      U.Holds oscr mem (P.loads n addr t).2 := by
  induction n generalizing addr t with
  | zero => exact ⟨fun i hi => absurd hi (Nat.not_lt_zero i), h⟩
  | succ n ih =>
    obtain ⟨hword, hload⟩ := h.load hr addr
    obtain ⟨hwords, hloads⟩ := ih hload (addr + 4)
    refine ⟨fun i hi => ?_, hloads⟩
    cases i with
    | zero =>
      rw [Nat.zero_mul, BitVec.add_zero]
      exact hword
    | succ i =>
      rw [← DebugPort.four_add]
      exact hwords i (Nat.lt_of_succ_lt_succ hi)

end PortMemory

/-- The instruction register, whether the processor is stopped, and the registers that reach the
memory. -/
structure RamRegs where
  instruction : BitVec 4
  stopped : Bool
  oscr : Word
  omar : Word
  omdr : Word
  mem : Word → Word

namespace RamRegs

/-- A write to a debug register. -/
def write (t : RamRegs) (reg : Nat) (value : Word) : RamRegs :=
  match reg with
  | 0x00 => { t with oscr := value }
  | 0x0B => { t with omar := value }
  | 0x0C => { t with omdr := value }
  | 0x0D =>
    if t.oscr.getLsbD 0 then
      if t.oscr.getLsbD 1 then { t with omdr := t.mem t.omar }
      else { t with mem := Function.update t.mem t.omar t.omdr }
    else t
  | _ => t

/-- What a read of a debug register shows. The memory is always ready. -/
def shown (t : RamRegs) (reg : Nat) : Word := if reg = 0x40 then t.oscr ||| oscrRdym else t.omdr

/-- The instruction register takes its four bits, and a debug request stops the processor. -/
def enter (t : RamRegs) (bits : List Bool) : RamRegs :=
  { t with instruction := ofBits 4 bits, stopped := t.stopped || ofBits 4 bits == 4 }

end RamRegs

/-- The processor. Its instruction register shows whether it is stopped, and the identification
register has the number of the part. -/
def ramPort (idcode : Word) : DebugPort RamRegs where
  instruction :=
    { out t bits := (if t.stopped then 5#4 else 1#4).getLsbD bits.length
      update t bits := t.enter bits }
  data :=
    { out t bits :=
        if t.instruction = 3 then idcode.getLsbD bits.length
        else (t.shown (ofBits 9 (bits.take 9)).toNat).getLsbD (bits.length - 9)
      update t bits :=
        if t.instruction = 3 then t else t.write (ofBits 9 bits).toNat (ofBits 32 (bits.drop 9)) }
  reset t := { t with instruction := 3 }
  reset_reset _ := rfl
  idcode_selected t := by
    have hbits : ofBits 4 (lowBits tapIdcode 4) = 3 := by decide
    change RamRegs.enter _ _ = _
    rw [RamRegs.enter, hbits]
    change { t with instruction := 3, stopped := t.stopped || false } = _
    rw [Bool.or_false]
  hardReset t := { t with stopped := false }
  hardReset_hardReset _ := rfl

/-- The number of the register in the bits of a write. -/
theorem ofBits_writeBits (value : Word) (reg : Fin 32) (nbits : RegLen) :
    ofBits 9 (DebugPort.writeBits value (BitVec.ofNat 32 reg.val) nbits.val) = BitVec.ofNat 9 reg.val := by
  rw [DebugPort.writeBits, lowBits_oncdWriteData]
  exact ofBits_oncdWriteBits value reg nbits

/-- A write to a debug register of the processor, while the registers are selected. -/
theorem oncdWrite_ramPort {idcode : Word} {t : RamRegs} (h : t.instruction ≠ 3) (value : Word) (reg : Fin 32) :
    (ramPort idcode).oncdWrite value (BitVec.ofNat 32 reg.val) 32 t = t.write (BitVec.ofNat 9 reg.val).toNat value := by
  have hvalue : ofBits 32 ((DebugPort.writeBits value (BitVec.ofNat 32 reg.val) 32).drop 9) = value := by
    have hbits := lowBits_oncdWriteData value (BitVec.ofNat 32 reg.val) wholeWord
    rw [DebugPort.writeBits]
    exact (congrArg (fun bits => ofBits 32 (bits.drop 9)) hbits).trans (ofBits_drop_oncdWriteBits value reg)
  have hreg := ofBits_writeBits value reg wholeWord
  change (if t.instruction = 3 then t else t.write (ofBits 9 _).toNat (ofBits 32 _)) = _
  rw [if_neg h, hvalue]
  exact congrArg (fun r : BitVec 9 => t.write r.toNat value) hreg

/-- An access to the memory. -/
theorem oncdWrite_ramPort_mem {idcode : Word} {t : RamRegs} (h : t.instruction ≠ 3) :
    (ramPort idcode).oncdWrite 0 (BitVec.ofNat 32 oncdMem) 0 t = t.write 0x0D 0 := by
  have hreg := ofBits_writeBits 0 0x0D noData
  change (if t.instruction = 3 then t else t.write (ofBits 9 _).toNat (ofBits 32 _)) = _
  rw [if_neg h]
  exact congrArg (fun r : BitVec 9 => t.write r.toNat _) hreg

/-- The control register takes what is written to it. -/
theorem oncdWrite_ramPort_oscr {idcode : Word} {t : RamRegs} (h : t.instruction ≠ 3) (val : Word) :
    (ramPort idcode).oncdWrite val (BitVec.ofNat 32 oncdOscr) 32 t = { t with oscr := val } := by
  rw [show BitVec.ofNat 32 oncdOscr = BitVec.ofNat 32 (0 : Fin 32).val from rfl, oncdWrite_ramPort h]
  rfl

/-- So does the address register. -/
theorem oncdWrite_ramPort_omar {idcode : Word} {t : RamRegs} (h : t.instruction ≠ 3) (val : Word) :
    (ramPort idcode).oncdWrite val (BitVec.ofNat 32 oncdOmar) 32 t = { t with omar := val } := by
  rw [show BitVec.ofNat 32 oncdOmar = BitVec.ofNat 32 (0x0B : Fin 32).val from rfl, oncdWrite_ramPort h]
  rfl

/-- So does the data register. -/
theorem oncdWrite_ramPort_omdr {idcode : Word} {t : RamRegs} (h : t.instruction ≠ 3) (val : Word) :
    (ramPort idcode).oncdWrite val (BitVec.ofNat 32 oncdOmdr) 32 t = { t with omdr := val } := by
  rw [show BitVec.ofNat 32 oncdOmdr = BitVec.ofNat 32 (0x0C : Fin 32).val from rfl, oncdWrite_ramPort h]
  rfl

/-- An access that is asked for as a read takes the word at the address. -/
theorem write_of_reads {t : RamRegs} (hr : reads t.oscr) : t.write 0x0D 0 = { t with omdr := t.mem t.omar } := by
  have h0 : t.oscr.getLsbD 0 = true := by
    have hbit := congrArg (fun x : Word => x.getLsbD 0) hr
    simpa [oscrSlctMem, oscrRo] using hbit
  have h1 : t.oscr.getLsbD 1 = true := by
    have hbit := congrArg (fun x : Word => x.getLsbD 1) hr
    simpa [oscrSlctMem, oscrRo] using hbit
  exact (if_pos h0).trans (if_pos h1)

/-- An access that is asked for as a write stores the word there. -/
theorem write_of_writesMem {t : RamRegs} (hw : writesMem t.oscr) :
    t.write 0x0D 0 = { t with mem := Function.update t.mem t.omar t.omdr } := by
  have h0 : t.oscr.getLsbD 0 = true := by
    have hbit := congrArg (fun x : Word => x.getLsbD 0) hw
    simpa [oscrSlctMem, oscrRo] using hbit
  have h1 : ¬t.oscr.getLsbD 1 = true := by
    have hbit := congrArg (fun x : Word => x.getLsbD 1) hw
    simpa [oscrSlctMem, oscrRo] using hbit
  exact (if_pos h0).trans (if_neg h1)

/-- A read of a debug register shows it, and leaves the processor as it is. -/
theorem oncdRead_ramPort {idcode : Word} {t : RamRegs} (h : t.instruction ≠ 3) {reg : Word}
    (hsame : ∀ value, t.write (ofBits 9 (DebugPort.readBits reg 32)).toNat value = t) :
    (ramPort idcode).oncdRead reg 32 t =
      (t.shown (ofBits 9 ((DebugPort.readBits reg 32).take 9)).toNat, t) := by
  have hlen : (DebugPort.readBits reg 32).length = 41 := length_lowBits _ _
  refine Prod.ext (BitVec.eq_of_getLsbD_eq fun i hi => ?_) ?_
  · rw [DebugPort.oncdRead, getLsbD_ofBits _ hi, List.getD_eq_getElem?_getD, List.getElem?_drop,
      ← List.getD_eq_getElem?_getD, DebugPort.scan, DataRegister.getD_outputs _ _ (by omega)]
    change (if t.instruction = 3 then _ else (t.shown (ofBits 9 (List.take 9 (List.take (9 + i) _))).toNat).getLsbD _) = _
    rw [if_neg h, List.length_take_of_le (by omega), Nat.add_sub_cancel_left, List.take_take,
      Nat.min_eq_left (Nat.le_add_right 9 i)]
  · change (if t.instruction = 3 then t else t.write (ofBits 9 _).toNat (ofBits 32 _)) = _
    rw [if_neg h, hsame]

/-- The data register. -/
theorem oncdRead_ramPort_omdr {idcode : Word} {t : RamRegs} (h : t.instruction ≠ 3) :
    (ramPort idcode).oncdRead (BitVec.ofNat 32 oncdOmdr) 32 t = (t.omdr, t) := by
  have hreg : (ofBits 9 (DebugPort.readBits (BitVec.ofNat 32 oncdOmdr) 32)).toNat = 0x4C := by decide
  have htake : (ofBits 9 ((DebugPort.readBits (BitVec.ofNat 32 oncdOmdr) 32).take 9)).toNat = 0x4C := by decide
  rw [oncdRead_ramPort h fun value => by rw [hreg]; rfl, htake]
  rfl

/-- Its registers reach its memory. -/
def ramMemory (idcode : Word) : PortMemory (ramPort idcode) where
  selected t := t.instruction ≠ 3
  oscr := RamRegs.oscr
  omar := RamRegs.omar
  omdr := RamRegs.omdr
  mem := RamRegs.mem
  oscr_write t val h := by rw [oncdWrite_ramPort_oscr h]; exact ⟨h, rfl, rfl⟩
  omar_write t val h := by rw [oncdWrite_ramPort_omar h]; exact ⟨h, rfl, rfl, rfl⟩
  omdr_write t val h := by rw [oncdWrite_ramPort_omdr h]; exact ⟨h, rfl, rfl, rfl, rfl⟩
  mem_read t h hr := by rw [oncdWrite_ramPort_mem h, write_of_reads hr]; exact ⟨h, rfl, rfl, rfl⟩
  mem_write t h hw := by rw [oncdWrite_ramPort_mem h, write_of_writesMem hw]; exact ⟨h, rfl, rfl⟩
  omdr_read t h := by rw [oncdRead_ramPort_omdr h]; exact ⟨h, rfl, rfl, rfl⟩

end Mcprog
