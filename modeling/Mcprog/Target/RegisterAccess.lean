import Mcprog.Target.SaveState

/-!
# Registers and memory between a stop and a resume

The debugger reads and writes registers of the stopped program by their numbers. Where the
global pointer that it has given to the program does not address the internal memory, it must
not read a register that is not cached.
-/

namespace Mcprog

open Interaction Program

/-- The number of a register of the debugger. -/
def Slot.number : Slot → Nat
  | .cpu i => i
  | .cp0 i => if i = cp0Status then 32 else if i = cp0Badvaddr then 35 else 36
  | .lo => 33
  | .hi => 34
  | .fpu i => 38 + i
  | .fcsr => 70
  | .fir => 71

/-- A register has one number. -/
theorem number_of_slotOf {regno : Nat} {slot : Slot} (h : slotOf regno = some slot) :
    slot.number = regno := by
  rw [slotOf] at h
  by_cases hcpu : regno < 32
  · rw [dif_pos hcpu] at h
    rw [← Option.some.inj h]
    rfl
  rw [dif_neg hcpu] at h
  by_cases hfpu : 38 ≤ regno ∧ regno ≤ 69
  · rw [if_neg (by omega), if_neg (by omega), if_neg (by omega), if_neg (by omega), if_neg (by omega),
      dif_pos hfpu] at h
    rw [← Option.some.inj h]
    exact Nat.add_sub_cancel' hfpu.1
  rw [dif_neg hfpu] at h
  have hkind : regno ∈ [32, 33, 34, 35, 36, 70, 71] := by
    by_contra hnone
    simp only [List.mem_cons, List.not_mem_nil, or_false, not_or] at hnone
    obtain ⟨h₂, h₃, h₄, h₅, h₆, h₈, h₉⟩ := hnone
    rw [if_neg h₂, if_neg h₃, if_neg h₄, if_neg h₅, if_neg h₆, if_neg h₈, if_neg h₉] at h
    cases h
  simp only [List.mem_cons, List.not_mem_nil, or_false] at hkind
  rcases hkind with rfl | rfl | rfl | rfl | rfl | rfl | rfl <;> exact Option.some.inj h ▸ rfl

/-- No two numbers stand for one register. -/
theorem slotOf_inj {regno regno' : Nat} {slot : Slot} (h : slotOf regno = some slot)
    (h' : slotOf regno' = some slot) : regno = regno' :=
  (number_of_slotOf h).symm.trans (number_of_slotOf h')

/-- The number of a register that is written by the debugger as it is given. -/
def Covered (regno : Nat) : Prop :=
  (1 ≤ regno ∧ regno ≤ 34) ∨ regno = 36 ∨ (38 ≤ regno ∧ regno ≤ 70)

instance (regno : Nat) : Decidable (Covered regno) :=
  inferInstanceAs (Decidable (_ ∨ _))

/-- A number that is covered has a register that can be written. -/
theorem slotOf_of_covered {regno : Nat} (h : Covered regno) :
    ∃ slot, slotOf regno = some slot ∧ slot.writable ∧ slot ≠ .cpu 0 := by
  have hall : ∀ i : Fin 71, Covered i →
      ((slotOf i).any fun slot => slot.writable ∧ slot ≠ .cpu 0) := by decide +kernel
  have hlt : regno < 71 := by
    unfold Covered at h
    omega
  have hany := hall ⟨regno, hlt⟩ h
  obtain ⟨slot, hslot, hp⟩ := (Option.any_eq_true _ _).mp hany
  exact ⟨slot, hslot, of_decide_eq_true hp⟩

/-- One access of the debugger. -/
inductive DebugOp
  | readRegister (regno : Nat)
  | writeRegister (regno : Nat) (val : Word)
  | readWord (addr : Word)
  deriving DecidableEq, Repr

namespace DebugOp

/-- Perform an access. A read answers a value. -/
def perform {σ : Type} (A : Adapter σ) (t : Target) : DebugOp → Action σ (Option Word × Target)
  | readRegister regno => do
    let r ← targetReadRegister A t regno
    return (some r.1, r.2)
  | writeRegister regno val => do
    let t ← targetWriteRegister A t regno val
    return (none, t)
  | readWord addr => do
    let val ← targetReadWord A addr
    return (some val, t)

/-- The value that an access gives to a register. -/
def writes (regno : Nat) : DebugOp → Option Word
  | writeRegister r val => if r = regno then some val else none
  | _ => none

/-- An access after which a register is cached. -/
def caches (regno : Nat) : DebugOp → Prop
  | readRegister r => r = regno
  | writeRegister r _ => r = regno ∧ (slotOf r).any Slot.writable
  | readWord _ => False

end DebugOp

/-- Perform one access after the other. -/
def debugAll {σ : Type} (A : Adapter σ) : Target → List DebugOp → Action σ (List (Option Word) × Target)
  | t, [] => pure ([], t)
  | t, op :: ops => do
    let r ← op.perform A t
    let rest ← debugAll A r.2 ops
    return (r.1 :: rest.1, rest.2)

/-- The value last given to a register. -/
def lastWritten (regno : Nat) (ops : List DebugOp) : Option Word :=
  ops.reverse.findSome? fun op => op.writes regno

/-- A register that is not cached after the accesses: a read of it asks the processor. -/
def Uncached (ops : List DebugOp) (regno : Nat) : Prop :=
  (slotOf regno).isSome ∧ regno ≠ 28 ∧ regno ≠ 30 ∧ ∀ op ∈ ops, ¬ op.caches regno

/-- Whenever a register is read that is not cached, the global pointer has not been written, or
the value last given to it addresses the internal memory. -/
def GpAddressesCram (m : Machine) (ops : List DebugOp) : Prop :=
  ∀ pre regno post, ops = pre ++ .readRegister regno :: post → Uncached pre regno →
    m.AddressesCram ((lastWritten 28 pre).getD cramAddr)

namespace Machine

variable (m : Machine)

/-- The register of a number. -/
def register (regno : Nat) : Word :=
  match slotOf regno with
  | some slot => m.get slot
  | none => 0

/-- The program after an access: the registers that can be written are assigned. -/
def afterOp : DebugOp → Machine
  | .writeRegister regno val =>
    match slotOf regno with
    | some slot => if slot.writable then m.put slot val else m
    | none => m
  | _ => m

/-- The program after accesses. -/
def afterOps (ops : List DebugOp) : Machine := ops.foldl afterOp m

end Machine

/-- The debugger reads back what it has last written, or else what the program had; no memory
but the first word of the internal memory changes under its hands; and the program is resumed
with the registers last written, or else its own. -/
structure Faithful (m : Machine) (ops : List DebugOp) (answers : List (Option Word))
    (debugged resumed : Machine) : Prop where
  reads : ∀ pre regno post, ops = pre ++ .readRegister regno :: post → Covered regno →
    answers[pre.length]? = some (some ((lastWritten regno pre).getD (m.register regno)))
  memory : ∀ w, w ≠ cramWord → debugged.mem w = m.mem w
  resumed : ∀ regno, Covered regno →
    resumed.register regno = (lastWritten regno ops).getD (m.register regno)

section History

variable {m : Machine}

theorem lastWritten_concat (regno : Nat) (ops : List DebugOp) (op : DebugOp) :
    lastWritten regno (ops ++ [op]) = (op.writes regno).or (lastWritten regno ops) := by
  unfold lastWritten
  rw [List.reverse_append, List.reverse_singleton, List.singleton_append, List.findSome?_cons]
  cases op.writes regno with
  | none => rfl
  | some val => rfl

/-- The machine after one operation more. -/
theorem afterOps_concat (ops : List DebugOp) (op : DebugOp) :
    m.afterOps (ops ++ [op]) = (m.afterOps ops).afterOp op := List.foldl_concat ..

/-- An access writes one register of the program, or none. -/
theorem afterOp_cases (m : Machine) (op : DebugOp) :
    m.afterOp op = m ∨ ∃ slot val, m.afterOp op = m.put slot val := by
  cases op with
  | readRegister regno => exact .inl rfl
  | readWord addr => exact .inl rfl
  | writeRegister regno val =>
    rw [Machine.afterOp]
    cases slotOf regno with
    | none => exact .inl rfl
    | some slot =>
      dsimp only
      by_cases hw : slot.writable
      · rw [if_pos hw]
        exact .inr ⟨slot, val, rfl⟩
      · rw [if_neg hw]
        exact .inl rfl

/-- An access leaves the memory and the segments of the program alone. -/
theorem afterOp_frame (op : DebugOp) :
    (m.afterOp op).mem = m.mem ∧ (m.afterOp op).mapped = m.mapped := by
  rcases afterOp_cases m op with h | ⟨slot, val, h⟩
  · rw [h]
    exact ⟨rfl, rfl⟩
  · rw [h]
    exact m.put_frame slot val

/-- The operations on registers leave the memory. -/
theorem afterOps_frame (ops : List DebugOp) :
    (m.afterOps ops).mem = m.mem ∧ (m.afterOps ops).mapped = m.mapped := by
  induction ops using List.reverseRecOn with
  | nil => exact ⟨rfl, rfl⟩
  | append_singleton ops op ih =>
    rw [afterOps_concat, (afterOp_frame op).1, (afterOp_frame op).2]
    exact ih

/-- Reads leave the program alone. -/
theorem afterOps_of_reads (m : Machine) {ops : List DebugOp}
    (h : ∀ op ∈ ops, ∀ regno val, op ≠ .writeRegister regno val) : m.afterOps ops = m := by
  induction ops using List.reverseRecOn with
  | nil => rfl
  | append_singleton ops op ih =>
    rw [afterOps_concat, ih fun op' hop' => h op' (List.mem_append_left _ hop')]
    cases op with
    | readRegister regno => rfl
    | readWord addr => rfl
    | writeRegister regno val => exact absurd rfl (h _ (by simp) regno val)

/-- A register after an access. -/
theorem register_afterOp {regno : Nat} (h : Covered regno) (op : DebugOp) :
    (m.afterOp op).register regno = (op.writes regno).getD (m.register regno) := by
  obtain ⟨slot, hslot, hwritable, hzero⟩ := slotOf_of_covered h
  have hreg : ∀ m' : Machine, m'.register regno = m'.get slot := by
    intro m'
    rw [Machine.register, hslot]
  rw [hreg, hreg]
  cases op with
  | readRegister r => rfl
  | readWord addr => rfl
  | writeRegister r val =>
    rw [DebugOp.writes]
    by_cases hr : r = regno
    · have hfir : slot ≠ .fir := fun heq => by simp [heq, Slot.writable] at hwritable
      rw [if_pos hr, Machine.afterOp, hr, hslot]
      dsimp only
      rw [if_pos hwritable, Machine.get_put _ hfir hzero, if_pos rfl]
      rfl
    · rw [if_neg hr]
      cases hr' : slotOf r with
      | none =>
        rw [Machine.afterOp, hr']
        rfl
      | some slot' =>
        have hne : slot ≠ slot' := by
          rintro rfl
          exact hr (slotOf_inj hr' hslot)
        rw [Machine.afterOp, hr']
        dsimp only
        by_cases hw : slot'.writable
        · have hfir : slot' ≠ .fir := fun heq => by simp [heq, Slot.writable] at hw
          rw [if_pos hw]
          by_cases hz : slot' = .cpu 0
          · rw [hz, Machine.put_zero]
            rfl
          · rw [Machine.get_put _ hfir hz, if_neg hne]
            rfl
        · rw [if_neg hw]
          rfl

/-- A register after accesses holds what was last written. -/
theorem register_afterOps {regno : Nat} (h : Covered regno) (ops : List DebugOp) :
    (m.afterOps ops).register regno = (lastWritten regno ops).getD (m.register regno) := by
  induction ops using List.reverseRecOn with
  | nil => rfl
  | append_singleton ops op ih =>
    rw [afterOps_concat, register_afterOp h, ih, lastWritten_concat]
    cases op.writes regno with
    | none => rfl
    | some val => rfl

end History

/-- A stopped processor after accesses of the debugger: the program is the one that the
accesses make of it, and the registers are cached that have been accessed. -/
structure Debugged (m : Machine) (ops : List DebugOp) (t : Target) (c : Core) : Prop where
  borrowed : Borrowed (m.afterOps ops) ((lastWritten 28 ops).getD cramAddr) t c
  cached : ∀ regno slot, slotOf regno = some slot → (t.cached slot = none ↔ Uncached ops regno)

/-- A register is saved by the last operation, or by one before. -/
theorem uncached_concat {ops : List DebugOp} {op : DebugOp} {regno : Nat} :
    Uncached (ops ++ [op]) regno ↔ Uncached ops regno ∧ ¬ op.caches regno := by
  simp only [Uncached, List.mem_append, List.mem_singleton]
  constructor
  · rintro ⟨hsome, hgp, hfp, h⟩
    exact ⟨⟨hsome, hgp, hfp, fun op' h' => h op' (.inl h')⟩, h op (.inr rfl)⟩
  · rintro ⟨⟨hsome, hgp, hfp, h⟩, hop⟩
    refine ⟨hsome, hgp, hfp, ?_⟩
    rintro op' (h' | rfl)
    · exact h op' h'
    · exact hop

namespace Debugged

variable {b : Bool} {m : Machine} {ops : List DebugOp} {t t' : Target} {c c' : Core}

/-- The next access, from what it does to the program and to the cached registers. -/
theorem next (h : Debugged m ops t c) {op : DebugOp}
    (hb : Borrowed ((m.afterOps ops).afterOp op)
      ((op.writes 28).getD ((lastWritten 28 ops).getD cramAddr)) t' c')
    (hc : ∀ regno slot, slotOf regno = some slot →
      (t'.cached slot = none ↔ t.cached slot = none ∧ ¬ op.caches regno)) :
    Debugged m (ops ++ [op]) t' c' where
  borrowed := by
    have hgp : (lastWritten 28 (ops ++ [op])).getD cramAddr =
        (op.writes 28).getD ((lastWritten 28 ops).getD cramAddr) := by
      rw [lastWritten_concat]
      cases op.writes 28 with
      | none => rfl
      | some val => rfl
    rw [afterOps_concat, hgp]
    exact hb
  cached := by
    intro regno slot hslot
    rw [hc regno slot hslot, h.cached regno slot hslot, uncached_concat]

/-- Two numbers are the same where their registers are. -/
theorem same_iff {regno regno' : Nat} {slot slot' : Slot} (h : slotOf regno = some slot)
    (h' : slotOf regno' = some slot') : slot' = slot ↔ regno = regno' := by
  constructor
  · rintro rfl
    exact slotOf_inj h h'
  · rintro rfl
    exact Option.some.inj (h'.symm.trans h)

/-- The registers that are cached after one more. -/
theorem cached_cache_eq_none {slot slot' : Slot} {val : Word} :
    (t.cache slot val).cached slot' = none ↔ t.cached slot' = none ∧ ¬ slot' = slot := by
  rw [Target.cached_cache]
  by_cases heq : slot' = slot
  · simp [heq]
  · simp [heq]

/-- An access to a register that is not there, or is cached already. -/
theorem idle (h : Debugged m ops t c) {op : DebugOp} (hprog : (m.afterOps ops).afterOp op = m.afterOps ops)
    (hgp : op.writes 28 = none)
    (hc : ∀ regno slot, slotOf regno = some slot → op.caches regno → t.cached slot ≠ none) :
    Debugged m (ops ++ [op]) t c := by
  apply h.next
  · rw [hprog, hgp]
    exact h.borrowed
  · intro regno slot hslot
    constructor
    · intro hnone
      exact ⟨hnone, fun hop => hc regno slot hslot hop hnone⟩
    · exact fun hand => hand.1

/-- The address of the global pointer leads to the same word in every state of the program. -/
theorem addressesCram_afterOps {addr : Word} (h : m.AddressesCram addr) :
    (m.afterOps ops).AddressesCram addr := by
  have htranslate : (m.afterOps ops).translate addr = m.translate addr := by
    rw [Machine.translate, Machine.translate, (afterOps_frame ops).2]
  exact ⟨h.1, by rw [htranslate, h.2]⟩

/-- A number without a register. -/
theorem readRegister_noSlot {regno : Nat} (hslot : slotOf regno = none) :
    ∃ val, Performs At (targetReadRegister (mc12 b) t regno) c (val, t) c := by
  by_cases hpc : regno = regnoPc
  · refine ⟨if t.exception ≠ noException then t.exception else t.pcDec, ?_⟩
    rw [targetReadRegister, if_pos hpc]
    exact performs_pure _ c
  · refine ⟨0, ?_⟩
    rw [targetReadRegister, if_neg hpc, hslot]
    exact performs_pure _ c

/-- The program counter has no register. -/
theorem ne_regnoPc {regno : Nat} {slot : Slot} (hslot : slotOf regno = some slot) :
    regno ≠ regnoPc := by
  have hnone : slotOf regnoPc = none := by decide
  rintro rfl
  simp [hnone] at hslot

/-- A read of a register. -/
theorem readRegister (h : Debugged m ops t c) (regno : Nat)
    (hgp : Uncached ops regno → m.AddressesCram ((lastWritten 28 ops).getD cramAddr)) :
    ∃ val t' c', Performs At (targetReadRegister (mc12 b) t regno) c (val, t') c' ∧
      Debugged m (ops ++ [.readRegister regno]) t' c' ∧
      ∀ slot, slotOf regno = some slot → slot ≠ .cpu 0 → val = (m.afterOps ops).get slot := by
  cases hslot : slotOf regno with
  | none =>
    obtain ⟨val, hread⟩ := readRegister_noSlot (b := b) (t := t) (c := c) hslot
    refine ⟨val, t, c, hread, h.idle rfl rfl ?_, by simp⟩
    rintro regno' slot hslot' rfl
    simp [hslot] at hslot'
  | some slot =>
    cases hcached : t.cached slot with
    | some val =>
      refine ⟨val, t, c, ?_, h.idle rfl rfl ?_, ?_⟩
      · rw [targetReadRegister, if_neg (ne_regnoPc hslot), hslot]
        dsimp only
        rw [hcached]
        exact performs_pure _ c
      · rintro regno' slot' hslot' rfl
        obtain rfl := Option.some.inj (hslot.symm.trans hslot')
        simp [hcached]
      · intro slot' hslot' hzero
        obtain rfl := Option.some.inj hslot'
        exact h.borrowed.cached slot val hcached hzero
    | none =>
      have huncached := (h.cached regno slot hslot).mp hcached
      obtain ⟨c', hload, hb⟩ := h.borrowed.loadSlot (b := b) hcached
        (addressesCram_afterOps (hgp huncached))
      refine ⟨(m.afterOps ops).get slot, t.cache slot ((m.afterOps ops).get slot), c', ?_,
        h.next hb ?_, ?_⟩
      · rw [targetReadRegister, if_neg (ne_regnoPc hslot), hslot]
        dsimp only
        rw [hcached]
        exact hload.bind (performs_pure _ c')
      · intro regno' slot' hslot'
        rw [cached_cache_eq_none, same_iff hslot hslot']
        rfl
      · intro slot' hslot' _
        rw [Option.some.inj hslot']

/-- Setting the program counter is no access to the registers. -/
theorem setException (h : Debugged m ops t c) (exception : Word) :
    Debugged m ops { t with exception } c := by
  have hcached : ∀ slot, ({ t with exception } : Target).cached slot = t.cached slot := by
    intro slot
    cases slot <;> rfl
  constructor
  · constructor
    · exact h.borrowed.idcode
    · exact h.borrowed.stopped
    · exact h.borrowed.machine
    · exact h.borrowed.mem0
    · rw [hcached]
      exact h.borrowed.gpCached
    · rw [hcached]
      exact h.borrowed.fpCached
    · intro slot val
      rw [hcached]
      exact h.borrowed.cached slot val
  · intro regno slot
    rw [hcached]
    exact h.cached regno slot

/-- A write to a register that cannot be written. -/
theorem idle_write (h : Debugged m ops t c) {regno : Nat} (val : Word)
    (hnot : ∀ slot, slotOf regno = some slot → ¬ slot.writable) :
    Debugged m (ops ++ [.writeRegister regno val]) t c := by
  apply h.idle
  · rw [Machine.afterOp]
    cases hslot : slotOf regno with
    | none => rfl
    | some slot =>
      dsimp only
      rw [if_neg (hnot slot hslot)]
  · have hgp : slotOf 28 = some (.cpu gp) := rfl
    rw [DebugOp.writes, if_neg]
    rintro rfl
    exact hnot _ hgp rfl
  · rintro regno' slot hslot ⟨rfl, hw⟩
    rw [hslot] at hw
    exact absurd hw (hnot slot hslot)

/-- A write of a register. -/
theorem writeRegister (h : Debugged m ops t c) (regno : Nat) (val : Word) :
    ∃ t' c', Performs At (targetWriteRegister (mc12 b) t regno val) c t' c' ∧
      Debugged m (ops ++ [.writeRegister regno val]) t' c' := by
  cases hslot : slotOf regno with
  | none =>
    have hidle : Debugged m (ops ++ [.writeRegister regno val]) t c := h.idle_write val (by simp [hslot])
    by_cases hpc : regno = regnoPc
    · refine ⟨{ t with exception := val }, c, ?_, hidle.setException val⟩
      rw [targetWriteRegister, if_pos hpc]
      exact performs_pure _ c
    · refine ⟨t, c, ?_, hidle⟩
      rw [targetWriteRegister, if_neg hpc, hslot]
      exact performs_pure _ c
  | some slot =>
    by_cases hw : slot.writable
    · have hfir : slot ≠ .fir := fun heq => by simp [heq, Slot.writable] at hw
      have hgp : slot = .cpu gp ↔ regno = 28 := by
        have h28 : slotOf 28 = some (.cpu gp) := rfl
        exact (same_iff h28 hslot).trans eq_comm
      obtain ⟨c', hstore, hb⟩ := h.borrowed.storeSlot (b := b) hfir val
      refine ⟨t.cache slot val, c', ?_, h.next ?_ ?_⟩
      · rw [targetWriteRegister, if_neg (ne_regnoPc hslot), hslot]
        dsimp only
        rw [if_pos hw]
        exact hstore.bind (performs_pure _ c')
      · have hprog : (m.afterOps ops).afterOp (.writeRegister regno val) =
            (m.afterOps ops).put slot val := by
          rw [Machine.afterOp, hslot]
          dsimp only
          rw [if_pos hw]
        rw [hprog, DebugOp.writes]
        simp only [hgp] at hb
        by_cases h28 : regno = 28
        · rw [if_pos h28] at hb ⊢
          exact hb
        · rw [if_neg h28] at hb ⊢
          exact hb
      · intro regno' slot' hslot'
        have hany : (slotOf regno).any Slot.writable := by
          rw [hslot]
          exact hw
        rw [cached_cache_eq_none, same_iff hslot hslot', DebugOp.caches]
        simp only [hany, and_true]
    · refine ⟨t, c, ?_, h.idle_write val ?_⟩
      · rw [targetWriteRegister, if_neg (ne_regnoPc hslot), hslot]
        dsimp only
        rw [if_neg hw]
        exact performs_pure _ c
      · intro slot' hslot'
        rw [← Option.some.inj (hslot.symm.trans hslot')]
        exact hw

/-- One access. -/
theorem step (h : Debugged m ops t c) (op : DebugOp)
    (hgp : ∀ regno, op = .readRegister regno → Uncached ops regno →
      m.AddressesCram ((lastWritten 28 ops).getD cramAddr)) :
    ∃ answer t' c', Performs At (op.perform (mc12 b) t) c (answer, t') c' ∧
      Debugged m (ops ++ [op]) t' c' ∧ ∀ regno, op = .readRegister regno → Covered regno →
        answer = some ((lastWritten regno ops).getD (m.register regno)) := by
  cases op with
  | readRegister regno =>
    obtain ⟨val, t', c', hread, hd, hval⟩ := h.readRegister (b := b) regno (hgp regno rfl)
    refine ⟨some val, t', c', hread.bind (performs_pure _ c'), hd, ?_⟩
    rintro regno' heq hcov
    obtain rfl := DebugOp.readRegister.inj heq
    obtain ⟨slot, hslot, -, hzero⟩ := slotOf_of_covered hcov
    rw [hval slot hslot hzero, ← register_afterOps hcov, Machine.register, hslot]
  | writeRegister regno val =>
    obtain ⟨t', c', hwrite, hd⟩ := h.writeRegister (b := b) regno val
    exact ⟨none, t', c', hwrite.bind (performs_pure _ c'), hd, fun _ heq => by simp at heq⟩
  | readWord addr =>
    exact ⟨_, t, c, (targetReadWord_performs addr).bind (performs_pure _ c),
      h.idle rfl rfl fun _ _ _ hop => hop.elim, fun _ heq => by simp at heq⟩

end Debugged

section Runs

variable {b : Bool} {m : Machine}

/-- The condition holds for the operations before the last one. -/
theorem GpAddressesCram.of_concat {ops : List DebugOp} {op : DebugOp}
    (h : GpAddressesCram m (ops ++ [op])) : GpAddressesCram m ops := by
  intro pre regno post hops
  exact h pre regno (post ++ [op]) (by rw [hops, List.append_assoc, List.cons_append])

/-- One access after the others. -/
theorem debugAll_concat {σ : Type} (A : Adapter σ) (t : Target) (ops : List DebugOp) (op : DebugOp) :
    debugAll A t (ops ++ [op]) = do
      let r ← debugAll A t ops
      let last ← op.perform A r.2
      return (r.1 ++ [last.1], last.2) := by
  induction ops generalizing t with
  | nil =>
    rw [List.nil_append, debugAll, debugAll, pure_bind]
    simp only [debugAll, pure_bind, List.nil_append]
  | cons op' ops ih =>
    rw [List.cons_append, debugAll, debugAll]
    simp only [ih, bind_assoc, pure_bind, List.cons_append]

/-- Accesses one after the other: each of them reads what the debugger has last written. -/
theorem debugAll_performs {ops : List DebugOp} {t : Target} {c : Core} (h : Debugged m [] t c)
    (hgp : GpAddressesCram m ops) :
    ∃ answers t' c', Performs At (debugAll (mc12 b) t ops) c (answers, t') c' ∧
      Debugged m ops t' c' ∧ answers.length = ops.length ∧
      ∀ pre regno post, ops = pre ++ .readRegister regno :: post → Covered regno →
        answers[pre.length]? = some (some ((lastWritten regno pre).getD (m.register regno))) := by
  induction ops using List.reverseRecOn with
  | nil => exact ⟨[], t, c, performs_pure _ c, h, rfl, by simp⟩
  | append_singleton ops op ih =>
    obtain ⟨answers, t₁, c₁, hrun, hd, hlen, hreads⟩ := ih hgp.of_concat
    obtain ⟨answer, t', c', hstep, hd', hread⟩ := hd.step (b := b) op
      fun regno heq => hgp ops regno [] (by rw [heq])
    refine ⟨answers ++ [answer], t', c', ?_, hd', ?_, ?_⟩
    · rw [debugAll_concat]
      exact hrun.bind (hstep.bind (performs_pure _ c'))
    · rw [List.length_append, hlen, List.length_append]
      rfl
    · intro pre regno post hops hcov
      rcases List.eq_nil_or_concat post with rfl | ⟨post, op', rfl⟩
      · obtain ⟨rfl, hop⟩ := List.append_inj' hops rfl
        rw [← hlen, List.getElem?_concat_length,
          hread regno (List.singleton_inj.mp hop) hcov]
      · rw [List.concat_eq_append, ← List.cons_append, ← List.append_assoc] at hops
        obtain ⟨hops, -⟩ := List.append_inj' hops rfl
        have hlt : pre.length < answers.length := by
          rw [hlen, hops, List.length_append, List.length_cons]
          omega
        rw [List.getElem?_append_left hlt]
        exact hreads pre regno post hops hcov

/-- The stopped processor before the first access. -/
theorem debugged_nil {t : Target} {c : Core} (hb : Borrowed m cramAddr t c)
    (hc : ∀ slot, (t.cached slot).isSome ↔ slot = .cpu gp ∨ slot = .cpu fp) : Debugged m [] t c where
  borrowed := hb
  cached := by
    intro regno slot hslot
    have h28 : slotOf 28 = some (.cpu gp) := rfl
    have h30 : slotOf 30 = some (.cpu fp) := rfl
    have hgp : slot = .cpu gp ↔ regno = 28 := (Debugged.same_iff h28 hslot).trans eq_comm
    have hfp : slot = .cpu fp ↔ regno = 30 := (Debugged.same_iff h30 hslot).trans eq_comm
    rw [← Option.not_isSome_iff_eq_none, hc, hgp, hfp, Uncached, hslot]
    simp

/-- A stop, accesses of the debugger and a resume. -/
theorem debugAll_reaches {t : Target} (hid : t.idcode = mc12Id) (hrun : t.isRunning = true)
    (ops : List DebugOp) (s : Session Mc12) (hgp : GpAddressesCram s.device.machine ops) :
    ∃ t₁ s₁ answers t₂ s₂ t₃ s₃, (targetStop (mc12 b) t).Reaches s t₁ s₁ ∧
      (debugAll (mc12 b) t₁ ops).Reaches s₁ (answers, t₂) s₂ ∧
      (targetResume (mc12 b) t₂).Reaches s₂ t₃ s₃ ∧ s₃.device.running = true ∧
      (∃ gpVal fpVal cram,
        s₂.device.machine = (s.device.machine.afterOps ops).borrow gpVal fpVal cram) ∧
      s₃.device.machine = s.device.machine.afterOps ops ∧
      ∀ pre regno post, ops = pre ++ .readRegister regno :: post → Covered regno →
        answers[pre.length]? =
          some (some ((lastWritten regno pre).getD (s.device.machine.register regno))) := by
  obtain ⟨t₁, s₁, c₁, hstop, hs₁, hb, hc⟩ := targetStop_reaches (b := b) hid hrun s
  obtain ⟨answers, t₂, c₂, hrun, hd, -, hreads⟩ := debugAll_performs (b := b) (debugged_nil hb hc) hgp
  obtain ⟨s₂, hr₂, hs₂⟩ := hrun s₁ hs₁
  obtain ⟨t₃, s₃, hr₃, hmachine, hrunning⟩ := targetResume_reaches (b := b) hd.borrowed hs₂
  obtain ⟨fpVal, cram, hm⟩ := hd.borrowed.machine
  exact ⟨t₁, s₁, answers, t₂, s₂, t₃, s₃, hstop, hr₂, hr₃, hrunning,
    ⟨_, fpVal, cram, hs₂.machine.trans hm⟩, hmachine, hreads⟩

/-- Where the global pointer is not written it addresses the internal memory. -/
theorem gpAddressesCram_of_unwritten (m : Machine) {ops : List DebugOp}
    (h : ∀ op ∈ ops, op.writes 28 = none) : GpAddressesCram m ops := by
  intro pre regno post hops _
  have hnone : lastWritten 28 pre = none := by
    rw [lastWritten, List.findSome?_eq_none_iff]
    intro op hop
    exact h op (by
      rw [hops]
      exact List.mem_append_left _ (List.mem_reverse.mp hop))
  rw [hnone]
  exact m.addressesCram_cramAddr

end Runs

/-- Between a stop and a resume the accesses to registers are faithful, as long as a register
that is not cached is read only while the global pointer addresses the internal memory. -/
theorem debugAll_faithful (ownRun : Bool) {t : Target} (hid : t.idcode = mc12Id)
    (hrun : t.isRunning = true) (ops : List DebugOp) (s : Session Mc12)
    (hgp : GpAddressesCram s.device.machine ops) :
    ∃ t₁ s₁ answers t₂ s₂ t₃ s₃, (targetStop (mc12 ownRun) t).Reaches s t₁ s₁ ∧
      (debugAll (mc12 ownRun) t₁ ops).Reaches s₁ (answers, t₂) s₂ ∧
      (targetResume (mc12 ownRun) t₂).Reaches s₂ t₃ s₃ ∧ s₃.device.running = true ∧
      Faithful s.device.machine ops answers s₂.device.machine s₃.device.machine := by
  obtain ⟨t₁, s₁, answers, t₂, s₂, t₃, s₃, hstop, hops, hresume, hrunning, ⟨gpVal, fpVal, cram, hm⟩,
    hmachine, hreads⟩ := debugAll_reaches (b := ownRun) hid hrun ops s hgp
  refine ⟨t₁, s₁, answers, t₂, s₂, t₃, s₃, hstop, hops, hresume, hrunning, hreads, ?_, ?_⟩
  · intro w hw
    have hborrow : ((s.device.machine.afterOps ops).borrow gpVal fpVal cram).mem w =
        (s.device.machine.afterOps ops).mem w := Function.update_of_ne hw _ _
    rw [hm, hborrow, (afterOps_frame ops).1]
  · intro regno hcov
    rw [hmachine, register_afterOps hcov]

/-- A processor whose registers hold their numbers, and its memory nothing. -/
def numbered : Mc12 where
  machine :=
    { regs := fun r => BitVec.ofNat 32 r
      hi := 0
      lo := 0
      cp0 := fun _ => 0
      fpu := fun _ => 0
      fpuctl := fun _ => 0
      mem := fun _ => 0
      mapped := id }
  running := true
  oscr := 0
  pcFetch := bootAddr
  irDec := mipsNop
  pcDec := bootAddr
  pcExec := 0
  omar := 0
  omdr := 0

/-- A running target with the oldest processor. -/
def mc12Target : Target := { Target.allocated with idcode := mc12Id, isRunning := true }

/-- A read, a write of the same register and a read of another one. -/
theorem debugAll_faithful_numbered :
    let ops := [.readRegister 1, .writeRegister 1 5, .readRegister 33]
    ∃ t₁ s₁ answers t₂ s₂ t₃ s₃, (targetStop (mc12 false) mc12Target).Reaches ⟨0, numbered⟩ t₁ s₁ ∧
      (debugAll (mc12 false) t₁ ops).Reaches s₁ (answers, t₂) s₂ ∧
      (targetResume (mc12 false) t₂).Reaches s₂ t₃ s₃ ∧ s₃.device.running = true ∧
      Faithful numbered.machine ops answers s₂.device.machine s₃.device.machine :=
  debugAll_faithful false rfl rfl _ ⟨0, numbered⟩ (gpAddressesCram_of_unwritten _ (by decide))

/-- A stop, accesses and a resume as one program, with the answers of the reads. -/
def debugSession {σ : Type} (A : Adapter σ) (t : Target) (ops : List DebugOp) :
    Control σ (List (Option Word)) := do
  let t ← targetStop A t
  let r ← calls (debugAll A t ops)
  let _ ← targetResume A r.2
  return r.1

/-- The global pointer is moved to other memory before a register is read. -/
def movedGp : List DebugOp := [.writeRegister 28 0xA0001000, .readRegister 1]

/-- After the global pointer has been moved a register that is not cached reads as what is left
in the internal memory. -/
theorem not_faithful_movedGp :
    ¬ ∃ t₁ s₁ answers t₂ s₂ t₃ s₃, (targetStop (mc12 false) mc12Target).Reaches ⟨0, numbered⟩ t₁ s₁ ∧
      (debugAll (mc12 false) t₁ movedGp).Reaches s₁ (answers, t₂) s₂ ∧
      (targetResume (mc12 false) t₂).Reaches s₂ t₃ s₃ ∧ s₃.device.running = true ∧
      Faithful numbered.machine movedGp answers s₂.device.machine s₃.device.machine := by
  rintro ⟨t₁, s₁, answers, t₂, s₂, t₃, s₃, hstop, hops, hresume, -, hfaithful⟩
  have hsession : (debugSession (mc12 false) mc12Target movedGp).Reaches ⟨0, numbered⟩ answers s₃ :=
    hstop.bind ((hops.mapEvents _).bind (hresume.bind (reaches_pure _ _)))
  have hanswers : (debugSession (mc12 false) mc12Target movedGp ⟨0, numbered⟩).result.toOption =
      some [none, some 30] := by decide +kernel
  rw [hsession.result] at hanswers
  have hread := hfaithful.reads [.writeRegister 28 0xA0001000] 1 [] rfl (by decide)
  rw [show answers = [none, some 30] from Option.some.inj hanswers] at hread
  revert hread
  decide

/-- Reading alone is not seen by the program: it is resumed with all its registers and all of
its memory. -/
theorem debugAll_transparent (ownRun : Bool) {t : Target} (hid : t.idcode = mc12Id)
    (hrun : t.isRunning = true) {ops : List DebugOp}
    (hops : ∀ op ∈ ops, ∀ regno val, op ≠ .writeRegister regno val) (s : Session Mc12) :
    ∃ t₁ s₁ answers t₂ s₂ t₃ s₃, (targetStop (mc12 ownRun) t).Reaches s t₁ s₁ ∧
      (debugAll (mc12 ownRun) t₁ ops).Reaches s₁ (answers, t₂) s₂ ∧
      (targetResume (mc12 ownRun) t₂).Reaches s₂ t₃ s₃ ∧ s₃.device.running = true ∧
      s₃.device.machine = s.device.machine := by
  have hunwritten : ∀ op ∈ ops, op.writes 28 = none := by
    intro op hop
    cases op with
    | readRegister regno => rfl
    | readWord addr => rfl
    | writeRegister regno val => exact absurd rfl (hops _ hop regno val)
  have hsame := afterOps_of_reads s.device.machine hops
  obtain ⟨t₁, s₁, answers, t₂, s₂, t₃, s₃, hstop, hdebug, hresume, hrunning, -, hmachine, -⟩ :=
    debugAll_reaches (b := ownRun) hid hrun ops s (gpAddressesCram_of_unwritten _ hunwritten)
  exact ⟨t₁, s₁, answers, t₂, s₂, t₃, s₃, hstop, hdebug, hresume, hrunning, hmachine.trans hsame⟩

/-- General registers, coprocessor 0, the FPU and the memory are read. -/
theorem debugAll_transparent_numbered :
    let ops := [.readRegister 2, .readRegister 36, .readRegister 71, .readWord cramAddr]
    ∃ t₁ s₁ answers t₂ s₂ t₃ s₃, (targetStop (mc12 true) mc12Target).Reaches ⟨0, numbered⟩ t₁ s₁ ∧
      (debugAll (mc12 true) t₁ ops).Reaches s₁ (answers, t₂) s₂ ∧
      (targetResume (mc12 true) t₂).Reaches s₂ t₃ s₃ ∧ s₃.device.running = true ∧
      s₃.device.machine = numbered.machine :=
  debugAll_transparent true rfl rfl (by simp) ⟨0, numbered⟩

end Mcprog
