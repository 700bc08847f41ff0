import Mcprog.Adapter.StandsFor
import Mcprog.Target.FlashDetect
import Mcprog.Target.FlashProgram

/-!
# The target over an adapter that stands for another one

Whatever `target.c` does with an adapter it does with one that stands for it: the same calls with
the same replies, the same answer or the same end.
-/

namespace Mcprog

open Interaction Program

variable {σ τ α : Type} {R : σ → τ → Prop} {A : Nat → Adapter σ} {B : Adapter τ}

/-- The loop of a method that takes blocks, over a method that is followed. -/
theorem follow_blockLoop {method : Nat → Word → List Word → Action σ Unit} {method' : Word → List Word → Action τ Unit}
    (hmethod : ∀ addr words, Follow R (fun fuel => method fuel addr words) (method' addr words))
    {size : Nat → Word} {blockWords : Word} (hsize : ∀ fuel, size fuel = blockWords) (turns : Nat) (nwords addr : Word)
    (data : Nat → Word) : Follow R (fun fuel => blockLoop (method fuel) (size fuel) turns nwords addr data)
      (blockLoop method' blockWords turns nwords addr data) := by
  simp only [hsize]
  induction turns generalizing nwords addr data with
  | zero => exact Tracks.ite (fun _ => tracks_stop _) fun _ => tracks_pure ()
  | succ turns ih =>
    exact Tracks.ite (fun _ => (hmethod _ _).bind fun _ => ih _ _ _) fun _ => tracks_pure ()

/-- A read in blocks follows where a read of one block does. -/
theorem follow_readBlocks {read : Nat → Word → Word → Extension σ (Nat → Word)}
    {read' : Word → Word → Extension τ (Nat → Word)}
    (hread : ∀ (args : Word × Word) event, Follow R (fun fuel => extension (read fuel args.1 args.2) event)
      (extension (read' args.1 args.2) event))
    {size : Nat → Word} {blockWords : Word} (hsize : ∀ fuel, size fuel = blockWords) (turns : Nat)
    (nwords addr : Word) : Follow R (fun fuel => readBlocks (read fuel) (size fuel) turns nwords addr)
      (readBlocks read' blockWords turns nwords addr) := by
  simp only [hsize]
  induction turns generalizing nwords addr with
  | zero => exact Tracks.ite (fun _ => tracks_stop _) fun _ => tracks_pure _
  | succ turns ih =>
    refine Tracks.ite (fun _ => ?_) fun _ => tracks_pure _
    exact (hread (_, addr) _).bind fun data => (ih _ _).bind fun rest => tracks_pure _

namespace ReachesMemoryAs

variable (h : ReachesMemoryAs R A B) (t : Target)

include h

/-- The waiting for the memory, by induction on the looks that are left. -/
theorem waitReady (timeout : String) (count : Nat) :
    Follow R (fun fuel => Mcprog.waitReady (A fuel) timeout count) (Mcprog.waitReady B timeout count) := by
  induction count with
  | zero => exact follow_getOscr.bind fun oscr => follow_fatal _ _ _
  | succ count ih =>
    refine (h.oncdRead (by decide)).bind fun oscr => (follow_setOscr oscr).bind fun _ => ?_
    exact Tracks.ite (fun _ => tracks_pure ()) fun _ => ih

/-- The next word is stored behind those before. -/
theorem targetWriteNext (physAddr data : Word) : Follow R (fun fuel => Mcprog.targetWriteNext (A fuel) t physAddr data)
    (Mcprog.targetWriteNext B t physAddr data) := by
  refine (h.oncdWrite _ (by decide)).bind fun _ => (h.oncdWrite _ (by decide)).bind fun _ =>
    (h.oncdWrite _ (by decide)).bind fun _ => ?_
  exact Tracks.ite (fun _ => h.waitReady _ _) fun _ => tracks_pure ()

/-- The register of the debugger is read and written back. -/
theorem allowMemory (f : Word → Word) :
    Follow R (fun fuel => Mcprog.allowMemory (A fuel) f) (Mcprog.allowMemory B f) := by
  refine follow_getOscr.bind fun oscr => Tracks.ite (fun _ => ?_) fun _ => tracks_pure ()
  exact (follow_setOscr _).bind fun _ => h.oncdWrite _ (by decide)

/-- `target_write_word`, on both. -/
theorem targetWriteWord (physAddr data : Word) : Follow R (fun fuel => Mcprog.targetWriteWord (A fuel) t physAddr data)
    (Mcprog.targetWriteWord B t physAddr data) :=
  (h.allowMemory _).bind fun _ => h.targetWriteNext t _ _

/-- `target_read_start`, on both. -/
theorem targetReadStart : Follow R (fun fuel => Mcprog.targetReadStart (A fuel)) (Mcprog.targetReadStart B) :=
  h.allowMemory _

/-- The address, the cycle, the waiting and the word. -/
theorem targetReadNext (physAddr : Word) :
    Follow R (fun fuel => Mcprog.targetReadNext (A fuel) physAddr) (Mcprog.targetReadNext B physAddr) :=
  (h.oncdWrite _ (by decide)).bind fun _ => (h.oncdWrite _ (by decide)).bind fun _ =>
    (h.waitReady _ _).bind fun _ => h.oncdRead (by decide)

/-- `target_read_word`, on both. -/
theorem targetReadWord (physAddr : Word) :
    Follow R (fun fuel => Mcprog.targetReadWord (A fuel) physAddr) (Mcprog.targetReadWord B physAddr) :=
  h.targetReadStart.bind fun _ => h.targetReadNext _

/-- Some words, by induction on them. -/
theorem writeNexts (args : List (Word × Word)) :
    Follow R (fun fuel => Mcprog.writeNexts (A fuel) t args) (Mcprog.writeNexts B t args) := by
  induction args with
  | nil => exact tracks_pure ()
  | cons a args ih => exact (h.targetWriteNext t _ _).bind fun _ => ih

/-- The words of a command of the flash memory: by one method, or one after the other. -/
theorem targetWriteNwords (first : Word × Word) (rest : List (Word × Word)) :
    Follow R (fun fuel => Mcprog.targetWriteNwords (A fuel) t first rest) (Mcprog.targetWriteNwords B t first rest) := by
  rcases h.shared_writeNwords with ⟨g, g', hg, hg', hcall⟩ | ⟨hg, hg'⟩
  · simp only [Mcprog.targetWriteNwords, hg, hg']
    exact hcall _ _
  · simp only [Mcprog.targetWriteNwords, hg, hg']
    exact (h.targetWriteWord t _ _).bind fun _ => h.writeNexts t rest

/-- A byte is stored on its lane. -/
theorem targetWriteByte (addr data : Word) : Follow R (fun fuel => Mcprog.targetWriteByte (A fuel) t addr data)
    (Mcprog.targetWriteByte B t addr data) := by
  rcases h.shared_writeNwords with ⟨g, g', hg, hg', -⟩ | ⟨hg, hg'⟩
  · simp only [Mcprog.targetWriteByte, hg, hg']
    exact h.targetWriteNwords t _ _
  · simp only [Mcprog.targetWriteByte, hg, hg']
    exact (h.targetWriteWord t _ _).bind fun _ => h.targetWriteNext t _ _

/-- Two bytes are stored, each on its lane. -/
theorem targetWrite2Bytes (addr1 data1 addr2 data2 : Word) :
    Follow R (fun fuel => Mcprog.targetWrite2Bytes (A fuel) t addr1 data1 addr2 data2)
      (Mcprog.targetWrite2Bytes B t addr1 data1 addr2 data2) := by
  rcases h.shared_writeNwords with ⟨g, g', hg, hg', -⟩ | ⟨hg, hg'⟩
  · simp only [Mcprog.targetWrite2Bytes, hg, hg']
    exact h.targetWriteNwords t _ _
  · simp only [Mcprog.targetWrite2Bytes, hg, hg']
    exact (h.targetWriteWord t _ _).bind fun _ => (h.targetWriteNext t _ _).bind fun _ =>
      (h.targetWriteNext t _ _).bind fun _ => h.targetWriteNext t _ _

/-- Some words at consecutive addresses, by induction on them. -/
theorem readNexts (n : Nat) (addr : Word) :
    Follow R (fun fuel => Mcprog.readNexts (A fuel) n addr) (Mcprog.readNexts B n addr) := by
  induction n generalizing addr with
  | zero => exact tracks_pure []
  | succ n ih => exact (h.targetReadNext addr).bind fun word => (ih _).bind fun rest => tracks_pure _

/-- `target_read_block` has a method on both, or on neither. -/
theorem targetReadBlock (addr nwords : Word) :
    Follow R (fun fuel => Mcprog.targetReadBlock (A fuel) addr nwords) (Mcprog.targetReadBlock B addr nwords) := by
  rcases h.shared_readBlock with ⟨g, g', hg, hg', hcall⟩ | ⟨hg, hg'⟩
  · simp only [Mcprog.targetReadBlock, hg, hg']
    exact follow_readBlocks hcall h.blockWords _ _ _
  · simp only [Mcprog.targetReadBlock, hg, hg']
    exact h.targetReadStart.bind fun _ => h.readNexts _ _

/-- Consecutive words, by induction on them. -/
theorem writeNextWords (words : List Word) (addr : Word) :
    Follow R (fun fuel => Mcprog.writeNextWords (A fuel) t words addr) (Mcprog.writeNextWords B t words addr) := by
  induction words generalizing addr with
  | nil => exact tracks_pure ()
  | cons word words ih => exact (h.targetWriteNext t _ _).bind fun _ => ih _

/-- `target_write_block` has a method on both, or on neither. -/
theorem targetWriteBlock (addr nwords : Word) (data : Nat → Word) :
    Follow R (fun fuel => Mcprog.targetWriteBlock (A fuel) t addr nwords data)
      (Mcprog.targetWriteBlock B t addr nwords data) := by
  rcases h.shared_writeBlock with ⟨g, g', hg, hg', hcall⟩ | ⟨hg, hg'⟩
  · simp only [Mcprog.targetWriteBlock, hg, hg']
    exact follow_blockLoop (fun addr words => hcall (addr, words) _) h.blockWords _ _ _ _
  · simp only [Mcprog.targetWriteBlock, hg, hg']
    exact (h.targetWriteWord t _ _).bind fun _ => h.writeNextWords t _ _

omit h in
/-- The base of the flash memory is computed from the target alone. -/
theorem computeBase (addr : Word) :
    Follow R (fun _ => (t.computeBase addr : Action σ Word)) (t.computeBase addr : Action τ Word) := by
  unfold Target.computeBase
  cases t.findRegion (physical addr) with
  | none => exact follow_fatal _ _ _
  | some r => exact tracks_pure _

/-- The status of the chip is polled, by induction on the polls that are left. -/
theorem pollStatus (addr mask : Word) (timeout : Nat) :
    Follow R (fun fuel => Mcprog.pollStatus (A fuel) addr mask timeout) (Mcprog.pollStatus B addr mask timeout) := by
  induction timeout with
  | zero => exact (h.targetReadWord addr).bind fun _ => tracks_pure _
  | succ timeout ih =>
    exact (h.targetReadWord addr).bind fun status => Tracks.ite (fun _ => tracks_pure _) fun _ => ih

/-- The words of an erase command. -/
theorem eraseWords (base addr cmd : Word) : Follow R (fun fuel => Mcprog.eraseWords (A fuel) t base addr cmd)
    (Mcprog.eraseWords B t base addr cmd) :=
  (h.targetWriteWord t _ _).bind fun _ => (h.targetWriteWord t _ _).bind fun _ => (h.targetWriteWord t _ _).bind fun _ =>
    (h.targetWriteWord t _ _).bind fun _ => (h.targetWriteWord t _ _).bind fun _ => h.targetWriteWord t _ _

/-- The erase command on either kind of chip. -/
theorem eraseSequence (base addr cmd : Word) : Follow R (fun fuel => Mcprog.eraseSequence (A fuel) t base addr cmd)
    (Mcprog.eraseSequence B t base addr cmd) := by
  refine Tracks.ite (fun _ => ?_) fun _ => Tracks.ite (fun _ => h.targetWriteNwords t _ _) fun _ => ?_
  · exact (h.targetWriteByte t _ _).bind fun _ => (h.targetWriteByte t _ _).bind fun _ =>
      (h.targetWriteByte t _ _).bind fun _ => (h.targetWriteByte t _ _).bind fun _ =>
        (h.targetWriteByte t _ _).bind fun _ => h.targetWriteByte t _ _
  · exact (h.eraseWords t _ _ _).bind fun _ =>
      Tracks.ite (fun _ => h.eraseWords t _ _ _) fun _ => tracks_pure ()

/-- The end of an erase is waited for, by induction on the polls that are left. -/
theorem waitErased (addr : Word) (turns : Nat) :
    Follow R (fun fuel => Mcprog.waitErased (A fuel) addr turns) (Mcprog.waitErased B addr turns) := by
  induction turns with
  | zero => exact tracks_stop _
  | succ turns ih =>
    exact (h.targetReadWord addr).bind fun word => Tracks.ite (fun _ => tracks_pure ()) fun _ => ih

/-- The blocks of a Micron chip, one after the other. -/
theorem eraseMicron (base : Word) (turns : Nat) (offset : Word) :
    Follow R (fun fuel => Mcprog.eraseMicron (A fuel) t base turns offset)
      (Mcprog.eraseMicron B t base turns offset) := by
  induction turns generalizing offset with
  | zero => exact tracks_stop _
  | succ turns ih =>
    refine Tracks.ite (fun _ => ?_) fun _ => (h.targetWriteWord t _ _).bind fun _ => tracks_pure _
    refine (h.targetWriteWord t _ _).bind fun _ => (h.targetWriteWord t _ _).bind fun _ =>
      (h.pollStatus _ _ _).bind fun ok => ?_
    exact Tracks.ite (fun _ => ih _) fun _ => tracks_pure _

/-- `target_erase`, for as long as its polls last. -/
theorem targetErase (addr : Word) (turns : Nat) :
    Follow R (fun fuel => Mcprog.targetErase (A fuel) t addr turns) (Mcprog.targetErase B t addr turns) := by
  refine (computeBase t addr).bind fun base => ?_
  have hend (ok : Bool) : Follow R
      (fun fuel => if ok = true then do Mcprog.waitErased (A fuel) base turns; pure true else pure false)
      (if ok = true then do Mcprog.waitErased B base turns; pure true else pure false) :=
    Tracks.ite (fun _ => (h.waitErased _ _).bind fun _ => tracks_pure _) fun _ => tracks_pure _
  refine Tracks.ite (fun _ => (h.eraseMicron t _ _ _).bind hend) fun _ => ?_
  exact (h.eraseSequence t _ _ _).bind fun _ => (tracks_pure true).bind hend

/-- A block of a Micron chip is unlocked and erased. -/
theorem eraseSectorMicron (addr : Word) :
    Follow R (fun fuel => Mcprog.eraseSectorMicron (A fuel) t addr) (Mcprog.eraseSectorMicron B t addr) := by
  refine (h.targetWriteWord t _ _).bind fun _ => (h.targetWriteWord t _ _).bind fun _ =>
    (h.pollStatus _ _ _).bind fun ok => ?_
  exact Tracks.ite (fun _ => (h.targetWriteWord t _ _).bind fun _ => tracks_pure _) fun _ => tracks_pure _

/-- The end of a sector is waited for. -/
theorem finishSector (addr : Word) (turns : Nat) :
    Follow R (fun fuel => Mcprog.finishSector (A fuel) addr turns) (Mcprog.finishSector B addr turns) :=
  (h.waitErased _ _).bind fun _ => (h.targetReadWord _).bind fun _ => tracks_pure _

/-- `target_erase_sector`, on both. -/
theorem targetEraseSector (addr : Word) (turns : Nat) :
    Follow R (fun fuel => Mcprog.targetEraseSector (A fuel) t addr turns) (Mcprog.targetEraseSector B t addr turns) := by
  refine (computeBase t addr).bind fun base => Tracks.ite (fun _ => ?_) fun _ => ?_
  · exact (h.eraseSectorMicron t _).bind fun ok => Tracks.ite (fun _ => h.finishSector _ _) fun _ => tracks_pure _
  · exact (h.eraseSequence t _ _ _).bind fun _ => h.finishSector _ _

/-- The sectors of an area, by induction on the steps that are left. -/
theorem eraseSectors (addr len : Word) (turns steps : Nat) (curLen : Word) :
    Follow R (fun fuel => Mcprog.eraseSectors (A fuel) t addr len turns steps curLen)
      (Mcprog.eraseSectors B t addr len turns steps curLen) := by
  induction steps generalizing curLen with
  | zero => exact tracks_stop _
  | succ steps ih =>
    refine Tracks.ite (fun _ => (h.targetEraseSector t _ _).bind fun ok => ?_) fun _ => tracks_pure _
    exact Tracks.ite (fun _ => ih _) fun _ => tracks_pure _

/-- `target_erase_area`, on both. -/
theorem targetEraseArea (addr len : Word) (turns : Nat) :
    Follow R (fun fuel => Mcprog.targetEraseArea (A fuel) t addr len turns)
      (Mcprog.targetEraseArea B t addr len turns) :=
  h.eraseSectors t _ _ _ _ _

/-- A word is programmed by its four stores. -/
theorem programWord (base addr data : Word) : Follow R (fun fuel => Mcprog.programWord (A fuel) t base addr data)
    (Mcprog.programWord B t base addr data) :=
  h.targetWriteNwords t _ _

/-- Consecutive words are programmed, by induction on them. -/
theorem programWords (base : Word) (words : List Word) (addr : Word) :
    Follow R (fun fuel => Mcprog.programWords (A fuel) t base words addr) (Mcprog.programWords B t base words addr) := by
  induction words generalizing addr with
  | nil => exact tracks_pure ()
  | cons word words ih => exact (h.programWord t _ _ _).bind fun _ => ih _

/-- Consecutive words are programmed byte by byte. -/
theorem programBytes (words : List Word) (addr : Word) :
    Follow R (fun fuel => Mcprog.programBytes (A fuel) t words addr) (Mcprog.programBytes B t words addr) := by
  induction words generalizing addr with
  | nil => exact tracks_pure ()
  | cons word words ih =>
    exact (h.targetWrite2Bytes t _ _ _ _).bind fun _ => (h.targetWrite2Bytes t _ _ _ _).bind fun _ =>
      (h.targetWrite2Bytes t _ _ _ _).bind fun _ => (h.targetWrite2Bytes t _ _ _ _).bind fun _ => ih _

/-- `target_program_block8`, on both. -/
theorem targetProgramBlock8 (addr base nwords : Word) (data : Nat → Word) :
    Follow R (fun fuel => Mcprog.targetProgramBlock8 (A fuel) t addr base nwords data)
      (Mcprog.targetProgramBlock8 B t addr base nwords data) :=
  (h.targetWrite2Bytes t _ _ _ _).bind fun _ => (h.targetWriteByte t _ _).bind fun _ =>
    (h.programBytes t _ _).bind fun _ => h.targetWrite2Bytes t _ _ _ _

/-- `target_program_block32` has a method on both, or on neither. -/
theorem targetProgramBlock32 (addr base nwords : Word) (data : Nat → Word) :
    Follow R (fun fuel => Mcprog.targetProgramBlock32 (A fuel) t addr base nwords data)
      (Mcprog.targetProgramBlock32 B t addr base nwords data) := by
  rcases h.shared_programBlock32 with ⟨g, g', hg, hg', hcall⟩ | ⟨hg, hg'⟩
  · simp only [Mcprog.targetProgramBlock32, hg, hg']
    exact follow_blockLoop (fun addr words => hcall _ _) h.programBlockWords _ _ _ _
  · simp only [Mcprog.targetProgramBlock32, hg, hg']
    exact h.programWords t _ _ _

/-- A command is given again until the status is right, by induction on the polls that are left. -/
theorem pollCommand (addr cmd mask : Word) (timeout : Nat) :
    Follow R (fun fuel => Mcprog.pollCommand (A fuel) t addr cmd mask timeout)
      (Mcprog.pollCommand B t addr cmd mask timeout) := by
  induction timeout with
  | zero => exact (h.targetWriteWord t _ _).bind fun _ => (h.targetReadWord _).bind fun _ => tracks_pure _
  | succ timeout ih =>
    exact (h.targetWriteWord t _ _).bind fun _ => (h.targetReadWord _).bind fun status =>
      Tracks.ite (fun _ => tracks_pure _) fun _ => ih

/-- The words of a buffer, by induction on them. -/
theorem writeWords (words : List Word) (addr : Word) :
    Follow R (fun fuel => Mcprog.writeWords (A fuel) t words addr) (Mcprog.writeWords B t words addr) := by
  induction words generalizing addr with
  | nil => exact tracks_pure ()
  | cons word words ih => exact (h.targetWriteWord t _ _).bind fun _ => ih _

/-- A buffer of a Micron chip, by its packet or by the stores of the count, the words and the end. -/
theorem programBuffer (sectorAddr addr : Word) (n : Nat) (data : Nat → Word) :
    Follow R (fun fuel => Mcprog.programBuffer (A fuel) t sectorAddr addr n data)
      (Mcprog.programBuffer B t sectorAddr addr n data) := by
  rcases h.shared_micron with ⟨g, g', hg, hg', hcall⟩ | ⟨hg, hg'⟩
  · simp only [Mcprog.programBuffer, hg, hg']
    exact hcall (addr, _) _
  · simp only [Mcprog.programBuffer, hg, hg']
    exact (h.targetWriteWord t _ _).bind fun _ => (h.writeWords t _ _).bind fun _ => h.targetWriteWord t _ _

/-- The buffers of a block, by induction on the turns that are left. -/
theorem programBuffers (sectorAddr : Word) (turns : Nat) (nwords addr : Word) (data : Nat → Word) :
    Follow R (fun fuel => Mcprog.programBuffers (A fuel) t sectorAddr turns nwords addr data)
      (Mcprog.programBuffers B t sectorAddr turns nwords addr data) := by
  induction turns generalizing nwords addr data with
  | zero => exact Tracks.ite (fun _ => tracks_stop _) fun _ => tracks_pure _
  | succ turns ih =>
    refine Tracks.ite (fun _ => (h.pollCommand t _ _ _ _).bind fun ok => ?_) fun _ => tracks_pure _
    exact Tracks.ite (fun _ => (h.programBuffer t _ _ _ _).bind fun _ => ih _ _ _) fun _ => tracks_pure _

/-- `target_program_block32_micron`, on both. -/
theorem targetProgramBlock32Micron (addr nwords : Word) (data : Nat → Word) :
    Follow R (fun fuel => Mcprog.targetProgramBlock32Micron (A fuel) t addr nwords data)
      (Mcprog.targetProgramBlock32Micron B t addr nwords data) := by
  refine (h.programBuffers t _ _ _ _ _).bind fun filled => ?_
  refine Tracks.ite (fun _ => (h.pollStatus _ _ _).bind fun ready => ?_) fun _ => h.targetWriteWord t _ _
  refine Tracks.ite (fun _ => (h.pollCommand t _ _ _ _).bind fun _ => ?_) fun _ => h.targetWriteWord t _ _
  exact h.targetWriteWord t _ _

/-- A page of an Atmel chip, by the packets for it. -/
theorem programPagePackets {protect : Nat → ProgramArgs → Extension σ Unit} {protect' : ProgramArgs → Extension τ Unit}
    (hprotect : ∀ args event, Follow R (fun fuel => extension (protect fuel args) event) (extension (protect' args) event))
    (base addr : Word) (data : Nat → Word) :
    Follow R (fun fuel => Mcprog.programPagePackets (A fuel) t (protect fuel) base addr data)
      (Mcprog.programPagePackets B t protect' base addr data) := by
  rcases h.shared_unprotect with ⟨g, g', hg, hg', hcall⟩ | ⟨hg, hg'⟩
  · simp only [Mcprog.programPagePackets, hg, hg']
    exact (hcall _ _).bind fun _ => hprotect _ _
  · simp only [Mcprog.programPagePackets, hg, hg']
    exact (tracks_stop _).bind fun _ => hprotect _ _

/-- A page of an Atmel chip, word by word. -/
theorem programPageWords (base addr : Word) (data : Nat → Word) :
    Follow R (fun fuel => Mcprog.programPageWords (A fuel) t base addr data)
      (Mcprog.programPageWords B t base addr data) :=
  (h.targetWriteNwords t _ _).bind fun _ => (h.targetWriteBlock t _ _ _).bind fun _ =>
    (h.targetWriteNwords t _ _).bind fun _ => h.targetWriteBlock t _ _ _

/-- The pages of a block by packets, by induction on the turns that are left. -/
theorem pagePacketsLoop {protect : Nat → ProgramArgs → Extension σ Unit} {protect' : ProgramArgs → Extension τ Unit}
    (hprotect : ∀ args event, Follow R (fun fuel => extension (protect fuel args) event) (extension (protect' args) event))
    (base : Word) (turns : Nat) (nwords addr : Word) (data : Nat → Word) :
    Follow R (fun fuel => Mcprog.pagePacketsLoop (A fuel) t (protect fuel) base turns nwords addr data)
      (Mcprog.pagePacketsLoop B t protect' base turns nwords addr data) := by
  induction turns generalizing nwords addr data with
  | zero => exact Tracks.ite (fun _ => tracks_stop _) fun _ => tracks_pure ()
  | succ turns ih =>
    refine Tracks.ite (fun _ => (h.programPagePackets t hprotect _ _ _).bind fun _ => ?_) fun _ => tracks_pure ()
    exact Tracks.ite (fun _ => tracks_pure ()) fun _ => ih _ _ _

/-- The pages of a block word by word, by induction on the turns that are left. -/
theorem pageWordsLoop (base : Word) (turns : Nat) (nwords addr : Word) (data : Nat → Word) :
    Follow R (fun fuel => Mcprog.pageWordsLoop (A fuel) t base turns nwords addr data)
      (Mcprog.pageWordsLoop B t base turns nwords addr data) := by
  induction turns generalizing nwords addr data with
  | zero => exact tracks_stop _
  | succ turns ih =>
    exact Tracks.ite (fun _ => (h.programPageWords t _ _ _).bind fun _ => ih _ _ _) fun _ => tracks_pure ()

/-- `target_program_block32_atmel` has the methods of the pages on both, or on neither. -/
theorem targetProgramBlock32Atmel (addr base nwords : Word) (data : Nat → Word) (turns : Nat) :
    Follow R (fun fuel => Mcprog.targetProgramBlock32Atmel (A fuel) t addr base nwords data turns)
      (Mcprog.targetProgramBlock32Atmel B t addr base nwords data turns) := by
  rcases h.shared_protect with ⟨g, g', hg, hg', hcall⟩ | ⟨hg, hg'⟩
  · simp only [Mcprog.targetProgramBlock32Atmel, hg, hg']
    exact h.pagePacketsLoop t hcall _ _ _ _ _
  · simp only [Mcprog.targetProgramBlock32Atmel, hg, hg']
    exact h.pageWordsLoop t _ _ _ _ _

/-- `target_program_block64` has a method on both, or on neither. -/
theorem targetProgramBlock64 (addr base nwords : Word) (data : Nat → Word) :
    Follow R (fun fuel => Mcprog.targetProgramBlock64 (A fuel) t addr base nwords data)
      (Mcprog.targetProgramBlock64 B t addr base nwords data) := by
  rcases h.shared_programBlock64 with ⟨g, g', hg, hg', hcall⟩ | ⟨hg, hg'⟩
  · simp only [Mcprog.targetProgramBlock64, hg, hg']
    exact follow_blockLoop (fun addr words => hcall _ _) h.programBlockWords _ _ _ _
  · simp only [Mcprog.targetProgramBlock64, hg, hg']
    exact h.programWords t _ _ _

/-- The block is programmed as the chip asks for, which the target knows. -/
theorem targetProgramBlock (addr nwords : Word) (data : Nat → Word) (turns : Nat) :
    Follow R (fun fuel => Mcprog.targetProgramBlock (A fuel) t addr nwords data turns)
      (Mcprog.targetProgramBlock B t addr nwords data turns) := by
  refine (computeBase t addr).bind fun base => Tracks.ite (fun _ => h.targetProgramBlock8 t _ _ _ _) fun _ =>
    Tracks.ite (fun _ => ?_) fun _ => ?_
  · exact Tracks.ite (fun _ => h.targetProgramBlock32Micron t _ _ _) fun _ =>
      Tracks.ite (fun _ => h.targetProgramBlock32Atmel t _ _ _ _ _) fun _ => h.targetProgramBlock32 t _ _ _ _
  · exact Tracks.ite (fun _ => h.targetProgramBlock64 t _ _ _ _) fun _ => tracks_pure ()

/-- A word is programmed again, one byte of it where the bus has eight bits. -/
theorem targetFlashRewrite (addr bad expected : Word) :
    Follow R (fun fuel => Mcprog.targetFlashRewrite (A fuel) t addr bad expected)
      (Mcprog.targetFlashRewrite B t addr bad expected) := by
  refine (computeBase t addr).bind fun base => Tracks.ite (fun _ => ?_) fun _ => Tracks.ite (fun _ => ?_) fun _ => ?_
  · exact (h.targetWrite2Bytes t _ _ _ _).bind fun _ => (h.targetWrite2Bytes t _ _ _ _).bind fun _ => tracks_pure _
  · exact Tracks.ite (fun _ => tracks_pure _) fun _ => (h.programWord t _ _ _).bind fun _ => tracks_pure _
  · exact tracks_pure _

/-- The numbers of a chip on a bus of eight bits. -/
theorem readIdByte (base : Word) (count : Nat) : Follow R (fun fuel => Mcprog.readIdByte (A fuel) t base count)
    (Mcprog.readIdByte B t base count) :=
  (h.targetWriteByte t _ _).bind fun _ => (h.targetWriteByte t _ _).bind fun _ => (h.targetWriteByte t _ _).bind fun _ =>
    (h.targetReadWord _).bind fun _ => (h.targetWriteByte t _ _).bind fun _ => (h.targetWriteByte t _ _).bind fun _ =>
      (h.targetWriteByte t _ _).bind fun _ => tracks_pure _

/-- The numbers of a chip that takes its time. -/
theorem readIdDelay (base : Word) :
    Follow R (fun fuel => Mcprog.readIdDelay (A fuel) t base) (Mcprog.readIdDelay B t base) :=
  (h.targetWriteNwords t _ _).bind fun _ => (h.targetReadWord _).bind fun _ => (h.targetReadWord _).bind fun _ =>
    (h.targetWriteNwords t _ _).bind fun _ => tracks_pure _

/-- The numbers of a chip on a wide bus. -/
theorem readIdWord (base : Word) :
    Follow R (fun fuel => Mcprog.readIdWord (A fuel) t base) (Mcprog.readIdWord B t base) :=
  (h.targetWriteWord t _ _).bind fun _ => (h.targetWriteWord t _ _).bind fun _ => (h.targetWriteWord t _ _).bind fun _ =>
    (h.targetReadWord _).bind fun _ => (h.targetReadWord _).bind fun _ => (h.targetWriteWord t _ _).bind fun _ =>
      tracks_pure _

/-- The numbers of a chip are read as the attempt says. -/
theorem readId (base : Word) (count : Nat) :
    Follow R (fun fuel => Mcprog.readId (A fuel) t base count) (Mcprog.readId B t base count) :=
  Tracks.ite (fun _ => h.readIdByte t _ _) fun _ =>
    Tracks.ite (fun _ => h.readIdDelay t _) fun _ => h.readIdWord t _

/-- The attempts in their order: each one ends the detection where its numbers are known. -/
theorem detectAttempts (base : Word) (counts : List Nat) (id : FlashId) :
    Follow R (fun fuel => Mcprog.detectAttempts (A fuel) base counts t id) (Mcprog.detectAttempts B base counts t id) := by
  induction counts generalizing t id with
  | nil => exact tracks_pure _
  | cons count counts ih =>
    refine (h.readId _ _ _).bind fun id => ?_
    cases hchip : findChip (selectVariant t count).toFlashVariant id.dev with
    | none => exact ih _ _
    | some c => exact tracks_pure _

/-- `target_flash_detect`, on both. -/
theorem targetFlashDetect (addr : Word) (id : FlashId) :
    Follow R (fun fuel => Mcprog.targetFlashDetect (A fuel) t addr id) (Mcprog.targetFlashDetect B t addr id) := by
  refine (computeBase t addr).bind fun base => (h.detectAttempts t _ _ _).bind fun d => ?_
  exact Tracks.ite (fun _ => (h.targetWriteWord d.target _ _).bind fun _ => tracks_pure _) fun _ => tracks_pure _

end ReachesMemoryAs

end Mcprog
