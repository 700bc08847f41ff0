import Mcprog.Adapter.Interface
import Mcprog.Library.Effects
import Mcprog.Library.Tap

/-!
# Bulk transfers

The serial adapters talk to their USB chip through `usb_bulk_write` and `usb_bulk_read`. The
library under them is left open: a write takes some of the bytes that it is given, a read
delivers at most what it is asked for, and both may fail.
-/

namespace Mcprog

open Interaction Jtag

/-- The bulk endpoints of a USB device. -/
structure BulkPipe (σ : Type) where
  /-- `usb_bulk_write`: how many of the bytes are taken, if it does not fail. -/
  write : List Byte → σ → Option Nat × σ
  /-- `usb_bulk_read`: the bytes that arrive, if it does not fail. -/
  read : Nat → σ → Option (List Byte) × σ
  write_le : ∀ {bytes s n}, (write bytes s).1 = some n → n ≤ bytes.length
  read_le : ∀ {size s reply}, (read size s).1 = some reply → reply.length ≤ size

/-- One bulk transfer: what is asked for, and what comes of it. -/
inductive Transfer
  | write (bytes : List Byte) (written : Option Nat)
  | read (size : Nat) (reply : Option (List Byte))
  deriving DecidableEq, Repr

/-- The bytes that the device takes. -/
def Transfer.taken : Transfer → List Byte
  | .write bytes (some n) => bytes.take n
  | .write _ none => []
  | .read _ _ => []

/-- The bytes that are given to the library. -/
def Transfer.given : Transfer → List Byte
  | .write bytes _ => bytes
  | .read _ _ => []

/-- An adapter's own data, with the device behind it. -/
structure Attached (κ σ : Type) where
  own : κ
  usb : σ

/-- A program of an adapter that makes bulk transfers. -/
abbrev UsbAction (κ σ α : Type) : Type := Program Transfer (Attached κ σ) Fatal α

section Transfers

variable {κ σ : Type} (pipe : BulkPipe σ)

/-- `usb_bulk_write (a->usbdev, IN_EP, bytes, size, 1000)`. -/
def usbBulkWrite (bytes : List Byte) : UsbAction κ σ (Option Nat) :=
  Program.request (fun a => .ok ((pipe.write bytes a.usb).1,
    { a with usb := (pipe.write bytes a.usb).2 })) fun written => .write bytes written

/-- `usb_bulk_read (a->usbdev, OUT_EP, reply, size, 2000)`. -/
def usbBulkRead (size : Nat) : UsbAction κ σ (Option (List Byte)) :=
  Program.request (fun a => .ok ((pipe.read size a.usb).1,
    { a with usb := (pipe.read size a.usb).2 })) fun reply => .read size reply

/-- The adapter's own data. -/
def getOwn : UsbAction κ σ κ := do
  return (← Program.read).own

/-- Change the adapter's own data. -/
def setOwn (f : κ → κ) : UsbAction κ σ Unit :=
  Program.update fun a => { a with own := f a.own }

variable {pipe} {a a' : Attached κ σ} {tr : List Transfer}

/-- A write takes no more than it is given, and leaves the adapter's own data alone. -/
theorem usbBulkWrite_returns {bytes : List Byte} {written : Option Nat}
    (h : (usbBulkWrite pipe bytes).Returns a written tr a') :
    tr = [.write bytes written] ∧ a'.own = a.own ∧ ∀ n ∈ written, n ≤ bytes.length := by
  obtain ⟨heq, htr⟩ := Program.returns_request_iff.mp h
  simp only [Except.ok.injEq, Prod.mk.injEq] at heq
  obtain ⟨hwritten, rfl⟩ := heq
  exact ⟨htr, rfl, fun n hn => pipe.write_le (hwritten.trans hn)⟩

/-- A read delivers no more than it is asked for, and leaves the adapter's own data alone. -/
theorem usbBulkRead_returns {size : Nat} {reply : Option (List Byte)}
    (h : (usbBulkRead pipe size).Returns a reply tr a') :
    tr = [.read size reply] ∧ a'.own = a.own ∧ ∀ bytes ∈ reply, bytes.length ≤ size := by
  obtain ⟨heq, htr⟩ := Program.returns_request_iff.mp h
  simp only [Except.ok.injEq, Prod.mk.injEq] at heq
  obtain ⟨hreply, rfl⟩ := heq
  exact ⟨htr, rfl, fun bytes hbytes => pipe.read_le (hreply.trans hbytes)⟩

/-- The variables of the adapter are looked at. -/
theorem getOwn_returns : (getOwn : UsbAction κ σ κ).Returns a a.own [] a := rfl

/-- Reading the own data is not seen from outside. -/
theorem getOwn_bind {α : Type} (f : κ → UsbAction κ σ α) : (getOwn >>= f) a = f a.own a := rfl

/-- The variables of the adapter are changed. -/
theorem setOwn_returns (f : κ → κ) :
    (setOwn f : UsbAction κ σ Unit).Returns a () [] { a with own := f a.own } := rfl

/-- A transfer to the device does not end the program. -/
theorem stopsFor_usbBulkWrite {F : Fatal → Prop} {bytes : List Byte} :
    Program.StopsFor (usbBulkWrite pipe bytes : UsbAction κ σ _) F :=
  Program.stopsFor_request fun _ _ h => nomatch h

/-- A transfer from the device does not end the program. -/
theorem stopsFor_usbBulkRead {F : Fatal → Prop} {size : Nat} :
    Program.StopsFor (usbBulkRead pipe size : UsbAction κ σ _) F :=
  Program.stopsFor_request fun _ _ h => nomatch h

/-- A look at the variables does not end the program. -/
theorem stopsFor_getOwn {F : Fatal → Prop} : Program.StopsFor (getOwn : UsbAction κ σ κ) F :=
  Program.stopsFor_read.bind fun _ => Program.stopsFor_pure

/-- A change of the variables does not end the program. -/
theorem stopsFor_setOwn {F : Fatal → Prop} (f : κ → κ) :
    Program.StopsFor (setOwn f : UsbAction κ σ Unit) F := Program.stopsFor_update

/-- The library takes all that it is given and delivers all that it is asked for. -/
def BulkPipe.Prompt (pipe : BulkPipe σ) : Prop :=
  (∀ bytes s, (pipe.write bytes s).1 = some bytes.length) ∧
    ∀ size s, ∃ reply, (pipe.read size s).1 = some reply ∧ reply.length = size

/-- A device that takes everything and delivers zeros. -/
def zeroPipe : BulkPipe Unit where
  write bytes _ := (some bytes.length, ())
  read size _ := (some (List.replicate size 0), ())
  write_le h := (Option.some.inj h).symm.le
  read_le h := by rw [← Option.some.inj h, List.length_replicate]

/-- The device of the examples takes and answers at once. -/
theorem prompt_zeroPipe : zeroPipe.Prompt :=
  ⟨fun _ _ => rfl, fun size _ => ⟨List.replicate size 0, rfl, List.length_replicate⟩⟩

end Transfers

/-- The register lengths that the program uses. -/
abbrev RegLen : Type := { n : Nat // n = 0 ∨ n = 12 ∨ n = 16 ∨ n = 32 }

/-- The `data` of both adapters: 64 bits of which a register write sends the low ones. -/
def oncdWriteData (value reg : Word) (reglen : Nat) : BitVec 64 :=
  if reglen > 0 then reg.signExtend 64 ||| (value.setWidth 64 <<< 9) else reg.signExtend 64

/-- The bytes of a number are its bits. -/
theorem flatMap_leBytes (n : Nat) (x : BitVec 64) :
    ((leBytes n x).flatMap fun b => lowBits b 8) = lowBits x (8 * n) := by
  induction n with
  | zero => rfl
  | succ n ih =>
    have hlast : leBytes (n + 1) x = leBytes n x ++ [(x >>> (8 * n)).setWidth 8] := by
      rw [leBytes, List.range_succ, List.map_append]
      rfl
    rw [hlast, List.flatMap_append, ih, Nat.mul_succ, lowBits_add, List.flatMap_singleton,
      lowBits_setWidth _ (le_refl 8)]

/-- The bits that a register write shifts: the register number, and the value behind it. -/
theorem lowBits_oncdWriteData (value reg : Word) (reglen : RegLen) :
    lowBits (oncdWriteData value reg reglen) (9 + reglen.val) =
      lowBits (reg.signExtend 64 ||| (value.setWidth 64 <<< 9)) (9 + reglen.val) := by
  unfold oncdWriteData
  split
  · rfl
  · have hzero : reglen.val = 0 := by omega
    refine List.map_congr_left fun i hi => ?_
    have hi' : i < 9 := by
      rw [hzero] at hi
      exact List.mem_range.mp hi
    rw [BitVec.getLsbD_or, BitVec.getLsbD_shiftLeft, decide_eq_true hi']
    simp

end Mcprog
