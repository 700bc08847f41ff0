import Mcprog.Library.Confined
import Mcprog.Loader.Checksums
import Mcprog.Loader.Loads

/-!
# Which cells the loaders access

What the two loaders have in common: no line is empty, a number is read from two characters, and a
record is refused, or its bytes are stored one after the other.
-/

namespace Mcprog

open Interaction Cells Program

/-- Before anything is loaded. -/
def nothingLoaded : LoadState := ⟨fun _ => 0, 0, fun _ => 0, fun _ => 0, 0⟩

variable {s : LoadState} {P : Access → Prop}

/-- No line is empty. -/
theorem fgetsLines_ne_nil {file line : List Byte} (h : line ∈ fgetsLines file) : line ≠ [] := by
  suffices hsplit : ∀ fuel file, line ∈ splitLines fuel file → line ≠ [] from hsplit _ _ h
  intro fuel
  induction fuel with
  | zero => exact fun file hmem => absurd hmem List.not_mem_nil
  | succ fuel ih =>
    intro file hmem
    cases file with
    | nil => exact absurd hmem List.not_mem_nil
    | cons c file =>
      rcases List.mem_cons.mp hmem with rfl | hmem
      · rw [show bufSize - 1 = 254 + 1 from rfl, fgetsLine]
        split
        · exact List.cons_ne_nil _ _
        · exact List.cons_ne_nil _ _
      · exact ih _ hmem

/-- The number that two characters of the buffer stand for. -/
def LoadState.hexVal (s : LoadState) (i : Nat) : Int := nibble (s.buf i) * 16 + nibble (s.buf (i + 1))

/-- A character of the line is looked at. -/
theorem readChar_reachesBy {i : Nat} (hP : P (.readBuf i s.stored)) :
    ReachesBy P (readChar i) s (s.buf i) s := by
  refine ReachesBy.bind (a := (s.buf i, s.stored)) (reachesBy_request rfl ?_) (reachesBy_pure _ s)
  exact hP

/-- Two digits are looked at, and those before them. -/
theorem hexAt_reachesBy {i : Nat} (hP : ∀ j < i + 2, P (.readBuf j s.stored)) :
    ReachesBy P (hexAt i) s (s.hexVal i) s :=
  (readChar_reachesBy (hP i (by omega))).bind ((readChar_reachesBy (hP (i + 1) (by omega))).bind
    (reachesBy_pure _ s))

/-- Some digits are looked at, by induction on their places. -/
theorem allDigits_reachesBy {is : List Nat} (hP : ∀ i ∈ is, P (.readBuf i s.stored)) :
    ReachesBy P (allDigits is) s (is.all fun i => isxdigit (s.buf i)) s := by
  induction is with
  | nil => exact reachesBy_pure true s
  | cons i is ih =>
    refine (readChar_reachesBy (hP i List.mem_cons_self)).bind ?_
    rw [List.all_cons]
    cases isxdigit (s.buf i) with
    | true => exact ih fun j hj => hP j (List.mem_cons_of_mem i hj)
    | false => exact reachesBy_pure false s

theorem writeOutput_reachesBy {i : Nat} (b : Byte) (hP : P (.writeOutput i)) :
    ReachesBy P (writeOutput i b) s () { s with output := store s.output i [b] } :=
  reachesBy_request rfl hP

/-- A store into one of the arrays. -/
def Access.IsStore : Access → Prop
  | .writeData _ | .writeOutput _ => True
  | .readBuf _ _ | .readData _ => False

/-- The run issues events of `P` only, and refuses the file. -/
def RefusesBy {α : Type} (P : Access → Prop) (m : Load α) (s : LoadState) : Prop :=
  Confined P m s ∧ ∃ e, (m s).result = .error e ∧ Refusal e

theorem refusesBy_refuse {α : Type} (text : String) (values : List Word) (s : LoadState) :
    RefusesBy P (refuse text values : Load α) s :=
  ⟨confined_stop _ s, _, rfl, text, values, rfl⟩

/-- What ends later has made only these accesses before. -/
theorem RefusesBy.of_continuesBy {α : Type} {m m' : Load α} {s' : LoadState}
    (h : ContinuesBy P m s m' s') (h' : RefusesBy P m' s') : RefusesBy P m s := by
  refine ⟨(h.confined_iff fun _ he => he).mpr h'.1, ?_⟩
  rw [h.result]
  exact h'.2

theorem RefusesBy.bind {α β : Type} {m : Load α} {f : α → Load β} (h : RefusesBy P m s) :
    RefusesBy P (m >>= f) s := by
  obtain ⟨htr, e, hres, he⟩ := h
  unfold RefusesBy Confined
  rw [bind_apply, hres]
  exact ⟨htr, e, rfl, he⟩

theorem RefusesBy.mono {α : Type} {m : Load α} {Q : Access → Prop} (h : RefusesBy P m s)
    (hP : ∀ e, P e → Q e) : RefusesBy Q m s := ⟨h.1.mono hP, h.2⟩

/-- The checks of the address let a record through. They are made modulo `2^32`. -/
def AddressPasses (memoryBase address : Word) (bytes : Int) : Prop :=
  baseFor memoryBase address ≤ address ∧
    (address - baseFor memoryBase address + BitVec.ofInt 32 bytes).toNat ≤ memorySize

instance (memoryBase address : Word) (bytes : Int) : Decidable (AddressPasses memoryBase address bytes) :=
  instDecidableAnd

/-- A record of `n` bytes lies between `memory_base` and the end of `memory_data`. -/
def InImage (memoryBase address : Word) (n : Nat) : Prop :=
  baseFor memoryBase address ≤ address ∧ (address - baseFor memoryBase address).toNat + n ≤ memorySize

instance (memoryBase address : Word) (n : Nat) : Decidable (InImage memoryBase address n) :=
  instDecidableAnd

/-- The end of a record that is computed, as long as it does not wrap around. -/
theorem placedEnd_toNat {off : Word} {n : Nat} (h : off.toNat + n < 2 ^ 32) :
    (off + BitVec.ofInt 32 (n : Int)).toNat = off.toNat + n := by
  rw [BitVec.ofInt_natCast, BitVec.toNat_add, BitVec.toNat_ofNat]
  omega

variable {byteAt : Nat → Load Byte} {address : Word} {bytes len : Int}

/-- The base is decided without an access to an array. -/
theorem detectBase_reachesBy (address : Word) : ReachesBy P (detectBase address) s
    (baseFor s.memoryBase address) { s with memoryBase := baseFor s.memoryBase address } := by
  refine (reachesBy_read s).bind ?_
  unfold baseFor
  split
  · exact (reachesBy_update _ s).bind (reachesBy_pure _ _)
  · exact reachesBy_pure _ _

/-- A record that the checks do not let through is refused. -/
theorem placeRecord_refuses (h : ¬ AddressPasses s.memoryBase address bytes) (len : Int) :
    RefusesBy P (placeRecord address bytes byteAt len) s := by
  refine .of_continuesBy (detectBase_reachesBy address).continuesBy ?_
  split
  · exact refusesBy_refuse _ _ _
  · rename_i hlow
    dsimp only
    split
    · exact refusesBy_refuse _ _ _
    · rename_i hhigh
      exact absurd ⟨BitVec.not_lt.mp hlow, not_lt.mp hhigh⟩ h

variable (byteAt) in
/-- The bytes of one that they let through are stored. -/
theorem placeRecord_continuesBy (h : AddressPasses s.memoryBase address bytes) (len : Int) :
    ∃ next : Unit → Load Int, (∀ s', ∃ len', ReachesBy P (next ()) s' len' s') ∧
      ContinuesBy P (placeRecord address bytes byteAt len) s
        (copyBytes byteAt (address - baseFor s.memoryBase address) bytes.toNat 0 >>= next)
        { s with memoryBase := baseFor s.memoryBase address } := by
  refine ⟨fun _ => pure (if len < (address - baseFor s.memoryBase address +
      BitVec.ofNat 32 bytes.toNat).toInt then (address - baseFor s.memoryBase address +
      BitVec.ofNat 32 bytes.toNat).toInt else len), fun s' => ⟨_, reachesBy_pure _ s'⟩, ?_⟩
  have hdetect : ContinuesBy P (placeRecord address bytes byteAt len) s _ _ :=
    (detectBase_reachesBy address).continuesBy
  dsimp only at hdetect
  rwa [if_neg (BitVec.not_lt.mpr h.1), if_neg (not_lt.mpr h.2)] at hdetect

/-- The bytes come from cells of `P`, and the source changes nothing. -/
def ReadsFrom (P : Access → Prop) (byteAt : Nat → Load Byte) (stored n : Nat) : Prop :=
  ∀ i < n, ∀ t : LoadState, t.stored = stored → ∃ b, ReachesBy P (byteAt i) t b t

variable (address) in
/-- Bytes are copied one by one, by induction on how many are left. -/
theorem copyBytes_reachesBy {stored m : Nat} (hread : ReadsFrom P byteAt stored m)
    (hwrite : ∀ i < m, P (.writeOutput (address + BitVec.ofNat 32 i).toNat)) {n i : Nat}
    (hn : i + n = m) {t : LoadState} (ht : t.stored = stored) :
    ∃ t', ReachesBy P (copyBytes byteAt address n i) t () t' := by
  induction n generalizing i t with
  | zero => exact ⟨t, reachesBy_pure () t⟩
  | succ n ih =>
    obtain ⟨b, hb⟩ := hread i (by omega) t ht
    obtain ⟨t', hrest⟩ := @ih (i + 1) (by omega)
      { t with output := store t.output (address + BitVec.ofNat 32 i).toNat [b] } ht
    exact ⟨t', hb.bind ((writeOutput_reachesBy b (hwrite i (by omega))).bind hrest)⟩

/-- The first byte is stored at the address. -/
theorem copyBytes_first {stored n : Nat} {Q : Access → Prop} (hread : ReadsFrom Q byteAt stored (n + 1))
    {t : LoadState} (ht : t.stored = stored)
    (h : Confined P (copyBytes byteAt address (n + 1) 0) t) : P (.writeOutput address.toNat) := by
  obtain ⟨b, hb⟩ := hread 0 (Nat.succ_pos n) t ht
  have hrest := (confined_bind_iff.mp h).2 _ _ hb.reaches
  have hfirst := hrest.of_bind (.writeOutput (address + BitVec.ofNat 32 0).toNat) (List.mem_singleton_self _)
  rwa [show address + BitVec.ofNat 32 0 = address from BitVec.add_zero address] at hfirst

/-- A record is placed inside the image if the places of its bytes are there. -/
theorem placeRecord_confined (hread : ReadsFrom P byteAt s.stored bytes.toNat)
    (hwrite : ∀ i < memorySize, P (.writeOutput i))
    (hfit : ∀ i < bytes.toNat, (address - baseFor s.memoryBase address).toNat + i < memorySize) (len : Int) :
    Confined P (placeRecord address bytes byteAt len) s := by
  by_cases hpass : AddressPasses s.memoryBase address bytes
  · have hplaces : ∀ i < bytes.toNat,
        P (.writeOutput (address - baseFor s.memoryBase address + BitVec.ofNat 32 i).toNat) := by
      intro i hi
      have hlt := hfit i hi
      have hsize : memorySize = 0x1000000 := rfl
      apply hwrite
      rw [BitVec.toNat_add, BitVec.toNat_ofNat]
      omega
    obtain ⟨next, hnext, hplace⟩ := placeRecord_continuesBy (P := P) byteAt hpass len
    obtain ⟨t', hcopy⟩ := copyBytes_reachesBy _ (t := { s with memoryBase := baseFor s.memoryBase address })
      hread hplaces (Nat.zero_add _) rfl
    obtain ⟨len', hlen⟩ := hnext t'
    exact (hplace.confined_iff fun _ he => he).mpr (hcopy.bind hlen).confined
  · exact (placeRecord_refuses hpass len).1

/-- The first byte of a record that the checks let through is stored where it begins. -/
theorem placeRecord_first {Q : Access → Prop} (hpass : AddressPasses s.memoryBase address bytes)
    (hpos : 0 < bytes.toNat) (hread : ReadsFrom Q byteAt s.stored bytes.toNat)
    (h : Confined P (placeRecord address bytes byteAt len) s) :
    P (.writeOutput (address - baseFor s.memoryBase address).toNat) := by
  obtain ⟨next, -, hplace⟩ := placeRecord_continuesBy (P := fun _ => False) byteAt hpass len
  have hcopy := ((hplace.confined_iff fun _ he => False.elim he).mp h).of_bind
  obtain ⟨n, hn⟩ : ∃ n, bytes.toNat = n + 1 := ⟨bytes.toNat - 1, by omega⟩
  rw [hn] at hcopy hread
  exact copyBytes_first (t := { s with memoryBase := baseFor s.memoryBase address }) hread rfl hcopy

end Mcprog
