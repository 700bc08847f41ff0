import Mcprog.Loader.Decode

/-!
# Placing the records of a file

A loader that takes data records in their order, whatever the text that they stand in: what
it leaves in `memory_data` and in `memory_base`. The two formats are shown to be such
loaders afterwards.
-/

namespace Mcprog

open Interaction Cells

variable {s : LoadState}

theorem writeOutput_reaches (i : Nat) (b : Byte) :
    (writeOutput i b).Reaches s () { s with output := store s.output i [b] } :=
  Program.reaches_request rfl

/-- A source of bytes gives a list, as long as the buffers stay as they are. -/
def Gives (byteAt : Nat → Load Byte) (s : LoadState) (xs : List Byte) : Prop :=
  ∀ i b, xs[i]? = some b → ∀ t : LoadState, t.buf = s.buf → t.data = s.data →
    (byteAt i).Reaches t b t

/-- The bytes from one on are stored one after the other. -/
theorem copyBytes_reaches {byteAt : Nat → Load Byte} (address : Word) {xs : List Byte}
    (hgives : Gives byteAt s xs) (hfit : address.toNat + xs.length ≤ 2 ^ 32) (n i : Nat)
    (hn : i + n = xs.length) {t : LoadState} (hbuf : t.buf = s.buf) (hdata : t.data = s.data) :
    (copyBytes byteAt address n i).Reaches t ()
      { t with output := store t.output (address.toNat + i) (xs.drop i) } := by
  induction n generalizing i t with
  | zero =>
    rw [List.drop_eq_nil_of_le (by omega), store_nil]
    exact Program.reaches_pure () t
  | succ n ih =>
    have hi : i < xs.length := by omega
    have hb := List.getElem?_eq_getElem hi
    have haddr : (address + BitVec.ofNat 32 i).toNat = address.toNat + i := by
      rw [BitVec.toNat_add, BitVec.toNat_ofNat]
      omega
    rw [List.drop_eq_getElem_cons hi, store_cons, Nat.add_assoc]
    apply (hgives i _ hb t hbuf hdata).bind
    rw [haddr]
    exact (writeOutput_reaches _ _).bind (ih (i + 1) (by omega) hbuf hdata)

/-- The base that a record sets, or finds. -/
def baseFor (memoryBase address : Word) : Word := if memoryBase = 0 then address else memoryBase

/-- The base is decided by the first address. -/
theorem detectBase_reaches (address : Word) : (detectBase address).Reaches s
    (baseFor s.memoryBase address) { s with memoryBase := baseFor s.memoryBase address } := by
  apply (Program.reaches_read s).bind
  unfold baseFor
  split
  · exact (Program.reaches_update _ s).bind (Program.reaches_pure _ _)
  · exact Program.reaches_pure _ _

/-- A record that fits behind the base is placed there. -/
theorem placeRecord_reaches {r : DataRecord} {A : Nat} {byteAt : Nat → Load Byte} (len : Int)
    (hA : A < 2 ^ 32) (haddr : r.addr < 2 ^ 32)
    (hbase : baseFor s.memoryBase (BitVec.ofNat 32 r.addr) = BitVec.ofNat 32 A)
    (hlow : A ≤ r.addr) (hhigh : r.last ≤ A + memorySize) (hgives : Gives byteAt s r.data) :
    (placeRecord (BitVec.ofNat 32 r.addr) r.data.length byteAt len).Reaches s
      (max len (r.last - A : Nat))
      { s with
        memoryBase := BitVec.ofNat 32 A
        output := store s.output (r.addr - A) r.data } := by
  have hsize : memorySize = 0x1000000 := rfl
  have hlast : r.last = r.addr + r.data.length := rfl
  have hA' : (BitVec.ofNat 32 A).toNat = A := by
    rw [BitVec.toNat_ofNat, Nat.mod_eq_of_lt hA]
  have haddr' : (BitVec.ofNat 32 r.addr).toNat = r.addr := by
    rw [BitVec.toNat_ofNat, Nat.mod_eq_of_lt haddr]
  have hle : BitVec.ofNat 32 A ≤ BitVec.ofNat 32 r.addr := by
    rw [BitVec.le_def, hA', haddr']
    exact hlow
  have hsub : (BitVec.ofNat 32 r.addr - BitVec.ofNat 32 A).toNat = r.addr - A := by
    rw [BitVec.toNat_sub_of_le hle, hA', haddr']
  have hend : (BitVec.ofNat 32 r.addr - BitVec.ofNat 32 A + BitVec.ofNat 32 r.data.length).toNat =
      r.last - A := by
    rw [BitVec.toNat_add, hsub, BitVec.toNat_ofNat]
    omega
  have hint : (BitVec.ofNat 32 r.addr - BitVec.ofNat 32 A +
      BitVec.ofNat 32 r.data.length).toInt = (r.last - A : Nat) := by
    rw [BitVec.toInt_eq_toNat_of_lt (by rw [hend]; omega), hend]
  unfold placeRecord
  apply (detectBase_reaches _).bind
  rw [hbase, if_neg (by rw [BitVec.lt_def, hA', haddr']; omega)]
  simp only [BitVec.ofInt_natCast, hend, Int.toNat_natCast, hint]
  rw [if_neg (by omega)]
  have hgives' : Gives byteAt { s with memoryBase := BitVec.ofNat 32 A } r.data := hgives
  have hcopy := copyBytes_reaches (BitVec.ofNat 32 r.addr - BitVec.ofNat 32 A) hgives'
    (by rw [hsub]; omega) r.data.length 0 (Nat.zero_add _) rfl rfl
  rw [hsub, List.drop_zero, Nat.add_zero] at hcopy
  have hmax : max len ((r.last - A : Nat) : Int) =
      if len < ((r.last - A : Nat) : Int) then ((r.last - A : Nat) : Int) else len := by
    split <;> omega
  rw [hmax]
  exact hcopy.bind (Program.reaches_pure _ _)

/-- What the parts of a loader keep. -/
def KeepsBase {α : Type} (m : Load α) : Prop :=
  ∀ s a s', m.Reaches s a s' → s'.memoryBase = s.memoryBase

theorem KeepsBase.bind {α β : Type} {m : Load α} {f : α → Load β} (hm : KeepsBase m)
    (hf : ∀ a, KeepsBase (f a)) : KeepsBase (m >>= f) := by
  rintro s b s' ⟨tr, h⟩
  obtain ⟨a, tr₁, s₁, tr₂, h₁, h₂, -⟩ := Program.returns_bind_iff.mp h
  rw [hf a _ _ _ h₂.reaches, hm _ _ _ h₁.reaches]

theorem keepsBase_pure {α : Type} (a : α) : KeepsBase (pure a) := by
  rintro s b s' ⟨tr, h⟩
  rw [(Program.returns_pure_iff.mp h).2.2]

/-- A byte of the image is stored, and the base kept. -/
theorem keepsBase_writeOutput (i : Nat) (b : Byte) : KeepsBase (writeOutput i b) := by
  intro s u s' h
  rw [(h.unique (writeOutput_reaches i b)).2]

theorem keepsBase_copyBytes {byteAt : Nat → Load Byte} (h : ∀ i, KeepsBase (byteAt i))
    (address : Word) (n i : Nat) : KeepsBase (copyBytes byteAt address n i) := by
  induction n generalizing i with
  | zero => exact keepsBase_pure ()
  | succ n ih => exact (h i).bind fun b => (keepsBase_writeOutput _ b).bind fun _ => ih (i + 1)

/-- A record that is placed leaves the base that it sets or finds. -/
theorem placeRecord_memoryBase {byteAt : Nat → Load Byte} (hkeeps : ∀ i, KeepsBase (byteAt i))
    {address : Word} {bytes len len' : Int} {s' : LoadState}
    (h : (placeRecord address bytes byteAt len).Reaches s len' s') :
    s'.memoryBase = baseFor s.memoryBase address := by
  unfold placeRecord at h
  have h := (detectBase_reaches address).continues.reaches_iff.mp h
  split at h
  · obtain ⟨tr, h⟩ := h
    exact absurd h Program.not_returns_stop
  · dsimp only at h
    split at h
    · obtain ⟨tr, h⟩ := h
      exact absurd h Program.not_returns_stop
    · exact ((keepsBase_copyBytes hkeeps _ _ _).bind fun _ => keepsBase_pure _) _ _ _ h

/-- Two states with the same image and base. -/
def SameImage (s s' : LoadState) : Prop := s'.memoryBase = s.memoryBase ∧ s'.output = s.output

theorem SameImage.trans {s s' s'' : LoadState} (h : SameImage s s') (h' : SameImage s' s'') :
    SameImage s s'' := ⟨h'.1.trans h.1, h'.2.trans h.2⟩

/-- A loader places records one after the other, each with the bytes of the record, and
answers with the length of the image. What it does besides changes the buffers only. -/
inductive Places : Load Int → LoadState → Int → List DataRecord → Prop
  | done {m : Load Int} {s s' : LoadState} {len : Int} (goes : m.Continues s (pure len) s')
      (same : SameImage s s') : Places m s len []
  | record {m : Load Int} {s s' : LoadState} {len : Int} {r : DataRecord} {rs : List DataRecord}
      {byteAt : Nat → Load Byte} {next : Int → Load Int} (isAddr : r.addr < 2 ^ 32)
      (goes : m.Continues s
        (placeRecord (BitVec.ofNat 32 r.addr) r.data.length byteAt len >>= next) s')
      (same : SameImage s s') (gives : Gives byteAt s' r.data)
      (keeps : ∀ i, KeepsBase (byteAt i)) (rest : ∀ len' s'', Places (next len') s'' len' rs) :
      Places m s len (r :: rs)

/-- What goes on as a loader of records is one. -/
theorem Places.of_continues {m m' : Load Int} {s' : LoadState} {len : Int}
    {rs : List DataRecord} (h : m.Continues s m' s') (hsame : SameImage s s')
    (h' : Places m' s' len rs) : Places m s len rs := by
  cases h' with
  | done goes same => exact .done (h.trans goes) (hsame.trans same)
  | record isAddr goes same gives keeps rest =>
    exact .record isAddr (h.trans goes) (hsame.trans same) gives keeps rest

/-- Each record finds or sets the base `A`. -/
def Steady (A : Nat) (memoryBase : Word) (rs : List DataRecord) : Prop :=
  (memoryBase = BitVec.ofNat 32 A ∨ memoryBase = 0 ∧ ∀ r ∈ rs.head?, r.addr = A) ∧
    (A ≠ 0 ∨ ∀ r ∈ rs, r.addr = 0)

/-- The base of a steady file is found or set by its first record. -/
theorem Steady.base {A : Nat} {memoryBase : Word} {r : DataRecord} {rs : List DataRecord}
    (hA : A < 2 ^ 32) (h : Steady A memoryBase (r :: rs)) :
    baseFor memoryBase (BitVec.ofNat 32 r.addr) = BitVec.ofNat 32 A := by
  obtain ⟨hbase | ⟨hzero, hhead⟩, hsteady⟩ := h
  · unfold baseFor
    split
    · rename_i hzero
      rcases hsteady with hne | hall
      · have hmod : A % 2 ^ 32 = 0 := by
          rw [← BitVec.toNat_ofNat, ← hbase, hzero]
          rfl
        omega
      · rw [hall r List.mem_cons_self, ← hbase, hzero]
        rfl
    · exact hbase
  · rw [baseFor, if_pos hzero, hhead r rfl]

/-- The largest end of a record, from a length on. -/
def maxEnd (A : Nat) (len : Int) (rs : List DataRecord) : Int :=
  rs.foldl (fun len r => max len (r.last - A : Nat)) len

/-- The stores of the records, from the base on. -/
def recordStores (A : Nat) (rs : List DataRecord) : List (Nat × List Byte) :=
  rs.map fun r => (r.addr - A, r.data)

/-- A steady file is placed record by record. -/
theorem Places.reaches {m : Load Int} {len : Int} {rs : List DataRecord} (h : Places m s len rs)
    {A : Nat} (hA : A < 2 ^ 32) (hsteady : Steady A s.memoryBase rs)
    (hfit : ∀ r ∈ rs, A ≤ r.addr ∧ r.last ≤ A + memorySize) :
    ∃ s', m.Reaches s (maxEnd A len rs) s' ∧
      s'.output = storeAll s.output (recordStores A rs) ∧
      s'.memoryBase = if rs = [] then s.memoryBase else BitVec.ofNat 32 A := by
  induction h with
  | done goes same =>
    exact ⟨_, goes.reaches_iff.mpr (Program.reaches_pure _ _), same.2, same.1⟩
  | @record m s s' len r rs byteAt next isAddr goes same gives keeps rest ih =>
    obtain ⟨hlow, hhigh⟩ := hfit r List.mem_cons_self
    have hbase := hsteady.base hA
    rw [← same.1] at hbase
    have hplace := placeRecord_reaches len hA isAddr hbase hlow hhigh gives
    have hsteady' : Steady A (BitVec.ofNat 32 A) rs :=
      ⟨.inl rfl, hsteady.2.imp_right fun h r hr => h r (List.mem_cons_of_mem _ hr)⟩
    obtain ⟨s'', hrest, houtput, hmemory⟩ := ih _
      { s' with memoryBase := BitVec.ofNat 32 A, output := store s'.output (r.addr - A) r.data }
      hsteady' fun r hr => hfit r (List.mem_cons_of_mem _ hr)
    refine ⟨s'', goes.reaches_iff.mpr (hplace.bind hrest), ?_, ?_⟩
    · rw [houtput, ← same.2]
      rfl
    · rw [hmemory, if_neg (List.cons_ne_nil r rs)]
      exact ite_self _

/-- The base that the records leave. -/
theorem Places.memoryBase {m : Load Int} {len len' : Int} {rs : List DataRecord}
    (h : Places m s len rs) {s' : LoadState} (hr : m.Reaches s len' s') :
    s'.memoryBase = rs.foldl (fun b r => baseFor b (BitVec.ofNat 32 r.addr)) s.memoryBase := by
  induction h generalizing len' with
  | done goes same =>
    rw [((goes.reaches_iff.mp hr).unique (Program.reaches_pure _ _)).2]
    exact same.1
  | record isAddr goes same gives keeps rest ih =>
    obtain ⟨tr, hr⟩ := goes.reaches_iff.mp hr
    obtain ⟨len'', tr₁, s₁, tr₂, h₁, h₂, -⟩ := Program.returns_bind_iff.mp hr
    rw [ih len'' s₁ h₂.reaches, placeRecord_memoryBase keeps h₁.reaches, same.1]
    rfl

/-- A base that is not 0 stays. -/
theorem foldl_baseFor_of_ne {memoryBase : Word} (h : memoryBase ≠ 0) (rs : List DataRecord) :
    rs.foldl (fun b r => baseFor b (BitVec.ofNat 32 r.addr)) memoryBase = memoryBase := by
  induction rs with
  | nil => rfl
  | cons r rs ih =>
    rw [List.foldl_cons, baseFor, if_neg h]
    exact ih

/-- An address that is not 0 is found as a base. -/
theorem foldl_baseFor_ne_zero {rs : List DataRecord} (haddr : ∀ r ∈ rs, r.addr < 2 ^ 32)
    (h : ∃ r ∈ rs, r.addr ≠ 0) :
    rs.foldl (fun b r => baseFor b (BitVec.ofNat 32 r.addr)) 0 ≠ 0 := by
  induction rs with
  | nil => simp at h
  | cons r rs ih =>
    rw [List.foldl_cons, baseFor, if_pos rfl]
    by_cases hr : r.addr = 0
    · rw [hr]
      apply ih fun r' hr' => haddr r' (List.mem_cons_of_mem _ hr')
      obtain ⟨r', hr', hne⟩ := h
      rcases List.mem_cons.mp hr' with rfl | hr'
      · exact absurd hr hne
      · exact ⟨r', hr', hne⟩
    · have hne : BitVec.ofNat 32 r.addr ≠ 0 := by
        intro hzero
        have hnat := congrArg BitVec.toNat hzero
        rw [BitVec.toNat_ofNat, Nat.mod_eq_of_lt (haddr r List.mem_cons_self)] at hnat
        exact hr hnat
      rw [foldl_baseFor_of_ne hne]
      exact hne

end Mcprog
