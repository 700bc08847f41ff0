import Mcprog.Library.Runs
import Mcprog.Remote.Socket

/-!
# One debugger after the other

Runs of the calls of the connection, in any order and with whatever the system makes of
them. Each byte that is received carries the number of its connection here, so that a read
can be seen to return a byte of an earlier one.
-/

namespace Mcprog

open Cells Interaction

/-- A byte with the number of the connection that it was received on. -/
structure Stamped where
  byte : Byte
  conn : Nat
  deriving DecidableEq, Repr

/-- A call, with what the system makes of it. -/
inductive SocketCall
  | sockOpen (o : OpenOutcome)
  | sockAccept (o : AcceptOutcome)
  | sockClose
  | readchar (o : RecvOutcome Byte)
  deriving DecidableEq, Repr

/-- The state between two calls. -/
structure SocketRun where
  sock : DbgSock Stamped
  /-- How many connections there have been. -/
  connections : Nat
  /-- The byte that the last call has returned. -/
  read : Option Stamped

/-- Before the first call. -/
def SocketRun.start : SocketRun where
  sock := { dbgSock := false, dbgListenSock := false, buf := ⟨fun _ => ⟨0, 0⟩, []⟩, count := 0, p := 0 }
  connections := 0
  read := none

def Readchar.char? {α : Type} : Readchar α → Option α
  | .char c => some c
  | .timeout => none
  | .err => none

/-- A call. There is no state after one whose assertion fails. -/
def SocketRun.call (r : SocketRun) : SocketCall → Option SocketRun
  | .sockOpen o => (dbgSockOpen r.sock o).map fun a => { r with sock := a.2, read := none }
  | .sockAccept o => (dbgSockAccept r.sock o).map fun a =>
      { sock := a.2, connections := if a.2.dbgSock then r.connections + 1 else r.connections, read := none }
  | .sockClose => some { r with sock := dbgSockClose r.sock, read := none }
  | .readchar o => (dbgSockReadchar r.sock (o.map fun c => ⟨c, r.connections⟩)).map fun a =>
      { r with sock := a.2, read := a.1.char? }

def socketStep (r : Option SocketRun) (c : SocketCall) : Option SocketRun := r.bind fun s => s.call c

/-- The state as the code has it, without the numbers. -/
structure UnstampedRun where
  sock : DbgSock Byte
  read : Option Byte

def UnstampedRun.call (r : UnstampedRun) : SocketCall → Option UnstampedRun
  | .sockOpen o => (dbgSockOpen r.sock o).map fun a => ⟨a.2, none⟩
  | .sockAccept o => (dbgSockAccept r.sock o).map fun a => ⟨a.2, none⟩
  | .sockClose => some ⟨dbgSockClose r.sock, none⟩
  | .readchar o => (dbgSockReadchar r.sock o).map fun a => ⟨a.2, a.1.char?⟩

def unstampedStep (r : Option UnstampedRun) (c : SocketCall) : Option UnstampedRun := r.bind fun s => s.call c

/-- The numbers are taken away. -/
def SocketRun.unstamped (r : SocketRun) : UnstampedRun := ⟨r.sock.map Stamped.byte, r.read.map Stamped.byte⟩

theorem Readchar.char?_map {α β : Type} (f : α → β) (r : Readchar α) : (r.map f).char? = r.char?.map f := by
  cases r <;> rfl

theorem RecvOutcome.map_stamped (o : RecvOutcome Byte) (n : Nat) :
    (o.map fun c => (⟨c, n⟩ : Stamped)).map Stamped.byte = o := by
  cases o with
  | selectTimeout => rfl
  | selectError => rfl
  | recvError => rfl
  | recv bytes =>
    have hbytes : (bytes.map fun c => (⟨c, n⟩ : Stamped)).map Stamped.byte = bytes := by
      rw [List.map_map]
      exact List.map_id bytes
    exact congrArg RecvOutcome.recv hbytes

/-- A call does with the numbers what the code does without them. -/
theorem SocketRun.call_unstamped (r : SocketRun) (c : SocketCall) :
    r.unstamped.call c = (r.call c).map SocketRun.unstamped := by
  cases c with
  | sockOpen o =>
    rw [UnstampedRun.call, SocketRun.call, unstamped, dbgSockOpen_map, Option.map_map, Option.map_map]
    rfl
  | sockAccept o =>
    rw [UnstampedRun.call, SocketRun.call, unstamped, dbgSockAccept_map, Option.map_map, Option.map_map]
    rfl
  | sockClose => rfl
  | readchar o =>
    have hread := dbgSockReadchar_map Stamped.byte r.sock (o.map fun c => ⟨c, r.connections⟩)
    rw [RecvOutcome.map_stamped] at hread
    rw [UnstampedRun.call, SocketRun.call, unstamped, hread, Option.map_map, Option.map_map]
    refine congrArg (fun f => Option.map f _) (funext fun a => ?_)
    exact congrArg (UnstampedRun.mk _) (Readchar.char?_map _ _)

/-- A run of the calls is one of the code. -/
theorem runFrom_unstamped (r : Option SocketRun) (calls : List SocketCall) :
    (runFrom socketStep r calls).map SocketRun.unstamped =
      runFrom unstampedStep (r.map SocketRun.unstamped) calls := by
  refine (List.foldl_hom (Option.map SocketRun.unstamped) fun r c => ?_).symm
  cases r with
  | none => rfl
  | some s => exact s.call_unstamped c

/-- The byte that was read last is one of the connection that is open. -/
def OwnByte (r : Option SocketRun) : Prop := ∀ s ∈ r, ∀ b ∈ s.read, b.conn = s.connections

/-- A call that closes a connection finds nothing in the buffer. -/
def ClosesEmpty (r : Option SocketRun) (c : SocketCall) : Prop :=
  c = .sockClose → ∀ s ∈ r, s.sock.count ≤ 0

/-- Nothing is pending where the count is not positive. -/
theorem DbgSock.pending_eq_nil {α : Type} {s : DbgSock α} : s.pending = [] ↔ s.count ≤ 0 := by
  rw [DbgSock.pending, Buffer.slice, List.map_eq_nil_iff, List.range_eq_nil, Int.toNat_eq_zero]

/-- What is pending is of the connection that is open; without one, there is nothing. -/
structure SocketRun.Owned (s : SocketRun) : Prop where
  pending : ∀ b ∈ s.sock.pending, b.conn = s.connections
  closed : s.sock.dbgSock = false → s.sock.pending = []
  read : ∀ b ∈ s.read, b.conn = s.connections

/-- Nothing is pending from a connection that there has not been. -/
def SocketRun.Past (s : SocketRun) : Prop := ∀ b ∈ s.sock.pending, b.conn ≤ s.connections

variable {s s' : SocketRun} {c : SocketCall}

/-- What a call leaves pending, and what it returns. -/
theorem call_cases (h : s.call c = some s') :
    (s'.sock.pending = s.sock.pending ∧ s'.read = none ∧
      ((s.sock.dbgSock = false ∧ s'.sock.dbgSock = true ∧ s'.connections = s.connections + 1) ∨
        (s'.sock.dbgSock = s.sock.dbgSock ∨ c = .sockClose) ∧ s'.connections = s.connections)) ∨
    (s'.connections = s.connections ∧ s.sock.dbgSock = true ∧ s'.sock.dbgSock = true ∧
      ((∃ b, s'.read = some b ∧ s.sock.pending = b :: s'.sock.pending) ∨
        (s'.read = none ∧ s'.sock.pending = []) ∨
        (∃ b, s'.read = some b ∧ ∀ b' ∈ b :: s'.sock.pending, b'.conn = s.connections))) := by
  cases c with
  | sockOpen o =>
    obtain ⟨a, ha, rfl⟩ := Option.map_eq_some_iff.mp h
    rw [dbgSockOpen.eq_def] at ha
    split at ha
    · cases o <;> obtain rfl := Option.some.inj ha <;>
        exact .inl ⟨rfl, rfl, .inr ⟨.inl rfl, rfl⟩⟩
    · exact absurd ha (by simp)
  | sockAccept o =>
    obtain ⟨a, ha, rfl⟩ := Option.map_eq_some_iff.mp h
    rw [dbgSockAccept.eq_def] at ha
    split at ha
    · next hclosed =>
      have hkept : (if s.sock.dbgSock then s.connections + 1 else s.connections) = s.connections :=
        if_neg (by rw [hclosed.1]; decide)
      cases o with
      | notListening =>
        obtain rfl := Option.some.inj ha
        exact .inl ⟨rfl, rfl, .inr ⟨.inl rfl, hkept⟩⟩
      | refused =>
        obtain rfl := Option.some.inj ha
        exact .inl ⟨rfl, rfl, .inr ⟨.inl rfl, hkept⟩⟩
      | noProtocol =>
        obtain rfl := Option.some.inj ha
        exact .inl ⟨rfl, rfl, .inl ⟨hclosed.1, rfl, rfl⟩⟩
      | accepted =>
        obtain rfl := Option.some.inj ha
        exact .inl ⟨rfl, rfl, .inl ⟨hclosed.1, rfl, rfl⟩⟩
    · exact absurd ha (by simp)
  | sockClose =>
    obtain rfl := Option.some.inj h
    exact .inl ⟨rfl, rfl, .inr ⟨.inr rfl, rfl⟩⟩
  | readchar o =>
    obtain ⟨⟨ret, sock⟩, ha, rfl⟩ := Option.map_eq_some_iff.mp h
    obtain ⟨hopen, hopen', hread⟩ := dbgSockReadchar_cases ha
    refine .inr ⟨rfl, hopen, hopen', ?_⟩
    rcases hread with ⟨b, rfl, hpending⟩ | ⟨-, hpending, rfl | rfl⟩ | ⟨bytes, b, -, ho, rfl, hbytes⟩
    · exact .inl ⟨b, rfl, hpending⟩
    · exact .inr (.inl ⟨rfl, hpending⟩)
    · exact .inr (.inl ⟨rfl, hpending⟩)
    · refine .inr (.inr ⟨b, rfl, fun b' hb' => ?_⟩)
      rw [← hbytes] at hb'
      have hmem := List.mem_of_mem_take hb'
      cases o with
      | selectTimeout => cases ho
      | selectError => cases ho
      | recvError => cases ho
      | recv received =>
        obtain rfl := RecvOutcome.recv.inj ho
        obtain ⟨c, -, rfl⟩ := List.mem_map.mp hmem
        rfl

/-- A close that finds nothing pending keeps what is pending to its connection, and so does
every other call. -/
theorem SocketRun.Owned.call (hs : s.Owned) (h : s.call c = some s') (hc : c = .sockClose → s.sock.count ≤ 0) :
    s'.Owned := by
  rcases call_cases h with ⟨hpending, hread, hconn⟩ | ⟨hconn, -, hopen, hread⟩
  · have hnone : ∀ b ∈ s'.read, b.conn = s'.connections := by
      rw [hread]
      exact fun b hb => absurd hb (by simp)
    rcases hconn with ⟨hclosed, hopen, -⟩ | ⟨hsame | hclose, hconn⟩
    · -- nothing is pending where a connection begins
      have hnil : s'.sock.pending = [] := hpending.trans (hs.closed hclosed)
      refine ⟨fun b hb => ?_, fun _ => hnil, hnone⟩
      rw [hnil] at hb
      exact absurd hb List.not_mem_nil
    · refine ⟨?_, ?_, hnone⟩
      · rw [hpending, hconn]
        exact hs.pending
      · rw [hpending, hsame]
        exact hs.closed
    · have hnil : s'.sock.pending = [] := hpending.trans (DbgSock.pending_eq_nil.mpr (hc hclose))
      refine ⟨fun b hb => ?_, fun _ => hnil, hnone⟩
      rw [hnil] at hb
      exact absurd hb List.not_mem_nil
  · have hclosed : s'.sock.dbgSock = false → s'.sock.pending = [] := by
      rw [hopen]
      exact fun h => absurd h (by decide)
    rw [← hconn] at hread
    rcases hread with ⟨b, hb, hpending⟩ | ⟨hnone, hnil⟩ | ⟨b, hb, hall⟩
    · have hall := hs.pending
      rw [hpending, ← hconn] at hall
      refine ⟨fun b' hb' => hall b' (List.mem_cons_of_mem b hb'), hclosed, fun b' hb' => ?_⟩
      rw [hb] at hb'
      obtain rfl := Option.some.inj hb'
      exact hall b List.mem_cons_self
    · refine ⟨fun b hb => ?_, hclosed, fun b hb => ?_⟩
      · rw [hnil] at hb
        exact absurd hb List.not_mem_nil
      · rw [hnone] at hb
        exact absurd hb (by simp)
    · refine ⟨fun b' hb' => hall b' (List.mem_cons_of_mem b hb'), hclosed, fun b' hb' => ?_⟩
      rw [hb] at hb'
      obtain rfl := Option.some.inj hb'
      exact hall b List.mem_cons_self

/-- A call leaves nothing pending from a connection that is to come. -/
theorem SocketRun.Past.call (hs : s.Past) (h : s.call c = some s') : s'.Past := by
  rcases call_cases h with ⟨hpending, -, hconn⟩ | ⟨hconn, -, -, hread⟩
  · intro b hb
    rw [hpending] at hb
    have hle := hs b hb
    rcases hconn with ⟨-, -, hconn⟩ | ⟨-, hconn⟩ <;> omega
  · intro b hb
    rw [hconn]
    rcases hread with ⟨b', -, hpending⟩ | ⟨-, hnil⟩ | ⟨b', -, hall⟩
    · exact hs b (by rw [hpending]; exact List.mem_cons_of_mem b' hb)
    · rw [hnil] at hb
      exact absurd hb List.not_mem_nil
    · exact (hall b (List.mem_cons_of_mem b' hb)).le

/-- Nothing is pending before the first call. -/
theorem SocketRun.Owned.start : SocketRun.start.Owned where
  pending := fun _ hb => absurd hb List.not_mem_nil
  closed := fun _ => rfl
  read := fun _ hb => absurd hb (by simp [SocketRun.start])

theorem SocketRun.Past.start : SocketRun.start.Past := fun _ hb => absurd hb List.not_mem_nil

/-- A state after a step comes from a state before it. -/
theorem mem_socketStep {r : Option SocketRun} (h : s' ∈ socketStep r c) : ∃ s ∈ r, s.call c = some s' :=
  Option.bind_eq_some_iff.mp h

/-- Where the closes find nothing in the buffer, what waits in it is of the connection that is
open. -/
theorem throughout_owned {calls : List SocketCall}
    (h : AtEachStep socketStep ClosesEmpty (some .start) calls) :
    Throughout socketStep (fun r => ∀ s ∈ r, s.Owned) (some .start) calls := by
  refine throughout_of_atEachStep socketStep (fun r c hr hc s' hs' => ?_) (fun s hs => ?_) h
  · obtain ⟨s, hs, hcall⟩ := mem_socketStep hs'
    exact (hr s hs).call hcall fun hclose => hc hclose s hs
  · obtain rfl := Option.some.inj hs
    exact .start

/-- In a run whose closes find nothing in the buffer, every byte that is read was received on
the connection that is open. -/
theorem ownByte_of_closesEmpty (calls : List SocketCall)
    (h : AtEachStep socketStep ClosesEmpty (some .start) calls) :
    Throughout socketStep OwnByte (some .start) calls :=
  fun l hl s hs => (throughout_owned h l hl s hs).read

/-- Only a close has to find the buffer empty. -/
theorem closesEmpty_of_ne (hc : c ≠ .sockClose) (r : Option SocketRun) : ClosesEmpty r c :=
  fun h => absurd h hc

/-- A run without a close has nothing to meet. -/
theorem atEachStep_of_not_mem {r : Option SocketRun} {calls : List SocketCall}
    (h : .sockClose ∉ calls) : AtEachStep socketStep ClosesEmpty r calls := by
  rintro l c t rfl
  exact closesEmpty_of_ne (fun hc => h (hc ▸ List.mem_append_right l List.mem_cons_self)) _

/-- Two debuggers, the first of which sends nothing but what is read of it. -/
def politeSessions : List SocketCall :=
  [.sockOpen .listening, .sockAccept .accepted, .readchar (.recv [ascii '+']), .sockClose,
    .sockOpen .listening, .sockAccept .accepted, .readchar (.recv [ascii '-'])]

/-- The second debugger reads its own byte. -/
theorem ownByte_politeSessions :
    AtEachStep socketStep ClosesEmpty (some .start) politeSessions ∧
      Throughout socketStep OwnByte (some .start) politeSessions := by
  have hempty : AtEachStep socketStep ClosesEmpty (some .start) politeSessions := by
    refine (atEachStep_cons socketStep).mpr ⟨closesEmpty_of_ne (by decide) _, ?_⟩
    refine (atEachStep_cons socketStep).mpr ⟨closesEmpty_of_ne (by decide) _, ?_⟩
    refine (atEachStep_cons socketStep).mpr ⟨closesEmpty_of_ne (by decide) _, ?_⟩
    refine (atEachStep_cons socketStep).mpr ⟨fun _ s hs => ?_, atEachStep_of_not_mem (by decide)⟩
    obtain rfl := Option.some.inj hs
    decide
  exact ⟨hempty, ownByte_of_closesEmpty politeSessions hempty⟩

/-- A debugger that kills the session and has sent a request behind it. The next one has sent
nothing yet when its connection is read. -/
def killedSessions : List SocketCall :=
  [.sockOpen .listening, .sockAccept .accepted, .readchar (.recv ("$k#6b$g#67".toList.map ascii)),
    .readchar .selectTimeout, .readchar .selectTimeout, .readchar .selectTimeout,
    .readchar .selectTimeout, .sockClose,
    .sockOpen .listening, .sockAccept .accepted, .readchar .selectTimeout]

/-- The byte that is read at the end is of the first connection. -/
theorem not_ownByte_killedSessions : ¬ Throughout socketStep OwnByte (some .start) killedSessions := by
  intro h
  obtain ⟨s, hs, b, hb, hfirst, hsecond⟩ : ∃ s, runFrom socketStep (some .start) killedSessions = some s ∧
      ∃ b, s.read = some b ∧ b.conn = 1 ∧ s.connections = 2 := ⟨_, rfl, _, rfl, rfl, rfl⟩
  have hown := h killedSessions (List.prefix_refl _) s hs b hb
  omega

/-- The condition is exact: the closes of a run find nothing in the buffer if and only if,
however the run is left and another connection goes on, a byte that is read is of it. -/
theorem atEachStep_closesEmpty_iff (calls : List SocketCall) :
    AtEachStep socketStep ClosesEmpty (some .start) calls ↔
      ∀ l more, l <+: calls → .sockClose ∉ more →
        Throughout socketStep OwnByte (some .start) (l ++ more) := by
  constructor
  · intro h l more hl hmore
    have hempty : AtEachStep socketStep ClosesEmpty (some .start) (l ++ more) :=
      (atEachStep_append socketStep).mpr ⟨h.of_prefix socketStep hl, atEachStep_of_not_mem hmore⟩
    exact fun l' hl' s hs => (throughout_owned hempty l' hl' s hs).read
  · rintro h l c r hcalls rfl s hs
    by_contra hcount
    have hpast : s.Past := by
      have hinv : Throughout socketStep (fun r => ∀ s ∈ r, s.Past) (some .start) l := by
        refine throughout_of_atEachStep (G := fun _ _ => True) socketStep (fun r c hr _ s' hs' => ?_)
          (fun s hs => ?_) (fun _ _ _ _ => trivial)
        · obtain ⟨s, hs, hcall⟩ := mem_socketStep hs'
          exact (hr s hs).call hcall
        · obtain rfl := Option.some.inj hs
          exact .start
      exact hinv l (List.prefix_refl l) s hs
    -- the byte that is read next was received before
    have hmem : s.sock.buf.get s.sock.p ∈ s.sock.pending := by
      obtain ⟨n, hn⟩ : ∃ n, s.sock.count.toNat = n + 1 := ⟨s.sock.count.toNat - 1, by omega⟩
      rw [DbgSock.pending, hn, Buffer.slice_succ']
      exact List.mem_cons_self
    have hold := hpast _ hmem
    have hrun : runFrom socketStep (some .start) (l ++ [.sockClose] ++
        [.sockOpen .listening, .sockAccept .accepted, .readchar .selectTimeout]) = some
          { sock := { dbgSock := true, dbgListenSock := false, buf := s.sock.buf,
                      count := s.sock.count - 1, p := s.sock.p + 1 }
            connections := s.connections + 1
            read := some (s.sock.buf.get s.sock.p) } := by
      rw [runFrom, List.append_assoc, List.foldl_append]
      change List.foldl socketStep (runFrom socketStep (some .start) l) _ = _
      rw [hs]
      change (dbgSockReadchar { s.sock with dbgSock := true, dbgListenSock := false } _).map _ = _
      rw [dbgSockReadchar.eq_def, if_pos rfl, if_pos (not_le.mp hcount)]
      rfl
    have hprefix : l ++ [.sockClose] <+: calls := ⟨r, by rw [hcalls, List.append_assoc]; rfl⟩
    have hown := h _ _ hprefix (by decide) _ (List.prefix_refl _) _ hrun _ rfl
    dsimp only at hown
    omega

end Mcprog
