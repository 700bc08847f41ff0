import Mcprog.Library.Buffers
import Mcprog.Oncd.Registers

/-!
# The connection to the debugger

The functions of `rpmisc.c` that open, accept, close and read the connection. The buffer of
`dbg_sock_readchar` and what it counts are static: they are there before a connection and
stay behind it. What a call of the system finds is an argument here. What is received may be
of any type, since these functions do not look at it.
-/

namespace Mcprog

open Cells

/-- `PACKET_BUFF_SIZE`. -/
def packetBuffSize : Nat := 8192

/-- The static variables. Of a socket they say here whether it is open. -/
structure DbgSock (α : Type) where
  dbgSock : Bool
  dbgListenSock : Bool
  buf : Buffer α
  count : Int
  p : Nat

/-- What `socket` and `bind` make of a call of `dbg_sock_open`. -/
inductive OpenOutcome
  | noSocket
  | noPort
  | listening
  deriving DecidableEq, Repr

/-- What `listen`, `accept` and `getprotobyname` make of a call of `dbg_sock_accept`. -/
inductive AcceptOutcome
  | notListening
  | refused
  | noProtocol
  | accepted
  deriving DecidableEq, Repr

/-- What `select` and `recv` find. The connection has ended where `recv` finds no bytes. -/
inductive RecvOutcome (α : Type)
  | selectTimeout
  | selectError
  | recvError
  | recv (bytes : List α)
  deriving DecidableEq, Repr

/-- What `dbg_sock_readchar` returns. -/
inductive Readchar (α : Type)
  | char (c : α)
  | timeout
  | err
  deriving DecidableEq, Repr

variable {α β : Type}

/-- `dbg_sock_open`. There is no result where its assertion fails. -/
def dbgSockOpen (s : DbgSock α) (o : OpenOutcome) : Option (Bool × DbgSock α) :=
  if s.dbgSock = false ∧ s.dbgListenSock = false then
    match o with
    | .noSocket => some (false, s)
    | .noPort => some (false, { s with dbgListenSock := true })
    | .listening => some (true, { s with dbgListenSock := true })
  else none

/-- `dbg_sock_accept`. Without a protocol it fails, and the connection is open. -/
def dbgSockAccept (s : DbgSock α) (o : AcceptOutcome) : Option (Bool × DbgSock α) :=
  if s.dbgSock = false ∧ s.dbgListenSock = true then
    match o with
    | .notListening => some (false, s)
    | .refused => some (false, s)
    | .noProtocol => some (false, { s with dbgSock := true })
    | .accepted => some (true, { s with dbgSock := true, dbgListenSock := false })
  else none

/-- `dbg_sock_close`. -/
def dbgSockClose (s : DbgSock α) : DbgSock α := { s with dbgSock := false, dbgListenSock := false }

/-- The end of `dbg_sock_readchar`, with what `recv` has stored. -/
def DbgSock.received (s : DbgSock α) : List α → Readchar α × DbgSock α
  | [] => (.err, { s with count := 0 })
  | c :: cs => (.char c, { s with buf := s.buf.setAll 0 (c :: cs), p := 1, count := cs.length })

/-- `dbg_sock_readchar`. The system is called where nothing is buffered only. -/
def dbgSockReadchar (s : DbgSock α) (o : RecvOutcome α) : Option (Readchar α × DbgSock α) :=
  if s.dbgSock = true then
    if 0 < s.count then
      some (.char (s.buf.get s.p), { s with p := s.p + 1, count := s.count - 1 })
    else
      match o with
      | .selectTimeout => some (.timeout, s)
      | .selectError => some (.err, s)
      | .recvError => some (.err, { s with count := -1 })
      | .recv bytes => some (s.received (bytes.take packetBuffSize))
  else none

/-- What is received and not read yet. -/
def DbgSock.pending (s : DbgSock α) : List α := s.buf.slice s.p s.count.toNat

/-- Something else is received. -/
def DbgSock.map (f : α → β) (s : DbgSock α) : DbgSock β := { s with buf := s.buf.map f }

def RecvOutcome.map (f : α → β) : RecvOutcome α → RecvOutcome β
  | .selectTimeout => .selectTimeout
  | .selectError => .selectError
  | .recvError => .recvError
  | .recv bytes => .recv (bytes.map f)

def Readchar.map (f : α → β) : Readchar α → Readchar β
  | .char c => .char (f c)
  | .timeout => .timeout
  | .err => .err

theorem dbgSockOpen_map (f : α → β) (s : DbgSock α) (o : OpenOutcome) :
    dbgSockOpen (s.map f) o = (dbgSockOpen s o).map (Prod.map id (DbgSock.map f)) := by
  rw [dbgSockOpen.eq_def, dbgSockOpen.eq_def, apply_ite (Option.map _)]
  cases o <;> rfl

theorem dbgSockAccept_map (f : α → β) (s : DbgSock α) (o : AcceptOutcome) :
    dbgSockAccept (s.map f) o = (dbgSockAccept s o).map (Prod.map id (DbgSock.map f)) := by
  rw [dbgSockAccept.eq_def, dbgSockAccept.eq_def, apply_ite (Option.map _)]
  cases o <;> rfl

theorem received_map (f : α → β) (s : DbgSock α) (bytes : List α) :
    (s.map f).received (bytes.map f) = Prod.map (Readchar.map f) (DbgSock.map f) (s.received bytes) := by
  cases bytes with
  | nil => rfl
  | cons c cs =>
    have hlen : ((cs.map f).length : Int) = cs.length := by rw [List.length_map]
    simp only [List.map_cons, DbgSock.received, hlen, Prod.map, Readchar.map, DbgSock.map, Buffer.map_setAll]

theorem dbgSockReadchar_map (f : α → β) (s : DbgSock α) (o : RecvOutcome α) :
    dbgSockReadchar (s.map f) (o.map f) =
      (dbgSockReadchar s o).map (Prod.map (Readchar.map f) (DbgSock.map f)) := by
  rw [dbgSockReadchar.eq_def, dbgSockReadchar.eq_def, apply_ite (Option.map _), apply_ite (Option.map _)]
  refine if_congr Iff.rfl (if_congr Iff.rfl rfl ?_) rfl
  cases o with
  | selectTimeout => rfl
  | selectError => rfl
  | recvError => rfl
  | recv bytes =>
    change some ((s.map f).received ((bytes.map f).take packetBuffSize)) = _
    rw [← List.map_take, received_map]
    rfl

section Read

variable {s s' : DbgSock α} {o : RecvOutcome α} {r : Readchar α}

/-- A read takes what is pending first; it leaves what it has received else. -/
theorem dbgSockReadchar_cases (h : dbgSockReadchar s o = some (r, s')) :
    s.dbgSock = true ∧ s'.dbgSock = true ∧
      ((∃ c, r = .char c ∧ s.pending = c :: s'.pending) ∨
        (s.pending = [] ∧ s'.pending = [] ∧ (r = .timeout ∨ r = .err)) ∨
        (∃ bytes c, s.pending = [] ∧ o = .recv bytes ∧ r = .char c ∧
          bytes.take packetBuffSize = c :: s'.pending)) := by
  rw [dbgSockReadchar.eq_def] at h
  split at h
  · next hopen =>
    refine ⟨hopen, ?_⟩
    split at h
    · next hcount =>
      obtain ⟨rfl, rfl⟩ := Prod.mk.inj (Option.some.inj h)
      refine ⟨hopen, .inl ⟨_, rfl, ?_⟩⟩
      obtain ⟨n, hn⟩ : ∃ n : Nat, s.count = n + 1 := ⟨(s.count - 1).toNat, by omega⟩
      have hnow : s.count.toNat = n + 1 := by omega
      have hnext : (s.count - 1).toNat = n := by omega
      rw [DbgSock.pending, DbgSock.pending, hnow, hnext, Buffer.slice_succ']
    · next hcount =>
      have hempty : s.pending = [] := by
        rw [DbgSock.pending, Int.toNat_of_nonpos (by omega)]
        rfl
      split at h
      · obtain ⟨rfl, rfl⟩ := Prod.mk.inj (Option.some.inj h)
        exact ⟨hopen, .inr (.inl ⟨hempty, hempty, .inl rfl⟩)⟩
      · obtain ⟨rfl, rfl⟩ := Prod.mk.inj (Option.some.inj h)
        exact ⟨hopen, .inr (.inl ⟨hempty, hempty, .inr rfl⟩)⟩
      · obtain ⟨rfl, rfl⟩ := Prod.mk.inj (Option.some.inj h)
        exact ⟨hopen, .inr (.inl ⟨hempty, rfl, .inr rfl⟩)⟩
      · next bytes =>
        cases hbytes : bytes.take packetBuffSize with
        | nil =>
          rw [hbytes] at h
          obtain ⟨rfl, rfl⟩ := Prod.mk.inj (Option.some.inj h)
          exact ⟨hopen, .inr (.inl ⟨hempty, rfl, .inr rfl⟩)⟩
        | cons c cs =>
          rw [hbytes] at h
          obtain ⟨rfl, rfl⟩ := Prod.mk.inj (Option.some.inj h)
          have hslice := s.buf.slice_setAll 0 (c :: cs)
          rw [List.length_cons, Buffer.slice_succ'] at hslice
          have hcs : cs = (s.buf.setAll 0 (c :: cs)).slice 1 cs.length := (List.cons.inj hslice).2.symm
          exact ⟨hopen, .inr (.inr ⟨bytes, c, hempty, rfl, rfl, hbytes.trans (congrArg (c :: ·) hcs)⟩)⟩
  · exact absurd h (by simp)

end Read

end Mcprog
