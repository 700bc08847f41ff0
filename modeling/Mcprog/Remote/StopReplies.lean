import Mcprog.Remote.ErrorReplies

/-!
# Stop replies

A debugger that lets the target go is owed an answer, which comes once the target has
stopped. The books on the answers that are owed start afresh with each connection, the flag
`rp_target_running` does not.
-/

namespace Mcprog

open Interaction Program

variable {σ α β : Type} {A : Adapter σ}

/-- What the debugger is owed. -/
structure Ledger where
  /-- The resume and step packets of this connection that have no answer. -/
  owed : Nat
  /-- The last packet is one of them. -/
  current : Bool
  deriving DecidableEq, Repr

/-- A packet that lets the target go. -/
def resumes (text : List Byte) : Bool := text.headD 0 ∈ asciiText "CSWcsw"

namespace Ledger

/-- The books of a new connection. -/
def start : Ledger := ⟨0, false⟩

/-- What an event makes of the books. A stopped target answers every packet that is owed. -/
def note (l : Ledger) : ProxyEvent → Ledger
  | .received text => if resumes text then ⟨l.owed + 1, true⟩ else ⟨l.owed, false⟩
  | .reply _ => if l.current then ⟨l.owed - 1, false⟩ else l
  | .stopReply _ => start
  | .connected _ => start
  | _ => l

/-- A stop reply goes out only where it is owed, and a connection starts with a target that is
not taken to be running. -/
def Allows (l : Ledger) : ProxyEvent → Prop
  | .stopReply _ => 0 < l.owed
  | .connected targetRunning => targetRunning = false
  | _ => True

instance (l : Ledger) (e : ProxyEvent) : Decidable (l.Allows e) := by
  cases e with
  | stopReply text => exact inferInstanceAs (Decidable (0 < l.owed))
  | connected running => exact inferInstanceAs (Decidable (running = false))
  | _ => exact inferInstanceAs (Decidable True)

/-- Every event of a history is allowed by the books before it. -/
def Justifies : Ledger → List ProxyEvent → Prop
  | _, [] => True
  | l, e :: tr => l.Allows e ∧ (l.note e).Justifies tr

instance decidableJustifies : ∀ (l : Ledger) (tr : List ProxyEvent), Decidable (l.Justifies tr)
  | _, [] => isTrue trivial
  | l, e :: tr =>
    have := decidableJustifies (l.note e) tr
    inferInstanceAs (Decidable (l.Allows e ∧ (l.note e).Justifies tr))

/-- Two parts of a run, the second one with the ledger that the first one leaves. -/
theorem justifies_append {l : Ledger} {tr tr' : List ProxyEvent} :
    l.Justifies (tr ++ tr') ↔ l.Justifies tr ∧ (tr.foldl note l).Justifies tr' := by
  induction tr generalizing l with
  | nil => rw [List.nil_append, List.foldl_nil, Justifies, true_and]
  | cons e tr ih => rw [List.cons_append, Justifies, Justifies, ih, List.foldl_cons, and_assoc]

/-- The events of the target are of no interest to the books. -/
theorem justifies_control (l : Ledger) (tr : List ControlEvent) :
    l.Justifies (tr.map .control) ∧ (tr.map ProxyEvent.control).foldl note l = l := by
  induction tr with
  | nil => exact ⟨trivial, rfl⟩
  | cons e tr ih => exact ⟨⟨trivial, ih.1⟩, ih.2⟩

end Ledger

/-- The history is justified, and the books satisfy `S`. -/
def Booked (S : Ledger → Prop) : Assertion ProxyEvent (Session σ) := fun tr _ =>
  Ledger.start.Justifies tr ∧ S (tr.foldl Ledger.note Ledger.start)

/-- A part of the proxy does what the books allow, and leaves them with `S'`. -/
def Books (S : Ledger → Prop) (m : ProxyProgram σ α) (S' : α → Ledger → Prop) : Prop :=
  Triple (Booked S) m (fun a => Booked (S' a)) (Booked fun _ => True)

section Rules

variable {S S' : Ledger → Prop} {m : ProxyProgram σ α} {Q Q' : α → Ledger → Prop}

theorem books_pure {a : α} (h : ∀ l, S l → Q a l) : Books S (pure a : ProxyProgram σ α) Q :=
  triple_pure fun _ _ hS => ⟨hS.1, h _ hS.2⟩

theorem books_stop {e : Fatal} : Books S (stop e : ProxyProgram σ α) Q :=
  triple_stop fun _ _ hS => ⟨hS.1, trivial⟩

/-- The second part begins with the ledger of the first. -/
theorem Books.bind {f : α → ProxyProgram σ β} {R : β → Ledger → Prop} (hm : Books S m Q)
    (hf : ∀ a, Books (Q a) (f a) R) : Books S (m >>= f) R := Triple.bind hm hf

/-- More may be known of the ledger than is needed. -/
theorem Books.pre (h : Books S m Q) (hS : ∀ l, S' l → S l) : Books S' m Q :=
  Triple.pre h fun _ _ hl => ⟨hl.1, hS _ hl.2⟩

/-- Less may be said of the ledger than is known. -/
theorem Books.post (h : Books S m Q) (hQ : ∀ a l, Q a l → Q' a l) : Books S m Q' :=
  Triple.post h fun _ _ _ hl => ⟨hl.1, hQ _ _ hl.2⟩

/-- What the books imply may be assumed. -/
theorem books_of_imp {c : Prop} (hc : ∀ l, S l → c) (h : c → Books S m Q) : Books S m Q :=
  fun tr s hS => h (hc _ hS.2) tr s hS

/-- Either of two parts, each where it is taken. -/
theorem books_ite {c : Prop} [Decidable c] {m' : ProxyProgram σ α} (hm : c → Books S m Q)
    (hm' : ¬ c → Books S m' Q) : Books S (if c then m else m') Q := by
  by_cases h : c
  · rw [if_pos h]
    exact hm h
  · rw [if_neg h]
    exact hm' h

/-- An event that the books allow. -/
theorem books_emit {e : ProxyEvent} (h : ∀ l, S l → l.Allows e ∧ S' (l.note e)) :
    Books S (emit e : ProxyProgram σ Unit) fun _ => S' := by
  refine triple_emit fun tr _ hS => ⟨?_, ?_⟩
  · exact Ledger.justifies_append.mpr ⟨hS.1, (h _ hS.2).1, trivial⟩
  · rw [List.foldl_append]
    exact (h _ hS.2).2

/-- A program that controls the target. -/
theorem books_onTarget {m : Control σ α} {P : α → Prop} (hP : m.Ensures P) :
    Books S (onTarget m) fun a l => P a ∧ S l := by
  refine (triple_mapEvents (P := Booked S) hP fun tr tr' _ _ hS => ?_).conseq (fun _ _ hS => hS)
    (fun _ _ _ hS => ⟨hS.2.1, hS.1, hS.2.2⟩) fun _ _ hS => ⟨hS.1, trivial⟩
  have hcontrol := Ledger.justifies_control (tr.foldl Ledger.note Ledger.start) tr'
  refine ⟨Ledger.justifies_append.mpr ⟨hS.1, hcontrol.1⟩, ?_⟩
  rw [List.foldl_append, hcontrol.2]
  exact hS.2

/-- The same, where the answer is not of interest. -/
theorem books_control (m : Control σ α) : Books S (onTarget m) fun _ => S :=
  (books_onTarget (ensures_true m)).post fun _ _ h => h.2

theorem books_assert {c : Prop} [Decidable c] {text : String} :
    Books S (assert c text : ProxyProgram σ Unit) fun _ => S :=
  books_ite (fun _ => books_pure fun _ h => h) fun _ => books_stop

end Rules

namespace Proxy

/-- While the target is taken to be running the debugger is owed an answer, and its connection is
not at its end. -/
structure Sound (p : Proxy) (l : Ledger) : Prop where
  running : p.targetRunning = true → 0 < l.owed ∧ p.inputError = false ∧ p.doReinitialize = false
  extended : p.extendedProtocol = true → p.canRestart = true

/-- The input ends the connection. -/
def EndsSession (p : Proxy) : Input → Prop
  | .error => True
  | .packet pkt _ => pkt.text.headD 0 = ascii 'D' ∨
      pkt.text.headD 0 = ascii 'k' ∧ p.extendedProtocol = false
  | _ => False

/-- The input does not end the connection while the target is taken to be running. -/
def Lasts (p : Proxy) (input : Input) : Prop := p.targetRunning = true → ¬ p.EndsSession input

variable {p : Proxy} {l l' : Ledger}

/-- Nothing is said about a target that is not taken to be running. -/
theorem Sound.of_not_running (hrun : p.targetRunning = false)
    (hext : p.extendedProtocol = true → p.canRestart = true) : p.Sound l :=
  ⟨fun h => absurd (hrun.symm.trans h) Bool.false_ne_true, hext⟩

/-- The books may get fuller. -/
theorem Sound.mono (h : p.Sound l) (hl : l.owed ≤ l'.owed) : p.Sound l' :=
  ⟨fun hrun => ⟨(h.running hrun).1.trans_le hl, (h.running hrun).2⟩, h.extended⟩

end Proxy

section Turns

variable {p : Proxy} {input : Input}

/-- At the start of a turn: the proxy is sound, and its connection lasts. -/
def Before (input : Input) (p : Proxy) (l : Ledger) : Prop := p.Sound l ∧ p.Lasts input

/-- Within a turn, once the target is connected. -/
def Ready (input : Input) (p : Proxy) (l : Ledger) : Prop :=
  Before input p l ∧ p.inputError = false ∧ p.doReinitialize = false

/-- The end of a session is entered, and the proxy keeps all but the target. -/
theorem books_closeSession {S : Ledger → Prop} : Books S (closeSession A p) fun p' l =>
    (∃ t, p' = { p with target := t }) ∧ S l := by
  refine (books_control _).bind fun t => Books.bind (books_emit fun l h => ⟨trivial, h⟩) fun _ => ?_
  exact books_pure fun l h => ⟨⟨t, rfl⟩, h⟩

/-- After a connection is lost its session is ended. -/
theorem books_afterInputError : Books (Before input p) (afterInputError A p) fun p' l =>
    Before input p' l ∧ p'.inputError = false := by
  refine books_ite (fun herr => ?_) fun herr => books_pure fun l h => ⟨h, by simpa using herr⟩
  have hstopped : ∀ l, Before input p l → p.targetRunning = false := by
    intro l h
    by_contra hrun
    exact absurd (herr.symm.trans (h.1.running (by simpa using hrun)).2.1) (by decide)
  refine books_of_imp hstopped fun hrun => books_closeSession.bind fun p' => books_pure fun l h => ?_
  obtain ⟨⟨t, rfl⟩, hbefore⟩ := h
  refine ⟨⟨.of_not_running hrun hbefore.1.extended, fun h => ?_⟩, rfl⟩
  exact absurd (hrun.symm.trans h) Bool.false_ne_true

/-- The books of a new connection are begun where there is a new debugger. -/
theorem books_acceptSession : Books (fun l => Before input p l ∧ p.inputError = false)
    (acceptSession p : ProxyProgram σ Proxy) (Ready input) := by
  refine books_ite (fun hre => ?_) fun hre => books_pure fun l h => ⟨h.1, h.2, by simpa using hre⟩
  have hstopped : ∀ l, Before input p l ∧ p.inputError = false →
      p.targetRunning = false ∧ p.inputError = false := by
    intro l h
    refine ⟨?_, h.2⟩
    by_contra hrun
    exact absurd (hre.symm.trans (h.1.1.running (by simpa using hrun)).2.2) (by decide)
  refine books_of_imp hstopped fun hp => ?_
  have hemit : Books (fun l => Before input p l ∧ p.inputError = false)
      (emit (.connected p.targetRunning) : ProxyProgram σ Unit) fun _ _ => True :=
    books_emit fun l _ => ⟨hp.1, trivial⟩
  refine hemit.bind fun _ => books_pure fun l _ => ⟨⟨.of_not_running hp.1 nofun, fun h => ?_⟩, hp.2, rfl⟩
  exact absurd (hp.1.symm.trans h) Bool.false_ne_true

theorem elveesConnect_ensures {t : Target} : (elveesConnect A t).Ensures fun r => r.1 = .ok :=
  ensures_bind fun _ => ensures_bind fun _ => ensures_pure rfl

/-- The target is connected without an entry. -/
theorem books_connectTarget : Books (Ready input p) (connectTarget A p) fun r l =>
    r.1 = true ∧ Ready input r.2 l := by
  refine books_ite (fun _ => ?_) fun _ => books_pure fun l h => ⟨rfl, h⟩
  refine (books_onTarget elveesConnect_ensures).bind fun r => ?_
  refine books_of_imp (c := r.1 = .ok) (fun l h => h.1) fun hr => ?_
  obtain ⟨ret, statusString, t⟩ := r
  obtain rfl : ret = .ok := hr
  exact books_pure fun l h => ⟨rfl, ⟨⟨h.2.1.1.running, fun _ => rfl⟩, h.2.1.2⟩, h.2.2⟩

/-- An answer, of a proxy whose connection is not at its end. -/
theorem books_putAnswer {S S' : Ledger → Prop} {e : ProxyEvent} (herr : p.inputError = false)
    (h : ∀ l, S l → l.Allows e ∧ S' (l.note e)) :
    Books S (putAnswer p e : ProxyProgram σ Proxy) fun p' l => p' = p ∧ S' l := by
  rw [putAnswer, herr, if_neg Bool.false_ne_true]
  exact (books_emit h).bind fun _ => books_pure fun l hl => ⟨rfl, hl⟩

/-- A packet has been received. -/
structure Taken (pkt : Packet) (amb : Ambient) (p : Proxy) (l : Ledger) : Prop where
  ready : Ready (.packet pkt amb) p l
  current : l.current = resumes pkt.text
  owed : resumes pkt.text = true → 0 < l.owed

variable {pkt : Packet} {amb : Ambient} {outBuf : List Byte}

/-- The packet is entered before it is handled. -/
theorem Taken.of_ready {l : Ledger} (h : Ready (.packet pkt amb) p l) :
    Taken pkt amb p (l.note (.received pkt.text)) := by
  have howed : l.owed ≤ (l.note (.received pkt.text)).owed := by
    rw [Ledger.note]
    split
    · exact Nat.le_succ _
    · exact le_refl _
  refine ⟨⟨⟨h.1.1.mono howed, h.1.2⟩, h.2⟩, ?_, fun hres => ?_⟩
  · rw [Ledger.note]
    split
    · rename_i hres
      exact hres.symm
    · rename_i hres
      simpa using hres
  · rw [Ledger.note, if_pos hres]
    exact Nat.succ_pos _

/-- A packet of another kind is answered. -/
theorem books_reply {p' : Proxy} {text : List Byte} (hpkt : resumes pkt.text = false)
    (herr : p.inputError = false → p'.inputError = false)
    (h : ∀ l, Taken pkt amb p l → p'.Sound l) :
    Books (Taken pkt amb p) (putAnswer p' (.reply text) : ProxyProgram σ Proxy) (·.Sound ·) := by
  have hnote : ∀ l, Taken pkt amb p l → l.Allows (.reply text) ∧ p'.Sound (l.note (.reply text)) := by
    intro l hl
    rw [Ledger.note, hl.current, hpkt, if_neg Bool.false_ne_true]
    exact ⟨trivial, h l hl⟩
  refine books_of_imp (fun l hl => hl.ready.2.1) fun hnot => ?_
  refine (books_putAnswer (herr hnot) hnote).post ?_
  rintro p'' l ⟨rfl, hsound⟩
  exact hsound

/-- The extended protocol owes no stop reply. -/
theorem books_extended (hpkt : resumes pkt.text = false) :
    Books (Taken pkt amb p) (processExtended p outBuf : ProxyProgram σ Proxy) (·.Sound ·) := by
  refine books_ite (fun hcan => ?_) fun _ => books_reply hpkt id fun l hl => hl.ready.1.1
  exact books_reply hpkt id fun l hl => ⟨hl.ready.1.1.running, fun _ => hcan⟩

/-- Nor do the packets that a handler answers. -/
theorem books_handled (hpkt : resumes pkt.text = false) (m : Control σ Handled) :
    Books (Taken pkt amb p) (processHandled p m) (·.Sound ·) := by
  have hconsole : ∀ texts, Books (Taken pkt amb p) (consoleOutput texts : ProxyProgram σ Unit)
      fun _ => Taken pkt amb p := by
    intro texts
    induction texts with
    | nil => exact books_pure fun _ h => h
    | cons text texts ih => exact (books_emit (e := .console text) fun l h => ⟨trivial, h⟩).bind fun _ => ih
  refine (books_control _).bind fun h => (hconsole _).bind fun _ => books_reply hpkt id fun l hl => ?_
  exact ⟨hl.ready.1.1.running, hl.ready.1.1.extended⟩

/-- A packet that resumes the target is answered at once, or its stop reply is owed. -/
theorem books_running (hpkt : resumes pkt.text = true) (inBuf : List Byte) :
    Books (Taken pkt amb p) (processRunning A p inBuf outBuf) (·.Sound ·) := by
  refine (books_control _).bind fun r => books_ite (fun _ => ?_) fun hrun => ?_
  · refine books_pure fun l hl => ⟨fun _ => ⟨hl.owed hpkt, hl.ready.2⟩, hl.ready.1.1.extended⟩
  · have hstopped : r.targetRunning = false := by simpa using hrun
    have hput : ∀ p' e, p'.targetRunning = false → p'.inputError = p.inputError →
        (p'.extendedProtocol = true → p'.canRestart = true) →
        (∀ l : Ledger, 0 < l.owed → l.Allows e) →
        Books (Taken pkt amb p) (putAnswer p' e : ProxyProgram σ Proxy) (·.Sound ·) := by
      intro p' e hp' herr hext hallows
      refine books_of_imp (fun l hl => hl.ready.2.1) fun hnot => ?_
      have hnote : ∀ l, Taken pkt amb p l → l.Allows e ∧ p'.Sound (l.note e) := fun l hl =>
        ⟨hallows l (hl.owed hpkt), .of_not_running hp' hext⟩
      refine (books_putAnswer (herr.trans hnot) hnote).post ?_
      rintro p'' l ⟨rfl, hsound⟩
      exact hsound
    refine books_of_imp (fun l hl => hl.ready.1.1.extended) fun hext => ?_
    exact books_ite (fun _ => hput _ _ hstopped rfl hext fun l h => h)
      fun _ => hput _ _ hstopped rfl hext fun l h => trivial

/-- A packet that ends the connection comes while the target is not taken to be running. -/
theorem Taken.not_running {l : Ledger} (h : Taken pkt amb p l)
    (hends : p.EndsSession (.packet pkt amb)) : p.targetRunning = false := by
  by_contra hrun
  exact h.ready.1.2 (by simpa using hrun) hends

/-- What was owed is dropped with the session. -/
theorem books_detach (hpkt : pkt.text.headD 0 = ascii 'D') :
    Books (Taken pkt amb p) (do
      let p ← handleDetachCommand A p outBuf
      return { p with doReinitialize := true }) (·.Sound ·) := by
  have hemit : ∀ e (S : Ledger → Prop), (∀ l : Ledger, l.Allows e) →
      Books S (emit e : ProxyProgram σ Unit) fun _ _ => True :=
    fun e S h => books_emit fun l _ => ⟨h l, trivial⟩
  refine books_of_imp (fun l hl => hl.not_running (.inl hpkt)) fun hrun => ?_
  refine books_of_imp (fun l hl => hl.ready.1.1.extended) fun hext => ?_
  have hdetach : Books (Taken pkt amb p) (handleDetachCommand A p outBuf) fun p' _ =>
      p'.targetRunning = false ∧ (p'.extendedProtocol = true → p'.canRestart = true) := by
    refine (books_control _).bind fun t => (hemit (.reply outBuf) _ fun _ => trivial).bind fun _ =>
      (hemit .closed _ fun _ => trivial).bind fun _ => ?_
    exact books_ite (fun _ => books_stop) fun _ => books_pure fun _ _ => ⟨hrun, hext⟩
  exact hdetach.bind fun p' => books_pure fun l hl => .of_not_running hl.1 hl.2

/-- So it is with `k`. -/
theorem books_kill (hpkt : pkt.text.headD 0 = ascii 'k') :
    Books (Taken pkt amb p) (processKill A p) (·.Sound ·) := by
  have hclosed : p.extendedProtocol = false → ∀ l, Taken pkt amb p l → p.targetRunning = false :=
    fun hext l hl => hl.not_running (.inr ⟨hpkt, hext⟩)
  by_cases hext : p.extendedProtocol = true
  · refine books_of_imp (fun l hl => hl.ready.1.1.extended hext) fun hcan => ?_
    have hkill : Books (Taken pkt amb p) (handleKillCommand A p) fun r l =>
        (r.1 = 1 ∧ ∃ t, r.2 = { p with target := t }) ∧ Taken pkt amb p l := by
      rw [handleKillCommand, if_neg (not_not.mpr hext), if_neg (not_not.mpr hcan)]
      refine (books_onTarget elveesRestart_ensures).bind fun r => ?_
      refine books_of_imp (c := r.1 = .ok) (fun l h => h.1) fun hr => ?_
      obtain ⟨ret, t⟩ := r
      obtain rfl : ret = .ok := hr
      exact books_assert.bind fun _ => books_pure fun l h => ⟨⟨rfl, t, rfl⟩, h.2⟩
    refine hkill.bind fun r => books_pure fun l h => ?_
    obtain ⟨⟨hret, t, hp⟩, htaken⟩ := h
    rw [hp, hret]
    exact ⟨htaken.ready.1.1.running, htaken.ready.1.1.extended⟩
  · have hext' : p.extendedProtocol = false := by simpa using hext
    refine books_of_imp (hclosed hext') fun hrun => ?_
    have hkill : Books (Taken pkt amb p) (handleKillCommand A p) fun r _ =>
        ∃ t, r.2 = { p with target := t } := by
      rw [handleKillCommand, if_pos hext]
      refine books_closeSession.bind fun p' => books_ite (fun _ => books_stop) fun _ => ?_
      exact books_pure fun l h => h.1
    refine hkill.bind fun r => books_pure fun l h => ?_
    obtain ⟨t, hp⟩ := h
    rw [hp]
    exact .of_not_running hrun fun h => absurd h hext

theorem books_restart (hpkt : resumes pkt.text = false) :
    Books (Taken pkt amb p) (processRestart A p outBuf) (·.Sound ·) := by
  by_cases hext : p.extendedProtocol = true
  · have hrestart : Books (Taken pkt amb p) (handleRestartTargetCommand A p) fun r l =>
        (r.1 = 1 ∧ ∃ t, r.2 = { p with target := t }) ∧ Taken pkt amb p l := by
      rw [handleRestartTargetCommand, if_neg (not_not.mpr hext)]
      refine books_assert.bind fun _ => (books_onTarget elveesRestart_ensures).bind fun r => ?_
      refine books_of_imp (c := r.1 = .ok) (fun l h => h.1) fun hr => ?_
      obtain ⟨ret, t⟩ := r
      obtain rfl : ret = .ok := hr
      exact books_pure fun l h => ⟨⟨rfl, t, rfl⟩, h.2⟩
    refine hrestart.bind fun r => books_of_imp (fun l h => h.1) fun hr => ?_
    obtain ⟨ret, p'⟩ := r
    obtain ⟨rfl, t, rfl⟩ := hr
    exact books_pure fun l h => ⟨h.2.ready.1.1.running, h.2.ready.1.1.extended⟩
  · have hrestart : Books (Taken pkt amb p) (handleRestartTargetCommand A p) fun r l =>
        r = (0, p) ∧ Taken pkt amb p l := by
      rw [handleRestartTargetCommand, if_pos hext]
      exact books_pure fun l h => ⟨rfl, h⟩
    refine hrestart.bind fun r => books_of_imp (fun l h => h.1) fun hr => ?_
    have hput : Books (Taken pkt amb p) (putAnswer { p with doConnect := 0 } (.reply outBuf) :
        ProxyProgram σ Proxy) (·.Sound ·) :=
      books_reply hpkt id fun l hl => ⟨hl.ready.1.1.running, hl.ready.1.1.extended⟩
    rw [hr]
    exact hput.pre fun l h => h.2

/-- Every packet leaves the proxy sound. -/
theorem books_packet : Books (Taken pkt amb p) (processPacket A p pkt amb) (·.Sound ·) := by
  have hother : ∀ c : Byte, c ∉ asciiText "CSWcsw" → pkt.text.headD 0 = c →
      resumes pkt.text = false := by
    intro c hc h
    rw [resumes, h]
    exact decide_eq_false hc
  refine books_assert.bind fun _ => books_ite (fun h => ?_) fun _ => books_ite (fun h => ?_) fun _ =>
    books_ite (fun h => ?_) fun hnot => books_ite (fun h => ?_) fun _ => books_ite (fun h => ?_) fun _ =>
    books_ite (fun h => ?_) fun _ => ?_
  · exact books_extended (hother _ (by decide) h)
  · exact books_reply (hother _ (by decide) h) id fun l hl => hl.ready.1.1
  · exact books_running (decide_eq_true h) _
  · exact books_detach h
  · exact books_kill h
  · exact books_restart (hother _ (by decide) h)
  · exact books_handled (decide_eq_false hnot) _

/-- A target that is found to have stopped is what the debugger is owed. -/
theorem books_poll : Books (Ready input p) (pollTarget A p) (·.Sound ·) := by
  refine books_ite (fun hrun => ?_) fun _ => books_pure fun l h => h.1.1
  refine (books_onTarget (elveesWaitPartial_ensures _)).bind fun w => ?_
  refine books_of_imp (fun l h => h.1) fun hw => books_assert.bind fun _ => ?_
  have hemit : Books (fun l => (w.ret = .ok ∧ w.implemented = true ∧
      (w.more = false → w.statusString ≠ errorReply)) ∧ Ready input p l)
      (emit (.stopReply w.statusString) : ProxyProgram σ Unit)
      fun _ _ => p.extendedProtocol = true → p.canRestart = true :=
    books_emit fun l h => ⟨(h.2.1.1.running hrun).1, h.2.1.1.extended⟩
  refine books_ite (fun hret => absurd hw.1 hret) fun _ => books_ite (fun _ => ?_) fun _ => ?_
  · exact books_assert.bind fun _ => hemit.bind fun _ => books_pure fun l h => .of_not_running rfl h
  · exact books_pure fun l h => ⟨h.2.1.1.running, h.2.1.1.extended⟩

theorem books_input : Books (Ready input p) (processInput A p input) (·.Sound ·) := by
  have hsame : Books (Ready input p) (pure p : ProxyProgram σ Proxy) (·.Sound ·) :=
    books_pure fun l h => h.1.1
  cases input with
  | ack => exact hsame
  | nak => exact hsame
  | timeout => exact books_poll
  | interrupt =>
    refine books_ite (fun _ => (books_control _).bind fun t => ?_) fun _ => hsame
    exact books_pure fun l h => ⟨h.1.1.running, h.1.1.extended⟩
  | error =>
    refine books_pure fun l h => .of_not_running ?_ h.1.1.extended
    by_contra hrun
    exact h.1.2 (by simpa using hrun) trivial
  | packet pkt amb =>
    have hemit : Books (Ready (.packet pkt amb) p) (emit (.received pkt.text) : ProxyProgram σ Unit)
        fun _ => Taken pkt amb p := books_emit fun l h => ⟨trivial, .of_ready h⟩
    exact hemit.bind fun _ => books_packet

/-- A turn whose input lets the connection last leaves the proxy sound. -/
theorem books_turn : Books (Before input p) (proxyTurn A p input) (·.Sound ·) := by
  refine books_afterInputError.bind fun p₁ => books_acceptSession.bind fun p₂ =>
    books_connectTarget.bind fun r => ?_
  refine books_of_imp (c := r.1 = true) (fun l h => h.1) fun hr => ?_
  obtain ⟨connected, p₃⟩ := r
  obtain rfl : connected = true := hr
  exact books_input.pre fun l h => h.2

end Turns

/-- No turn of a run ends the connection while the target is taken to be running. -/
def Calm (A : Adapter σ) : Proxy → Session σ → List Input → Prop
  | _, _, [] => True
  | p, s, input :: inputs => p.Lasts input ∧
      match proxyTurn A p input s with
      | ⟨_, _, .error _⟩ => True
      | ⟨_, s', .ok p'⟩ => Calm A p' s' inputs

instance (p : Proxy) (input : Input) : Decidable (p.EndsSession input) :=
  match input with
  | .error => isTrue trivial
  | .packet pkt _ => inferInstanceAs (Decidable (pkt.text.headD 0 = ascii 'D' ∨
      pkt.text.headD 0 = ascii 'k' ∧ p.extendedProtocol = false))
  | .timeout => isFalse id
  | .interrupt => isFalse id
  | .ack => isFalse id
  | .nak => isFalse id

instance (p : Proxy) (input : Input) : Decidable (p.Lasts input) :=
  inferInstanceAs (Decidable (p.targetRunning = true → ¬ p.EndsSession input))

instance decidableCalm (A : Adapter σ) : ∀ (p : Proxy) (s : Session σ) (inputs : List Input),
    Decidable (Calm A p s inputs)
  | _, _, [] => isTrue trivial
  | p, s, input :: inputs =>
    have : Decidable (match proxyTurn A p input s with
        | ⟨_, _, .error _⟩ => True
        | ⟨_, s', .ok p'⟩ => Calm A p' s' inputs) :=
      match proxyTurn A p input s with
      | ⟨_, _, .error _⟩ => isTrue trivial
      | ⟨_, s', .ok p'⟩ => decidableCalm A p' s' inputs
    inferInstanceAs (Decidable (p.Lasts input ∧ _))

/-- A calm run does what the books allow. -/
theorem justified_of_calm {p : Proxy} {s : Session σ} {inputs : List Input} (h : Calm A p s inputs)
    {tr : List ProxyEvent} (htr : Booked p.Sound tr s) :
    Ledger.start.Justifies (tr ++ (proxyTurns A p inputs s).trace) := by
  induction inputs generalizing p s tr with
  | nil =>
    rw [proxyTurns]
    exact Ledger.justifies_append.mpr ⟨htr.1, trivial⟩
  | cons input inputs ih =>
    obtain ⟨hlasts, hrest⟩ := h
    have hturn := books_turn (A := A) tr s ⟨htr.1, htr.2, hlasts⟩
    rw [proxyTurns, bind_apply]
    cases hout : proxyTurn A p input s with
    | mk tr' s' res =>
      rw [hout] at hturn hrest
      cases res with
      | error e => exact hturn.1
      | ok p' =>
        dsimp only
        rw [← List.append_assoc]
        exact ih hrest hturn

/-- In every run of the proxy that ends no connection while the target is taken to be running, a
stop reply is sent only where a packet of the same connection is owed an answer, and the flag is
clear whenever a connection starts. -/
theorem proxyTurns_justified (A : Adapter σ) (t : Target) (s : Session σ) (inputs : List Input)
    (h : Calm A (.started t) s inputs) :
    Ledger.start.Justifies (proxyTurns A (.started t) inputs s).trace := by
  have hbooked : Booked (Proxy.started t).Sound [] s := ⟨trivial, .of_not_running rfl nofun⟩
  exact justified_of_calm h hbooked

/-- A target that runs until it is stopped. Its device says whether it is stopped. -/
def freeRunning : Adapter Bool where
  close d := .ok ((), d)
  getIdcode d := .ok (0, d)
  cpuStopped d := .ok (d, d)
  stopCpu _ := .ok ((), true)
  resetCpu _ := .ok ((), false)
  oncdWrite _ reg _ d := .ok ((), if reg = oncdGo ||| irdResume ||| irdFlushPipe then false else d)
  oncdRead reg _ d := .ok (if reg = oncdOscr then oscrRdym else 0, d)
  blockWords := 0
  programBlockWords := 0
  stepCpu := none
  runCpu := none
  readBlock := none
  writeBlock := none
  writeNwords := none
  programBlock32 := none
  programBlock32Unprotect := none
  programBlock32Protect := none
  programBlock64 := none
  programBlock32Micron := none
  blockWords_pos h := by simp at h
  programBlockWords_pos h := by simp at h
  unprotect_of_protect h := by simp at h

/-- It runs when the proxy is started. -/
def freeTarget : Target := { Target.allocated with isRunning := true }

/-- A debugger that lets the target go, interrupts it, and leaves. -/
def interrupted : List Input :=
  [.packet ⟨asciiText "c", []⟩ .zero, .interrupt, .timeout, .error, .ack]

/-- A program that runs until the debugger interrupts it. -/
theorem proxyTurns_justified_interrupted :
    Ledger.start.Justifies (proxyTurns freeRunning (.started freeTarget) interrupted ⟨0, false⟩).trace :=
  proxyTurns_justified freeRunning freeTarget ⟨0, false⟩ interrupted (by decide +kernel)

/-- A debugger lets the target go and is gone, and the next one connects. -/
def afterDisconnect : List ProxyEvent :=
  (proxyTurns freeRunning (.started freeTarget)
    [.packet ⟨asciiText "c", []⟩ .zero, .error, .timeout] ⟨0, false⟩).trace

/-- The next debugger gets a stop reply that it is not owed. -/
theorem not_justified_afterDisconnect :
    afterDisconnect.getLast?.any ProxyEvent.isStopReply = true ∧
      (afterDisconnect.dropLast.foldl Ledger.note Ledger.start).owed = 0 ∧
      ¬ Ledger.start.Justifies afterDisconnect := by
  decide +kernel

end Mcprog
