import Mcprog.Remote.Follows
import Mcprog.Remote.ReadAfterWrite

/-!
# Runs of memory packets

While a debugger only writes and reads ordinary memory, the proxy answers it as an array of bytes
does: whatever the requests are cut into, each read gets the bytes that were written last.
-/

namespace Mcprog

open Cells Interaction Program

/-- What a debugger asks of a range of memory. -/
inductive MemoryRequest
  | write (a : Nat) (d : List Byte)
  | read (a n : Nat)

namespace MemoryRequest

/-- The text of the packet. -/
def text : MemoryRequest → List Byte
  | write a d => writeText (BitVec.ofNat 64 a) d
  | read a n => readText (BitVec.ofNat 64 a) n

/-- The request stays within a range, and its packet and the answer fit into the buffers. -/
def Within (base len : Nat) : MemoryRequest → Prop
  | write a d => base ≤ a ∧ a + d.length ≤ base + len ∧ 0 < d.length ∧ d.length ≤ dataBytesMax
  | read a n => base ≤ a ∧ a + n ≤ base + len ∧ 0 < n ∧ n ≤ 184

instance (base len : Nat) (r : MemoryRequest) : Decidable (r.Within base len) := by
  cases r <;> exact inferInstanceAs (Decidable (_ ∧ _))

/-- What an array answers. -/
def reply (f : Nat → Byte) : MemoryRequest → List Byte
  | write _ _ => asciiText "OK"
  | read a n => byteDigits ((List.range n).map fun i => f (a + i))

/-- How an array changes. -/
def change (f : Nat → Byte) : MemoryRequest → Nat → Byte
  | write a d => fun x => if a ≤ x ∧ x < a + d.length then d.getD (x - a) 0 else f x
  | read _ _ => f

/-- The answers of an array to requests one after the other. -/
def replies (f : Nat → Byte) : List MemoryRequest → List (List Byte)
  | [] => []
  | r :: rs => r.reply f :: replies (r.change f) rs

end MemoryRequest

/-- The bytes of the words from `lo` up to `hi` are those of an array. -/
def AddressSpace.Contains {μ : Type} (M : AddressSpace μ) (lo hi : Nat) (m : μ) (f : Nat → Byte) : Prop :=
  ∀ x, lo ≤ x / 4 → x / 4 < hi → M.byteAt m x = f x

section Plain

variable {τ μ : Type} {B : Adapter τ} {M : AddressSpace μ} {S : Serves B M} {p : Proxy} {m : μ} {f : Nat → Byte}
  {lo hi base len : Nat}

theorem AddressSpace.Contains.bytes_eq (h : M.Contains lo hi m f) {a n : Nat} (hlo : lo ≤ a / 4) (hhi : a + n ≤ 4 * hi) :
    M.bytes m a n = (List.range n).map fun i => f (a + i) := by
  refine List.map_congr_left fun i hi => h (a + i) ?_ ?_
  · exact hlo.trans (Nat.div_le_div_right (Nat.le_add_right a i))
  · have hlt := List.mem_range.mp hi
    omega

/-- A request is answered as the array answers it, and the memory has its bytes again. -/
theorem answers_request (h : M.PlainWords (base / 4) ((base + len + 3) / 4)) (hp : p.inputError = false)
    (hm : M.Contains (base / 4) ((base + len + 3) / 4) m f) {r : MemoryRequest} (hr : r.Within base len) :
    ∃ m', S.Answers p m r.text (r.reply f) m' ∧ M.Contains (base / 4) ((base + len + 3) / 4) m' (r.change f) := by
  cases r with
  | write a d =>
    obtain ⟨hlo, hhi, hpos, hmax⟩ := hr
    obtain ⟨m', hwrite, hwrites⟩ := answers_writeText (S := S) (m := m) h hp (a := a) (by omega) hpos (by omega) hmax
    refine ⟨m', hwrite, fun x hxlo hxhi => ?_⟩
    rw [hwrites x hxlo hxhi, hm x hxlo hxhi]
    rfl
  | read a n =>
    obtain ⟨hlo, hhi, hpos, hmax⟩ := hr
    have hread := answers_readText (S := S) (m := m) h hp (a := a) (n := n) (by omega) hpos (by omega) hmax
    rw [hm.bytes_eq (by omega) (by omega)] at hread
    exact ⟨m, hread, hm⟩

end Plain

section Behind

variable {σ τ μ : Type} {A : Nat → Adapter σ} {B : Adapter τ} {M : AddressSpace μ} {R : σ → τ → Prop} {p : Proxy}

/-- Behind the adapter is one that serves the memory `m`. -/
def Serves.Behind (S : Serves B M) (R : σ → τ → Prop) (m : μ) (s : Session σ) : Prop :=
  ∃ t, Session.Pairs R s t ∧ S.Holds m t

/-- The packets `M` and `m` are answered as over the adapter behind. -/
theorem Serves.Answers.behind {S : Serves B M} {m m' : μ} {text reply : List Byte} (h : S.Answers p m text reply m')
    (hR : ReachesMemoryAs R A B) (hkind : text.headD 0 = ascii 'M' ∨ text.headD 0 = ascii 'm') (behind : List Byte)
    (amb : Ambient) {s : Session σ} (hs : S.Behind R m s) :
    ∃ tr s', (∃ enough, ∀ fuel ≥ enough, (processPacket (A fuel) p ⟨text, behind⟩ amb).Returns s p tr s') ∧
      tr.filterMap ProxyEvent.answer = [reply] ∧ S.Behind R m' s' := by
  obtain ⟨t, ht, hm⟩ := hs
  obtain ⟨tr, t', hreturns, hanswer, hm'⟩ := h behind amb t hm
  have hrun : processPacket B p ⟨text, behind⟩ amb t = ⟨tr, t', .ok p⟩ := hreturns
  obtain ⟨s', hs', enough, henough⟩ := hR.processPacket p ⟨text, behind⟩ amb hkind s t ht
  rw [hrun] at hs' henough
  exact ⟨tr, s', ⟨enough, henough⟩, hanswer, t', hs', hm'⟩

theorem MemoryRequest.kind (r : MemoryRequest) : r.text.headD 0 = ascii 'M' ∨ r.text.headD 0 = ascii 'm' := by
  cases r with
  | write a d => exact .inl rfl
  | read a n => exact .inr rfl

/-- A debugger is connected, and the target as well. -/
structure Proxy.Serving (p : Proxy) : Prop where
  inputError : p.inputError = false
  doReinitialize : p.doReinitialize = false
  doConnect : p.doConnect = 0

/-- A turn of the loop with a packet. -/
theorem Proxy.Serving.turn {A : Adapter σ} (hp : p.Serving) {pkt : Packet} {amb : Ambient} {s s' : Session σ}
    {p' : Proxy} {tr : List ProxyEvent} (h : (processPacket A p pkt amb).Returns s p' tr s') :
    (proxyTurn A p (.packet pkt amb)).Returns s p' (.received pkt.text :: tr) s' := by
  have herror : (afterInputError A p).Returns s p [] s := by
    rw [afterInputError, hp.inputError]
    rfl
  have haccept : (acceptSession p : ProxyProgram σ Proxy).Returns s p [] s := by
    rw [acceptSession, hp.doReinitialize]
    rfl
  have hconnect : (connectTarget A p).Returns s (true, p) [] s := by
    rw [connectTarget, hp.doConnect]
    rfl
  have hreceived : (emit (.received pkt.text) : ProxyProgram σ Unit).Returns s () [.received pkt.text] s := rfl
  exact herror.bind (haccept.bind (hconnect.bind (hreceived.bind h)))

/-- A request with what lies behind its packet and what the handlers find around them. -/
abbrev Requested : Type := MemoryRequest × List Byte × Ambient

/-- What the loop takes in for it. -/
def Requested.input (r : Requested) : Input := .packet ⟨r.1.text, r.2.1⟩ r.2.2

variable {base len : Nat} {m : μ} {f : Nat → Byte}

/-- Turn by turn the proxy answers as the array does, over any adapter that reaches the memory. -/
theorem behind_replies (hR : ReachesMemoryAs R A B) (S : Serves B M)
    (h : M.PlainWords (base / 4) ((base + len + 3) / 4)) (hp : p.Serving)
    (hm : M.Contains (base / 4) ((base + len + 3) / 4) m f) (requests : List Requested)
    (hin : ∀ r ∈ requests, r.1.Within base len) {s : Session σ} (hs : S.Behind R m s) :
    ∃ tr s' m', (∃ enough, ∀ fuel ≥ enough,
        (proxyTurns (A fuel) p (requests.map Requested.input)).Returns s p tr s') ∧
      tr.filterMap ProxyEvent.answer = MemoryRequest.replies f (requests.map Prod.fst) ∧ S.Behind R m' s' ∧
      M.Contains (base / 4) ((base + len + 3) / 4) m' ((requests.map Prod.fst).foldl MemoryRequest.change f) := by
  induction requests generalizing f m s with
  | nil => exact ⟨[], s, m, ⟨0, fun _ _ => rfl⟩, rfl, hs, hm⟩
  | cons r requests ih =>
    obtain ⟨m₁, hanswers, hm₁⟩ := answers_request (S := S) h hp.inputError hm (hin r List.mem_cons_self)
    obtain ⟨tr₁, s₁, ⟨n, hn⟩, hanswer, hs₁⟩ := hanswers.behind hR r.1.kind r.2.1 r.2.2 hs
    obtain ⟨tr, s', m', ⟨k, hk⟩, hreplies, hs', hm'⟩ := ih hm₁ (fun r hr => hin r (List.mem_cons_of_mem _ hr)) hs₁
    refine ⟨.received r.1.text :: tr₁ ++ tr, s', m', ⟨max n k, fun fuel hfuel => ?_⟩, ?_, hs', hm'⟩
    · exact (hp.turn (hn fuel ((le_max_left n k).trans hfuel))).bind (hk fuel ((le_max_right n k).trans hfuel))
    · have hfirst : (ProxyEvent.received r.1.text :: tr₁).filterMap ProxyEvent.answer = [r.1.reply f] := hanswer
      rw [List.filterMap_append, hfirst, hreplies]
      rfl

end Behind

end Mcprog
