import Mcprog.Programmer.ReadBack
import Mcprog.Target.Stops

/-!
# Words that are programmed again

`verify_block` programs a word that is not as expected again and reads it, in rounds. The limit on
the rounds is tested after the word is read and before it is compared, so that what the fourth round
reads does not matter.
-/

namespace Mcprog

open Interaction Program

variable {σ α β : Type} {A : Adapter σ} {t : Target} {verifyOnly : Bool} {mem : MemoryImage}

/-- What `verify_block` ends the program with: the address, what is expected and what was read. -/
def reported (values : List Word) : Fatal :=
  .exit 1 "\nerror at address %08X: file=%08X, mem=%08X\n" values

/-- The reason to stop is none of `verify_block`. -/
def Fatal.NotReported (e : Fatal) : Prop := ∀ values, e ≠ reported values

/-- An end for the time is not the message about the difference. -/
theorem hasTimeouts_notReported : HasTimeouts Fatal.NotReported where
  fuel _ h := by simp [reported] at h
  reading _ _ h := by simp [reported] at h
  writing _ _ h := by simp [reported] at h
  region _ _ h := by simp [reported] at h

/-- The rounds of `verify_block` at one word, from what was read first: each of them programs the
word again, because it is not as expected, and reads it. -/
inductive Rounds (A : Adapter σ) (t : Target) (verifyOnly : Bool) (addr expected : Word) :
    Session σ → Word → List Word → List Call → Session σ → Prop
  | done (s : Session σ) (word : Word) : Rounds A t verifyOnly addr expected s word [] [] s
  | again {s s₁ s' : Session σ} {word word' : Word} {words : List Word} {tr tr' : List Call}
      (hne : word ≠ expected)
      (hround : (rewriteWord A t verifyOnly addr expected word).Returns s word' tr s₁)
      (hrest : Rounds A t verifyOnly addr expected s₁ word' words tr' s') :
      Rounds A t verifyOnly addr expected s word (word' :: words) (tr ++ tr') s'

/-- Every run of `m` that answers loads nothing. -/
def LoadsNothing (m : Action σ α) : Prop := m.Exhibits bus fun _ obs => busReads obs = []

theorem loadsNothing_pure (a : α) : LoadsNothing (pure a : Action σ α) := exhibits_pure rfl

theorem LoadsNothing.bind {m : Action σ α} {f : α → Action σ β} (hm : LoadsNothing m)
    (hf : ∀ a, LoadsNothing (f a)) : LoadsNothing (m >>= f) := by
  refine Exhibits.bind hm fun a o₁ h₁ => (hf a).mono fun b o₂ h₂ => ?_
  rw [busReads_append, h₁, h₂, List.append_nil]

theorem Stores.loadsNothing {m : Action σ Unit} {args : List (Word × Word)} (h : Stores m args) :
    LoadsNothing m := by
  apply h.mono
  rintro _ _ rfl
  exact busReads_stores args

theorem loadsNothing_targetWrite2Bytes (addr₁ data₁ addr₂ data₂ : Word) :
    LoadsNothing (targetWrite2Bytes A t addr₁ data₁ addr₂ data₂) := by
  unfold targetWrite2Bytes
  cases A.writeNwords with
  | some write => exact (targetWriteNwords_stores _ _).loadsNothing
  | none =>
    exact (targetWriteWord_stores _ _).loadsNothing.bind fun _ =>
      (targetWriteNext_stores _ _).loadsNothing.bind fun _ =>
      (targetWriteNext_stores _ _).loadsNothing.bind fun _ =>
      (targetWriteNext_stores _ _).loadsNothing

/-- Programming a word again only stores. -/
theorem loadsNothing_targetFlashRewrite (addr bad expected : Word) :
    LoadsNothing (targetFlashRewrite A t addr bad expected) := by
  have hbase : LoadsNothing (t.computeBase addr : Action σ Word) := by
    intro s base tr s' h
    obtain ⟨_, -, -, rfl, -⟩ := Target.computeBase_returns t h
    exact ⟨[], Observer.Shows.nil, rfl⟩
  refine hbase.bind fun base => ?_
  dsimp only
  split
  · exact (loadsNothing_targetWrite2Bytes _ _ _ _).bind fun _ =>
      (loadsNothing_targetWrite2Bytes _ _ _ _).bind fun _ => loadsNothing_pure true
  split
  · split
    · exact loadsNothing_pure false
    · exact (targetWriteNwords_stores _ _).loadsNothing.bind fun _ => loadsNothing_pure true
  · exact loadsNothing_pure true

section Word

variable {addr expected word : Word} {values words : List Word} {tries : Nat} {s s' : Session σ}
  {tr : List Call}

/-- A round loads the word once, from its address. -/
theorem rewriteWord_loads {word' : Word}
    (h : (rewriteWord A t verifyOnly addr expected word).Returns s word' tr s') :
    ∃ obs, bus.Shows tr obs ∧ busReads obs = [(physical addr, word')] := by
  obtain ⟨tr₁, s₁, tr₂, hrewrite, hread, rfl⟩ := rewriteWord_returns h
  obtain ⟨o₁, hs₁, hnone⟩ := loadsNothing_targetFlashRewrite _ _ _ _ _ _ _ hrewrite
  obtain ⟨_, hs₂, rfl⟩ := targetReadWord_loads addr _ _ _ _ hread
  refine ⟨_, hs₁.append hs₂, ?_⟩
  rw [busReads_append, hnone]
  rfl

/-- The words that the rounds read are the loads that they make. -/
theorem Rounds.loads (h : Rounds A t verifyOnly addr expected s word words tr s') :
    ∃ obs, bus.Shows tr obs ∧ busReads obs = words.map fun w => (physical addr, w) := by
  induction h with
  | done => exact ⟨[], Observer.Shows.nil, rfl⟩
  | again hne hround hrest ih =>
    obtain ⟨o₁, hs₁, hr₁⟩ := rewriteWord_loads hround
    obtain ⟨o₂, hs₂, hr₂⟩ := ih
    refine ⟨o₁ ++ o₂, hs₁.append hs₂, ?_⟩
    rw [busReads_append, hr₁, hr₂]
    rfl

/-- A word that is accepted is as expected after its rounds. -/
theorem verifyWord_returns
    (h : (verifyWord A t verifyOnly addr expected tries word).Returns s () tr s') :
    ∃ words, Rounds A t verifyOnly addr expected s word words tr s' ∧
      words.getLastD word = expected := by
  induction tries generalizing word s tr with
  | zero =>
    rcases verifyWord_cases h with ⟨heq, rfl, rfl⟩ | ⟨-, n, _, _, _, _, hn, -⟩
    · exact ⟨[], .done s' word, heq⟩
    · cases hn
  | succ tries ih =>
    rcases verifyWord_cases h with ⟨heq, rfl, rfl⟩ | ⟨hne, n, word', tr₁, s₁, tr₂, hn, hround, hrest, rfl⟩
    · exact ⟨[], .done s' word, heq⟩
    · obtain rfl := Nat.succ.inj hn
      obtain ⟨words, hrounds, hlast⟩ := ih hrest
      exact ⟨word' :: words, .again hne hround hrounds, by rwa [List.getLastD_cons]⟩

/-- A word that is not programmed again is given up without a call. -/
theorem targetFlashRewrite_false {bad : Word}
    (h : (targetFlashRewrite A t addr bad expected).Returns s false tr s') : tr = [] := by
  obtain ⟨base, tr₁, s₁, tr₂, h₁, h₂, rfl⟩ := returns_bind_iff.mp h
  obtain ⟨_, -, -, rfl, rfl⟩ := Target.computeBase_returns t h₁
  have hnot : ∀ {m : Action σ Unit},
      ¬(do m; pure true : Action σ Bool).Returns s₁ false tr₂ s' := by
    intro m hm
    obtain ⟨_, _, _, _, -, hm, -⟩ := returns_bind_iff.mp hm
    exact absurd (returns_pure_iff.mp hm).1 Bool.false_ne_true
  dsimp only at h₂
  split at h₂
  · obtain ⟨_, _, _, _, -, h₃, -⟩ := returns_bind_iff.mp h₂
    obtain ⟨_, _, _, _, -, h₄, -⟩ := returns_bind_iff.mp h₃
    exact absurd (returns_pure_iff.mp h₄).1 Bool.false_ne_true
  split at h₂
  · split at h₂
    · exact (returns_pure_iff.mp h₂).2.1
    · exact absurd h₂ hnot
  · exact absurd (returns_pure_iff.mp h₂).1 Bool.false_ne_true

/-- A round that ends the program gives up a word that is not programmed again. -/
theorem rewriteWord_reports (hA : A.StopsOnly Fatal.NotReported)
    (h : (rewriteWord A t verifyOnly addr expected word s).result = .error (reported values)) :
    values = [addr, expected, word] ∧
      (rewriteWord A t verifyOnly addr expected word s).trace = [] := by
  have hvalues : ∀ {s₁ : Session σ}, (verifyError addr expected word : Action σ Word) s₁ =
      ⟨[], s₁, .error (reported [addr, expected, word])⟩ := rfl
  have hstop : ∀ {s₁ : Session σ}, ((verifyError addr expected word : Action σ Word) s₁).result =
      .error (reported values) → values = [addr, expected, word] := by
    intro s₁ hres
    simpa [hvalues, reported, eq_comm] using hres
  cases verifyOnly with
  | true => exact ⟨hstop h, rfl⟩
  | false =>
    rcases stops_bind_cases h with ⟨hrewrite, -⟩ | ⟨ok, tr, s₁, hr, hres, htr⟩
    · exact absurd rfl (hA.flashRewrite hasTimeouts_notReported t _ _ _ _ _ hrewrite values)
    · cases ok with
      | false =>
        obtain rfl := targetFlashRewrite_false hr
        exact ⟨hstop hres, htr⟩
      | true => exact absurd rfl (hA.registers.readWord hasTimeouts_notReported _ _ _ hres values)

/-- A word that is reported is given up as it was read last, or after one round too many. -/
theorem verifyWord_reports (hA : A.StopsOnly Fatal.NotReported)
    (h : (verifyWord A t verifyOnly addr expected tries word s).result = .error (reported values)) :
    ∃ words s', Rounds A t verifyOnly addr expected s word words
        (verifyWord A t verifyOnly addr expected tries word s).trace s' ∧
      values = [addr, expected, words.getLastD word] ∧
      (words.getLastD word ≠ expected ∨ words.length = tries + 1) := by
  induction tries generalizing word s with
  | zero =>
    by_cases heq : word = expected
    · rw [verifyWord, if_pos heq] at h
      cases h
    · rw [verifyWord, if_neg heq] at h ⊢
      rcases stops_bind_cases h with ⟨hround, htr⟩ | ⟨word', tr, s₁, hr, hres, htr⟩
      · obtain ⟨rfl, hnil⟩ := rewriteWord_reports hA hround
        rw [htr, hnil]
        exact ⟨[], s, .done s word, rfl, .inl heq⟩
      · rw [htr]
        refine ⟨[word'], s₁, .again heq hr (.done s₁ word'), ?_, .inr rfl⟩
        have hvalues : reported [addr, expected, word'] = reported values := Except.error.inj hres
        simpa [reported, eq_comm] using hvalues
  | succ tries ih =>
    by_cases heq : word = expected
    · rw [verifyWord, if_pos heq] at h
      cases h
    · rw [verifyWord, if_neg heq] at h ⊢
      rcases stops_bind_cases h with ⟨hround, htr⟩ | ⟨word', tr, s₁, hr, hres, htr⟩
      · obtain ⟨rfl, hnil⟩ := rewriteWord_reports hA hround
        rw [htr, hnil]
        exact ⟨[], s, .done s word, rfl, .inl heq⟩
      · obtain ⟨words, s', hrounds, hvalues, hlast⟩ := ih hres
        rw [htr]
        refine ⟨word' :: words, s', .again heq hr hrounds, ?_, ?_⟩
        · rwa [List.getLastD_cons]
        · rw [List.getLastD_cons, List.length_cons]
          exact hlast.imp_right fun hlen => by rw [hlen]

/-- After one round too many the word is reported, whatever was read. -/
theorem verifyWord_exceeds (h : Rounds A t verifyOnly addr expected s word words tr s')
    (hlen : words.length = tries + 1) :
    (verifyWord A t verifyOnly addr expected tries word s).result =
      .error (reported [addr, expected, words.getLastD word]) := by
  induction tries generalizing word words s tr with
  | zero =>
    obtain ⟨last, rfl⟩ := List.length_eq_one_iff.mp hlen
    cases h with
    | again hne hround hrest =>
      rw [verifyWord, if_neg hne, (result_bind_of_returns hround).1]
      rfl
  | succ tries ih =>
    cases h with
    | done => simp at hlen
    | again hne hround hrest =>
      rw [verifyWord, if_neg hne, (result_bind_of_returns hround).1, List.getLastD_cons]
      exact ih hrest (by simpa using hlen)

end Word

section Block

variable {offset i : Nat} {word : Word} {block : List Word} {s s' : Session σ} {tr : List Call}

theorem verifyWords_append (offset : Nat) (ws ws' : List Word) :
    verifyWords A t verifyOnly mem offset (ws ++ ws') = (do
      verifyWords A t verifyOnly mem offset ws
      verifyWords A t verifyOnly mem (offset + 4 * ws.length) ws') := by
  induction ws generalizing offset with
  | nil => rfl
  | cons w ws ih =>
    have hnext : offset + 4 + 4 * ws.length = offset + 4 * (ws.length + 1) := by omega
    rw [List.cons_append, verifyWords, ih, hnext, verifyWords, bind_assoc]
    rfl

/-- A block up to a word of it, that word and the rest. -/
theorem verifyWords_at (h : block[i]? = some word) :
    verifyWords A t verifyOnly mem offset block = (do
      verifyWords A t verifyOnly mem offset (block.take i)
      verifyWord A t verifyOnly (mem.base + BitVec.ofNat 32 (offset + 4 * i)) (mem.word (offset + 4 * i))
        3 word
      verifyWords A t verifyOnly mem (offset + 4 * i + 4) (block.drop (i + 1))) := by
  obtain ⟨hi, rfl⟩ := List.getElem?_eq_some_iff.mp h
  have hsplit : block.take i ++ block[i] :: block.drop (i + 1) = block := by
    rw [List.getElem_cons_drop, List.take_append_drop]
  have hlen : (block.take i).length = i := List.length_take_of_le hi.le
  conv_lhs => rw [← hsplit, verifyWords_append, hlen]
  rfl

/-- A block that stops stops at one of its words. -/
theorem verifyWords_stops {e : Fatal}
    (h : (verifyWords A t verifyOnly mem offset block s).result = .error e) :
    ∃ i word tr s₁, block[i]? = some word ∧
      (verifyWords A t verifyOnly mem offset (block.take i)).Returns s () tr s₁ ∧
      (verifyWord A t verifyOnly (mem.base + BitVec.ofNat 32 (offset + 4 * i))
        (mem.word (offset + 4 * i)) 3 word s₁).result = .error e ∧
      (verifyWords A t verifyOnly mem offset block s).trace = tr ++
        (verifyWord A t verifyOnly (mem.base + BitVec.ofNat 32 (offset + 4 * i))
          (mem.word (offset + 4 * i)) 3 word s₁).trace := by
  induction block generalizing offset s with
  | nil => cases h
  | cons w block ih =>
    rcases stops_bind_cases h with ⟨hword, htr⟩ | ⟨_, tr, s₁, hr, hres, htr⟩
    · exact ⟨0, w, [], s, rfl, rfl, hword, htr⟩
    · obtain ⟨i, word, tr', s₂, hi, hbefore, hword, htr'⟩ := ih hres
      have hnext : offset + 4 + 4 * i = offset + 4 * (i + 1) := by omega
      rw [hnext] at hword htr'
      refine ⟨i + 1, word, tr ++ tr', s₂, hi, hr.bind hbefore, hword, ?_⟩
      refine htr.trans ?_
      rw [htr', List.append_assoc]

end Block

section VerifyBlock

variable {addr len : Nat} {s : Session σ}

/-- `verify_block` comes to the word `i`, which it has read with the block, after the words before
it. -/
def ComesTo (A : Adapter σ) (t : Target) (verifyOnly : Bool) (mem : MemoryImage) (addr len : Nat)
    (s : Session σ) (i : Nat) (word : Word) (tr : List Call) (s' : Session σ) : Prop :=
  ∃ block tr₀ s₀ tr₁, (targetReadBlock A (mem.base + BitVec.ofNat 32 addr)
      (BitVec.ofNat 32 ((len + 3) / 4))).Returns s block tr₀ s₀ ∧ block[i]? = some word ∧
    (verifyWords A t verifyOnly mem addr (block.take i)).Returns s₀ () tr₁ s' ∧ tr = tr₀ ++ tr₁

/-- A run of `verify_block` answers only if each word was last read as expected, and reports a word
only if it was last read otherwise. -/
structure Verifies (A : Adapter σ) (t : Target) (verifyOnly : Bool) (mem : MemoryImage)
    (addr len : Nat) (s : Session σ) : Prop where
  accepted : ∀ tr s', (verifyBlock A t verifyOnly mem addr len).Returns s () tr s' →
    ∀ i < (len + 3) / 4, ∃ word tr₁ s₁ words tr₂ s₂, ComesTo A t verifyOnly mem addr len s i word tr₁ s₁ ∧
      Rounds A t verifyOnly (mem.base + BitVec.ofNat 32 (addr + 4 * i)) (mem.word (addr + 4 * i))
        s₁ word words tr₂ s₂ ∧
      words.getLastD word = mem.word (addr + 4 * i)
  rejected : ∀ values,
    (verifyBlock A t verifyOnly mem addr len s).result = .error (reported values) →
    ∃ i < (len + 3) / 4, ∃ word tr₁ s₁ words tr₂ s₂,
      ComesTo A t verifyOnly mem addr len s i word tr₁ s₁ ∧
      Rounds A t verifyOnly (mem.base + BitVec.ofNat 32 (addr + 4 * i)) (mem.word (addr + 4 * i))
        s₁ word words tr₂ s₂ ∧
      (verifyBlock A t verifyOnly mem addr len s).trace = tr₁ ++ tr₂ ∧
      values = [mem.base + BitVec.ofNat 32 (addr + 4 * i), mem.word (addr + 4 * i),
        words.getLastD word] ∧
      words.getLastD word ≠ mem.word (addr + 4 * i)

/-- The number of words in a block. -/
theorem length_of_comesTo {n : Nat} {block : List Word} {tr : List Call} {s' : Session σ} {a : Word}
    (hn : n ≤ blockSz)
    (h : (targetReadBlock A a (BitVec.ofNat 32 ((n + 3) / 4))).Returns s block tr s') :
    block.length = (n + 3) / 4 := by
  rw [length_targetReadBlock h, BitVec.toNat_ofNat, Nat.mod_eq_of_lt]
  unfold blockSz at hn
  omega

/-- An answer accepts each word after its rounds. -/
theorem verifyBlock_accepts (hlen : len ≤ blockSz) {tr : List Call} {s' : Session σ}
    (h : (verifyBlock A t verifyOnly mem addr len).Returns s () tr s') {i : Nat}
    (hi : i < (len + 3) / 4) :
    ∃ word tr₁ s₁ words tr₂ s₂, ComesTo A t verifyOnly mem addr len s i word tr₁ s₁ ∧
      Rounds A t verifyOnly (mem.base + BitVec.ofNat 32 (addr + 4 * i)) (mem.word (addr + 4 * i))
        s₁ word words tr₂ s₂ ∧
      words.getLastD word = mem.word (addr + 4 * i) := by
  obtain ⟨block, tr₀, s₀, tr', hblock, hwords, rfl⟩ := returns_bind_iff.mp h
  have hget : block[i]? = some (block.getD i 0) := by
    rw [List.getD_eq_getElem?_getD, List.getElem?_eq_getElem (by rwa [length_of_comesTo hlen hblock])]
    rfl
  rw [verifyWords_at hget] at hwords
  obtain ⟨_, tr₁, s₁, _, hbefore, hrest, rfl⟩ := returns_bind_iff.mp hwords
  obtain ⟨_, tr₂, s₂, _, hword, -, rfl⟩ := returns_bind_iff.mp hrest
  obtain ⟨words, hrounds, hlast⟩ := verifyWord_returns hword
  exact ⟨_, _, s₁, words, tr₂, s₂, ⟨block, tr₀, s₀, tr₁, hblock, hget, hbefore, rfl⟩, hrounds, hlast⟩

/-- A word of the block that is reported. -/
theorem verifyBlock_reports (hA : A.StopsOnly Fatal.NotReported) (hlen : len ≤ blockSz)
    {values : List Word}
    (h : (verifyBlock A t verifyOnly mem addr len s).result = .error (reported values)) :
    ∃ i < (len + 3) / 4, ∃ word tr₁ s₁ words tr₂ s₂,
      ComesTo A t verifyOnly mem addr len s i word tr₁ s₁ ∧
      Rounds A t verifyOnly (mem.base + BitVec.ofNat 32 (addr + 4 * i)) (mem.word (addr + 4 * i))
        s₁ word words tr₂ s₂ ∧
      (verifyBlock A t verifyOnly mem addr len s).trace = tr₁ ++ tr₂ ∧
      values = [mem.base + BitVec.ofNat 32 (addr + 4 * i), mem.word (addr + 4 * i),
        words.getLastD word] ∧
      (words.getLastD word ≠ mem.word (addr + 4 * i) ∨ words.length = 4) := by
  rcases stops_bind_cases h with ⟨hblock, -⟩ | ⟨block, tr₀, s₀, hblock, hwords, htr⟩
  · exact absurd rfl (hA.registers.block_read hasTimeouts_notReported hA.readBlock _ _ _ _ hblock values)
  · obtain ⟨i, word, tr₁, s₁, hget, hbefore, hword, htr'⟩ := verifyWords_stops hwords
    obtain ⟨words, s₂, hrounds, hvalues, hlast⟩ := verifyWord_reports hA hword
    have hi : i < (len + 3) / 4 := by
      rw [← length_of_comesTo hlen hblock]
      exact (List.getElem?_eq_some_iff.mp hget).1
    refine ⟨i, hi, word, tr₀ ++ tr₁, s₁, words, _, s₂,
      ⟨block, tr₀, s₀, tr₁, hblock, hget, hbefore, rfl⟩, hrounds, ?_, hvalues, hlast⟩
    refine htr.trans ?_
    rw [htr', List.append_assoc]

/-- A run does as it should exactly where no word that it comes to is wrong when it is first read
and after three rounds and as expected after the fourth. -/
theorem verifyBlock_verifies_iff (hA : A.StopsOnly Fatal.NotReported) (hlen : len ≤ blockSz) :
    Verifies A t verifyOnly mem addr len s ↔
      ∀ i word tr₁ s₁, ComesTo A t verifyOnly mem addr len s i word tr₁ s₁ →
        ∀ words tr₂ s₂, Rounds A t verifyOnly (mem.base + BitVec.ofNat 32 (addr + 4 * i))
            (mem.word (addr + 4 * i)) s₁ word words tr₂ s₂ →
          words.length = 4 → words.getLastD word ≠ mem.word (addr + 4 * i) := by
  constructor
  · intro h i word tr₁ s₁ hcomes words tr₂ s₂ hrounds hfour hlast
    obtain ⟨block, tr₀, s₀, tr', hblock, hget, hbefore, -⟩ := hcomes
    have hword := verifyWord_exceeds hrounds hfour
    have hrun : (verifyBlock A t verifyOnly mem addr len s).result = .error
        (reported [mem.base + BitVec.ofNat 32 (addr + 4 * i), mem.word (addr + 4 * i),
          words.getLastD word]) := by
      rw [verifyBlock, (result_bind_of_returns hblock).1, verifyWords_at hget,
        (result_bind_of_returns hbefore).1, bind_apply, hword]
    obtain ⟨j, -, _, _, _, words', _, _, -, -, -, hvalues, hne⟩ := h.rejected _ hrun
    simp only [List.cons.injEq, and_true] at hvalues
    obtain ⟨-, hexpected, hmem⟩ := hvalues
    rw [← hexpected, ← hmem] at hne
    exact hne hlast
  · intro h
    constructor
    · exact fun tr s' hr i hi => verifyBlock_accepts hlen hr hi
    · intro values hr
      obtain ⟨i, hi, word, tr₁, s₁, words, tr₂, s₂, hcomes, hrounds, htr, hvalues, hlast⟩ :=
        verifyBlock_reports hA hlen hr
      refine ⟨i, hi, word, tr₁, s₁, words, tr₂, s₂, hcomes, hrounds, htr, hvalues, ?_⟩
      rcases hlast with hne | hfour
      · exact hne
      · exact h i word tr₁ s₁ hcomes words tr₂ s₂ hrounds hfour

end VerifyBlock

/-- The adapter with a script grants everything. -/
theorem scripted_stopsOnly (idcode default : Word) (F : Fatal → Prop) :
    (scripted idcode default).StopsOnly F where
  oncdWrite _ _ _ _ _ h := by cases h
  oncdRead reg _ d e h := by
    dsimp only [scripted] at h
    split_ifs at h
  readBlock _ h := by cases h
  writeNwords _ h := by cases h

/-- A board whose boot memory is 8 bits wide. -/
def byteBoard : Target :=
  { Target.allocated with
    toFlashVariant := flashVariant 3
    flash := Target.allocated.setRegion ⟨0, nflash_pos⟩ ⟨0x1FC00000, 0x1FFFFFFF⟩ }

/-- An image of one word. -/
def wordImage : MemoryImage := ⟨fun i => [0x11, 0x22, 0x33, 0x44].getD i 0, 4, 0x1FC00000⟩

/-- One of its bytes is wrong, and is right after the first round. -/
theorem verifyBlock_oneByte_iff :
    Verifies (scripted 0 0) byteBoard false wordImage 0 4 ⟨0, [0x44332200, 0x44332211]⟩ ↔
      ∀ i word tr₁ s₁, ComesTo (scripted 0 0) byteBoard false wordImage 0 4
          ⟨0, [0x44332200, 0x44332211]⟩ i word tr₁ s₁ →
        ∀ words tr₂ s₂, Rounds (scripted 0 0) byteBoard false
            (wordImage.base + BitVec.ofNat 32 (0 + 4 * i)) (wordImage.word (0 + 4 * i)) s₁ word words
            tr₂ s₂ →
          words.length = 4 → words.getLastD word ≠ wordImage.word (0 + 4 * i) :=
  verifyBlock_verifies_iff (scripted_stopsOnly 0 0 _) (by decide)

/-- All of its bytes are wrong and each round repairs one of them: after the fourth round the word is
as expected, and is reported. -/
theorem not_verifies_fourBytes :
    (verifyBlock (scripted 0 0) byteBoard false wordImage 0 4
        ⟨0, [0, 0x11, 0x2211, 0x332211, 0x44332211]⟩).result =
      .error (reported [0x1FC00000, 0x44332211, 0x44332211]) ∧
    ¬ Verifies (scripted 0 0) byteBoard false wordImage 0 4
      ⟨0, [0, 0x11, 0x2211, 0x332211, 0x44332211]⟩ := by
  have hrun : (verifyBlock (scripted 0 0) byteBoard false wordImage 0 4
      ⟨0, [0, 0x11, 0x2211, 0x332211, 0x44332211]⟩).result =
        .error (reported [0x1FC00000, 0x44332211, 0x44332211]) := by rfl
  refine ⟨hrun, fun h => ?_⟩
  obtain ⟨i, -, _, _, _, words, _, _, -, -, -, hvalues, hne⟩ := h.rejected _ hrun
  simp only [List.cons.injEq, and_true] at hvalues
  exact hne (hvalues.2.2.symm.trans hvalues.2.1)

end Mcprog
