import Mcprog.Library.Tap

/-!
# A data register behind a test access port

While the controller is in Shift-DR each clock shifts a bit into the selected register and a bit
out of it. What comes out may depend on the bits that went in before, and all of them together
take effect in Update-DR.
-/

namespace Jtag

/-- A data register of a unit: the next bit that it shifts out, and what it comes to when the
bits that were shifted in take effect. -/
structure DataRegister (τ : Type) where
  out : τ → List Bool → Bool
  update : τ → List Bool → τ

/-- A unit behind the controller, with the bits that are shifted in. -/
structure Chain (τ : Type) where
  tap : TapState
  shifted : List Bool
  held : τ

namespace DataRegister

variable {τ : Type} (R : DataRegister τ)

/-- TDO at a rising edge of TCK. -/
def tdo (c : Chain τ) : Bool := R.out c.held c.shifted

/-- The chain after a clock. -/
def clock (c : Chain τ) (k : Clock) : Chain τ :=
  let shifted :=
    match c.tap with
    | .captureDr => []
    | .shiftDr => c.shifted ++ [k.tdi]
    | _ => c.shifted
  let tap := c.tap.next k.tms
  ⟨tap, shifted, if tap = .updateDr then R.update c.held shifted else c.held⟩

/-- The chain after the clocks. -/
def after (c : Chain τ) (clocks : List Clock) : Chain τ := clocks.foldl R.clock c

/-- The bits at TDO during the clocks. -/
def captured : Chain τ → List Clock → List Bool
  | _, [] => []
  | c, k :: clocks => R.tdo c :: captured (R.clock c k) clocks

theorem length_captured (c : Chain τ) (clocks : List Clock) : (R.captured c clocks).length = clocks.length := by
  induction clocks generalizing c with
  | nil => rfl
  | cons k clocks ih => rw [captured, List.length_cons, List.length_cons, ih]

variable {R} {c : Chain τ} {clocks : List Clock}

theorem clock_shiftDr (h : c.tap = .shiftDr) {k : Clock} (hk : k.tms = false) :
    R.clock c k = { c with shifted := c.shifted ++ [k.tdi] } := by
  unfold clock
  rw [h, hk]
  rfl

/-- While TMS is low the bits are shifted in. -/
theorem after_shiftDr (h : c.tap = .shiftDr) (hlow : ∀ k ∈ clocks, k.tms = false) :
    R.after c clocks = { c with shifted := c.shifted ++ clocks.map Clock.tdi } := by
  induction clocks generalizing c with
  | nil =>
    rw [List.map_nil, List.append_nil]
    rfl
  | cons k clocks ih =>
    have hfirst := clock_shiftDr (R := R) h (hlow k List.mem_cons_self)
    have hrest := ih (c := R.clock c k) (by rw [hfirst]; exact h)
      fun k' hk' => hlow k' (List.mem_cons_of_mem k hk')
    have hcons : R.after c (k :: clocks) = R.after (R.clock c k) clocks := rfl
    rw [hcons, hrest, hfirst, List.map_cons, List.append_assoc]
    rfl

/-- While TMS is low each bit comes out behind those that went in before it. -/
theorem getD_captured_shiftDr (h : c.tap = .shiftDr) (hlow : ∀ k ∈ clocks, k.tms = false) {i : Nat}
    (hi : i < clocks.length) : (R.captured c clocks).getD i false =
      R.out c.held (c.shifted ++ (clocks.take i).map Clock.tdi) := by
  induction clocks generalizing c i with
  | nil => exact absurd hi (Nat.not_lt_zero i)
  | cons k clocks ih =>
    cases i with
    | zero =>
      rw [List.take_zero, List.map_nil, List.append_nil]
      rfl
    | succ i =>
      have hfirst := clock_shiftDr (R := R) h (hlow k List.mem_cons_self)
      have hrest := ih (c := R.clock c k) (by rw [hfirst]; exact h)
        (fun k' hk' => hlow k' (List.mem_cons_of_mem k hk')) (Nat.lt_of_succ_lt_succ hi)
      rw [captured, List.getD_cons_succ, hrest, hfirst, List.take_succ_cons, List.map_cons,
        List.append_assoc]
      rfl

/-- Three clocks lead to Shift-DR, with nothing shifted in yet. -/
theorem after_select {k₁ k₂ k₃ : Clock} (h : c.tap.Rests) (h₁ : k₁.tms = true) (h₂ : k₂.tms = false)
    (h₃ : k₃.tms = false) : R.after c [k₁, k₂, k₃] = ⟨.shiftDr, [], c.held⟩ := by
  obtain ⟨tap, shifted, held⟩ := c
  change R.clock (R.clock (R.clock _ k₁) k₂) k₃ = _
  unfold clock
  rw [h₁, h₂, h₃]
  rcases h with rfl | rfl | rfl <;> rfl

/-- Two clocks with TMS high shift one more bit and let all of them take effect. -/
theorem after_exit {k₁ k₂ : Clock} (h : c.tap = .shiftDr) (h₁ : k₁.tms = true) (h₂ : k₂.tms = true) :
    R.after c [k₁, k₂] = ⟨.updateDr, c.shifted ++ [k₁.tdi], R.update c.held (c.shifted ++ [k₁.tdi])⟩ := by
  change R.clock (R.clock c k₁) k₂ = _
  unfold clock
  rw [h, h₁, h₂]
  rfl

end DataRegister

end Jtag
