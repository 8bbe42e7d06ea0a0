import Mathlib
import Stack256.Processor.Register
import Stack256.Proofs.Processor.Faults
import Stack256.Proofs.State.Verdict

/-!
# Stack256.Proofs.Processor.Report — what a step in place reports

A processor within its capacity reports what its sketch does (`sketch_step`), so that each report
has its verdict (`report_step_iff`).  The place of an instruction and the end of its data lie in the
code or not far behind it: a register that holds a few numbers more than the code has bytes never
meets its limit there, and a processor that keeps its place in it steps as any other
(`stepIn_eq_step`).
-/

namespace Stack256.Processor

open Register

variable {p : Processor} {byte : UInt8} {limit : ℕ}

/-! ### Places in a register -/

theorem pc_push (place : ℕ) (word : Word) (p : Processor) :
    ((push place word).on p).2.pc = p.pc := by
  rw [push, on_bind, on_get]
  dsimp only
  split <;> rfl

theorem dataBetween?_eq {width : ℕ} (hw : 1 ≤ width) (code : List UInt8) (start : ℕ) :
    dataBetween? code start (start + width) =
      if code.length - start < width then none else some ((code.drop start).take width) := by
  unfold dataBetween?
  rw [Nat.add_sub_cancel_left]
  split_ifs with h1 h2 h2
  · omega
  · rfl
  · rfl
  · omega

/-- Data that end within the limit are read as they are without a register. -/
theorem on_carryOutPushIn {width : ℕ} (hw : 1 ≤ width) (h : p.pc + width ≤ limit) (place : ℕ) :
    (carryOutPushIn limit place width).on p = (carryOutPush place width).on p := by
  have hlen : (p.code.drop p.pc).length = p.code.length - p.pc := List.length_drop
  simp only [carryOutPushIn, carryOutPush, on_bind, on_get, add?_of_le h, Option.bind_some,
    dataBetween?_eq hw, hlen]
  split_ifs with hlt
  · rfl
  · have hpc := pc_push place (Word.ofBytes ((p.code.drop p.pc).take width)) p
    simp only [on_bind, addHeld_of_le h]
    -- the place is read before the word is put on the stack, or behind that: it is the same one
    generalize (push place (Word.ofBytes ((p.code.drop p.pc).take width))).on p = r at hpc ⊢
    rcases r with ⟨_ | _, q⟩
    · rfl
    · rw [← show q.pc = p.pc from hpc]
      rfl

theorem on_carryOutIn (h : p.pc + 32 ≤ limit) (place : ℕ) (byte : UInt8) :
    (carryOutIn limit place byte).on p = (carryOut place byte).on p := by
  unfold carryOutIn
  cases hw : Push.width? byte with
  | none => rfl
  | some width =>
    obtain ⟨hpos, hle⟩ := Push.width_bounds hw
    simp only [carryOut, hw, on_bind, on_carryOutPushIn hpos (show p.pc + width ≤ limit by omega)]

/-- With a register that holds the length of the code and the width of a push in addition, a step is
the same as without. -/
theorem stepIn_eq_step (h : p.code.length + 32 ≤ limit) : p.stepIn limit = p.step := by
  unfold stepIn step
  split_ifs
  · rfl
  · cases hbyte : p.code[p.pc]? with
    | none => rfl
    | some byte =>
      have hlt : p.pc < p.code.length := (List.getElem?_eq_some_iff.1 hbyte).1
      have hstart : addHeld limit p.pc 1 = p.pc + 1 := addHeld_of_le (by omega)
      have hroom : { p with pc := p.pc + 1 }.pc + 32 ≤ limit := by
        show p.pc + 1 + 32 ≤ limit
        omega
      simp only [hstart, on_carryOutIn hroom]

/-- Half the numbers of a register of six bits or more leave room for the width of a push. -/
theorem add_width_le_limit {length bits : ℕ} (hbits : 6 ≤ bits) (h : length < 2 ^ (bits - 1)) :
    length + 32 ≤ 2 ^ bits - 1 := by
  have hpow : 2 ^ 5 ≤ 2 ^ (bits - 1) := Nat.pow_le_pow_right (by decide) (by omega)
  have hdouble : 2 ^ bits = 2 * 2 ^ (bits - 1) := by
    rw [← pow_succ', Nat.sub_add_cancel (by omega)]
  omega

/-! ### Sketches -/

/-- The processor without its words. -/
def sketch (p : Processor) : Sketch :=
  { code := p.code, capacity := p.capacity, policy := p.policy, pc := p.pc,
    depth := p.words.length, halted := p.halted }

@[simp] theorem sketch_processor (s : State) : s.processor.sketch = s.sketch := by
  simp [sketch, State.processor, State.sketch]

theorem sketch_step (hs : p.words.length ≤ p.capacity) :
    p.sketch.step = Prod.map id sketch p.step := by
  have h := State.sketch_step p.state
  rw [← sketch_processor, processor_state] at h
  rw [h, step_eq_step_state hs]
  exact Prod.ext rfl (sketch_processor _).symm

theorem sketch_step_eq_carryOut (hh : p.halted = false) (hbyte : p.code[p.pc]? = some byte) :
    p.sketch.step = p.sketch.carryOut byte := by
  have hbyte' : p.sketch.code[p.sketch.pc]? = some byte := hbyte
  rw [Sketch.step, hbyte']
  exact if_neg (by simp [sketch, hh])

/-! ### Reports -/

/-- **Reports.**  At `byte` the step of `p` reports each fault, the end and the going on exactly in
the case of that name, and a register of `bits` bits holds the places that it calculates. -/
theorem report_step_iff (p : Processor) (byte : UInt8) (hs : p.words.length ≤ p.capacity)
    (hh : p.halted = false) (hbyte : p.code[p.pc]? = some byte) :
    (∀ place width available, p.step.1 = .failed (.truncatedPush place width available) ↔
      place = p.pc ∧ p.sketch.CutOff byte width available) ∧
    (∀ place, p.step.1 = .failed (.stackOverflow place) ↔
      place = p.pc ∧ p.sketch.Overflows byte) ∧
    (∀ place b, p.step.1 = .failed (.unknownByte place b) ↔
      place = p.pc ∧ b = byte ∧ p.sketch.Refuses byte) ∧
    (∀ place b, p.step.1 = .failed (.stackUnderflow place b) ↔
      place = p.pc ∧ b = byte ∧ p.sketch.Underflows byte) ∧
    (p.step.1 = .halted ↔ byte = Opcode.stop.byte) ∧
    (p.step.1 = .running ↔ (∀ width available, ¬ p.sketch.CutOff byte width available) ∧
      ¬ p.sketch.Overflows byte ∧ ¬ p.sketch.Refuses byte ∧ ¬ p.sketch.Underflows byte ∧
      byte ≠ Opcode.stop.byte) ∧
    (p.step.1 = .running →
      (∀ width, Push.OfWidth width byte → p.step.2.pc = p.pc + 1 + width) ∧
      ((∀ width, ¬ Push.OfWidth width byte) → p.step.2.pc = p.pc + 1)) ∧
    ∀ bits, 6 ≤ bits → p.code.length < 2 ^ (bits - 1) →
      p.stepIn (2 ^ bits - 1) = p.step ∧ addHeld (2 ^ bits - 1) p.pc 1 = p.pc + 1 ∧
      ∀ width, Push.OfWidth width byte →
        add? (2 ^ bits - 1) (p.pc + 1) width = some (p.pc + 1 + width) ∧
        addHeld (2 ^ bits - 1) (p.pc + 1) width = p.pc + 1 + width := by
  have hpc : p.pc < p.code.length := (List.getElem?_eq_some_iff.1 hbyte).1
  have hstep : p.sketch.carryOut byte = Prod.map id sketch p.step := by
    rw [← sketch_step_eq_carryOut hh hbyte, sketch_step hs]
  have hreport : ∀ signal, p.step.1 = signal ↔ p.sketch.Verdict byte signal := by
    intro signal
    rw [← Sketch.verdict_iff (s := p.sketch) hs hpc, hstep]
    rfl
  refine ⟨fun place width available => (hreport _).trans Sketch.verdict_truncatedPush_iff,
    fun place => (hreport _).trans Sketch.verdict_stackOverflow_iff,
    fun place b => (hreport _).trans Sketch.verdict_unknownByte_iff,
    fun place b => (hreport _).trans Sketch.verdict_stackUnderflow_iff,
    (hreport _).trans Sketch.verdict_halted_iff, (hreport _).trans Sketch.verdict_running_iff,
    fun hrunning => ?_, fun bits hbits hlen => ?_⟩
  · have hnext : p.sketch.carryOut byte = (.running, p.step.2.sketch) :=
      hstep.trans (Prod.ext hrunning rfl)
    obtain ⟨hplace, -⟩ := Sketch.carryOut_running hnext
    refine ⟨fun width hw => ?_, fun hw => ?_⟩
    · rwa [Push.ofWidth_iff.1 hw] at hplace
    · rwa [Push.width?_eq_none_iff.2 hw] at hplace
  · have hlimit := add_width_le_limit hbits hlen
    refine ⟨stepIn_eq_step hlimit, addHeld_of_le (by omega), fun width hw => ?_⟩
    obtain ⟨-, hle, -⟩ := hw
    exact ⟨add?_of_le (by omega), addHeld_of_le (by omega)⟩

/-- On a full stack, the push whose data are not all there is reported as such, and the one whose
data are there overflows it.  With room for another word, a push may end with the code; nothing of
this depends on whether its places lie in a register of eight bits. -/
theorem report_step_iff_cut_off :
    let cut : Processor := { code := [0x5f, 0x62, 1, 2], capacity := 1, pc := 1, words := [5] }
    let full : Processor := { code := [0x5f, 0x61, 1, 2], capacity := 1, pc := 1, words := [5] }
    let room : Processor := { code := [0x5f, 0x61, 1, 2], capacity := 2, pc := 1, words := [5] }
    (cut.words.length ≤ cut.capacity ∧ cut.halted = false ∧ cut.code[cut.pc]? = some 0x62) ∧
    cut.step.1 = .failed (.truncatedPush 1 3 2) ∧ full.step.1 = .failed (.stackOverflow 1) ∧
    (room.step.1 = .running ∧ room.step.2.pc = 4 ∧ 6 ≤ 8 ∧ room.code.length < 2 ^ (8 - 1) ∧
      room.stepIn (2 ^ 8 - 1) = room.step) := by
  intro cut full room
  have hthree : Push.OfWidth 3 0x62 := by decide
  have htwo : Push.OfWidth 2 0x61 := by decide
  obtain ⟨hcut, -⟩ := report_step_iff cut 0x62 (by decide) rfl rfl
  obtain ⟨-, hfull, -⟩ := report_step_iff full 0x61 (by decide) rfl rfl
  obtain ⟨-, -, -, -, -, -, hnext, hregister⟩ := report_step_iff room 0x61 (by decide) rfl rfl
  have hrunning : room.step.1 = .running := by decide +kernel
  exact ⟨⟨by decide, rfl, rfl⟩, (hcut 1 3 2).2 ⟨rfl, hthree, rfl, by decide⟩,
    (hfull 1).2 ⟨rfl, .inl ⟨2, htwo, by decide⟩, rfl⟩, hrunning, (hnext hrunning).1 2 htwo,
    by decide, by decide, (hregister 8 (by decide) (by decide)).1⟩

end Stack256.Processor
