import Mathlib
import Stack256.Proofs.State.Invariant
import Stack256.State.Sketch

/-!
# Stack256.Proofs.State.Sketch — runs do not depend on data

A sketch knows the length of the stack and none of its words.  It steps as the state does that it
is taken from (`sketch_step`), and of the code it looks at nothing but the length and the byte at
its place (`Sketch.step_withCode`).  So two runs over code that differs in the data of pushes only
go the same way, step by step.
-/

namespace Stack256

/-- Only the push without data puts more words on the stack than it takes off. -/
theorem Opcode.results_le_arity {o : Opcode} (h : o ≠ .push0) : o.results ≤ o.arity := by
  cases o with
  | push0 => exact absurd rfl h
  | _ => decide

namespace Sketch

/-- The sketch after `k` steps. -/
def steps (k : ℕ) (s : Sketch) : Sketch :=
  (fun s => s.step.2)^[k] s

/-- What the next step reports after `k` steps. -/
def report (s : Sketch) (k : ℕ) : Signal :=
  (s.steps k).step.1

/-- The same sketch over other code. -/
def withCode (code : List UInt8) (s : Sketch) : Sketch :=
  { s with code }

variable {s : Sketch} {code : List UInt8} {place : ℕ}

theorem steps_succ' (k : ℕ) (s : Sketch) : s.steps (k + 1) = (s.steps k).step.2 :=
  Function.iterate_succ_apply' _ k s

/-! ### What a sketch reads of its code -/

theorem carryOut_withCode (hlen : code.length = s.code.length) (byte : UInt8) :
    (s.withCode code).carryOut byte = Prod.map id (withCode code) (s.carryOut byte) := by
  obtain ⟨code', capacity, policy, pc, depth, halted⟩ := s
  simp only [withCode, carryOut, move, stop, hlen]
  cases Push.width? byte with
  | some width =>
    simp only [apply_ite (Prod.map id (withCode code))]
    rfl
  | none =>
    cases Opcode.ofByte? byte with
    | some o =>
      simp only [apply_ite (Prod.map id (withCode code))]
      rfl
    | none => cases policy <;> rfl

/-- A sketch reads the length of its code and the byte at its place. -/
theorem step_withCode (hlen : code.length = s.code.length)
    (hbyte : s.halted = false → code[s.pc]? = s.code[s.pc]?) :
    (s.withCode code).step = Prod.map id (withCode code) s.step := by
  have hcarry := carryOut_withCode hlen
  obtain ⟨code', capacity, policy, pc, depth, halted⟩ := s
  cases halted with
  | true => rfl
  | false =>
    simp only [withCode] at hcarry
    simp only [withCode, step, hbyte rfl, Bool.false_eq_true, if_false]
    cases code'[pc]? with
    | none => rfl
    | some byte => exact hcarry byte

/-! ### Overflow -/

theorem overflow_of_move {length taken put : ℕ}
    (h : (s.move length taken put).1 = .failed (.stackOverflow place)) :
    s.capacity < s.depth - taken + put := by
  unfold move at h
  split_ifs at h with hlt
  exact hlt

theorem full_of_carryOut (hd : s.depth ≤ s.capacity) {byte : UInt8}
    (h : (s.carryOut byte).1 = .failed (.stackOverflow place)) :
    s.depth = s.capacity ∧ ((Push.width? byte).isSome ∨ byte = Opcode.push0.byte) := by
  unfold carryOut at h
  cases hw : Push.width? byte with
  | some width =>
    simp only [hw] at h
    split_ifs at h
    · cases h
    · have hlt := overflow_of_move h
      exact ⟨by omega, .inl rfl⟩
  | none =>
    cases ho : Opcode.ofByte? byte with
    | some o =>
      simp only [hw, ho] at h
      split_ifs at h with harity hstop
      · cases h
      · cases h
      · have hlt := overflow_of_move h
        by_cases hpush : o = .push0
        · subst hpush
          have hfull : s.capacity < s.depth - 0 + 1 := hlt
          exact ⟨by omega, .inr (Opcode.byte_of_ofByte? ho).symm⟩
        · have hle := Opcode.results_le_arity hpush
          omega
    | none =>
      simp only [hw, ho] at h
      split at h <;> cases h

/-- Within the capacity, only a push overflows the stack, and only where it is full. -/
theorem full_of_overflow (hd : s.depth ≤ s.capacity)
    (h : s.step.1 = .failed (.stackOverflow place)) :
    s.depth = s.capacity ∧
      ∃ byte, s.code[s.pc]? = some byte ∧
        ((Push.width? byte).isSome ∨ byte = Opcode.push0.byte) := by
  unfold step at h
  split_ifs at h
  cases hbyte : s.code[s.pc]? with
  | none =>
    rw [hbyte] at h
    cases h
  | some byte =>
    rw [hbyte] at h
    obtain ⟨hfull, hpush⟩ := full_of_carryOut hd h
    exact ⟨hfull, byte, rfl, hpush⟩

end Sketch

namespace State

open Layout

variable {s : State} {byte : UInt8} {rest behind : List UInt8} {g : Segment}

/-! ### A sketch follows its state -/

theorem sketch_move {stack : List Word} {taken put : ℕ}
    (h : stack.length = s.stack.length - taken + put) (length : ℕ) :
    s.sketch.move length taken put =
      Prod.map id sketch (s.follow (s.settle (s.pc + length) stack)) := by
  unfold Sketch.move settle
  simp only [sketch, ← h]
  split_ifs with h1 h2 h2
  · omega
  · rfl
  · rfl
  · omega

theorem sketch_op {o : Opcode} (hstop : o ≠ .stop) (s : State) :
    (if s.stack.length < o.arity then s.sketch.stop (.failed (.stackUnderflow s.pc o.byte))
      else s.sketch.move 1 o.arity o.results) =
      Prod.map id sketch (s.follow (s.opcodeEffect o)) := by
  rw [opcodeEffect_of_ne_stop hstop]
  cases ht : o.action.stackAfter? s.stack with
  | none =>
    have harity : s.stack.length < o.arity := (o.stackAfter?_eq_none_iff s.stack).1 ht
    rw [if_pos harity]
    rfl
  | some stack =>
    have harity : ¬ s.stack.length < o.arity := by
      rw [← Opcode.stackAfter?_eq_none_iff, ht]
      exact Option.some_ne_none stack
    have hlength : stack.length + o.arity = s.stack.length + o.results :=
      Opcode.length_of_stackAfter? ht
    rw [if_neg harity]
    exact sketch_move (by omega) 1

theorem sketch_carryOut (hu : s.unread = byte :: rest) (hf : First byte rest g behind) :
    s.sketch.carryOut byte = Prod.map id sketch (s.follow (s.segmentEffect g)) := by
  have hrest : s.sketch.code.length - (s.sketch.pc + 1) = rest.length := by
    have h := congrArg List.length hu
    rw [unread, List.length_drop, List.length_cons] at h
    exact (by omega : s.code.length - (s.pc + 1) = rest.length)
  unfold Sketch.carryOut
  cases hf with
  | op hw ho =>
    simp only [hw, ho]
    rename_i o
    by_cases hstop : o = .stop
    · subst hstop
      rfl
    · simp only [if_neg hstop, ← Opcode.byte_of_ofByte? ho]
      exact sketch_op hstop s
  | push hw hle =>
    simp only [hw, hrest, if_neg (Nat.not_lt.2 hle)]
    rw [segmentEffect, List.length_take_of_le hle, add_assoc]
    exact sketch_move rfl _
  | unknown hw ho =>
    simp only [hw, ho]
    rcases s with ⟨code, capacity, _ | _, pc, stack, halted⟩ <;> rfl
  | truncated hw hlt =>
    simp only [hw, hrest, if_pos hlt]
    rfl

theorem sketch_step (s : State) : s.sketch.step = Prod.map id sketch s.step := by
  have hbyte : s.sketch.code[s.sketch.pc]? = s.unread.head? := by rw [unread, List.head?_drop]; rfl
  unfold Sketch.step
  obtain ⟨hs, hh | hu⟩ | ⟨g, gs, hh, hu, hs⟩ := step_cases s
  · rw [step_of_halted hh]
    exact if_pos hh
  · rw [hs, hbyte, hu]
    cases hh : s.halted with
    | true => simp [sketch, hh]
    | false => simp [sketch, hh]
  · obtain ⟨byte, rest, behind, hcode, hf, -⟩ := segments_eq_cons hu
    rw [hs, hbyte, hcode, ← sketch_carryOut hcode hf]
    exact if_neg (by simp [sketch, hh])

theorem sketch_steps (k : ℕ) (s : State) : (s.steps k).sketch = s.sketch.steps k := by
  induction k with
  | zero => rfl
  | succ k ih => rw [steps_succ', Sketch.steps_succ', ← ih, sketch_step, Prod.map_snd]

theorem report_sketch (s : State) : s.sketch.report = s.report := by
  funext k
  rw [Sketch.report, ← sketch_steps, sketch_step, Prod.map_fst, id, report]

/-! ### Two runs -/

variable {code code' : List UInt8}

theorem getElem?_eq_of_isBoundary {place : ℕ} (hlen : code.length = code'.length)
    (hbytes : ∀ p ∈ starts code, code[p]? = code'[p]?) (h : IsBoundary code place) :
    code[place]? = code'[place]? := by
  obtain h | rfl := h
  · exact hbytes place h
  · rw [List.getElem?_eq_none le_rfl, List.getElem?_eq_none hlen.ge]

/-- Two codes of one length that agree wherever an instruction starts keep their sketches alike, and
the next step is the same one. -/
theorem sketch_lockstep (hlen : code.length = code'.length)
    (hbytes : ∀ p ∈ starts code, code[p]? = code'[p]?) (hs : s.Sound) (hcode : s.code = code)
    (k : ℕ) : (s.sketch.withCode code').steps k = (s.sketch.steps k).withCode code' ∧
      (s.sketch.withCode code').report k = s.sketch.report k := by
  have hnext : ∀ k, ((s.sketch.steps k).withCode code').step =
      Prod.map id (Sketch.withCode code') (s.sketch.steps k).step := by
    intro k
    have hframe : (s.steps k).code = code := (frame_steps k s).1.trans hcode
    rw [← sketch_steps]
    refine Sketch.step_withCode ?_ fun hh => ?_
    · exact (congrArg List.length hframe).trans hlen |>.symm
    · have hb : IsBoundary code (s.steps k).pc := hframe ▸ (hs.steps k).isBoundary hh
      exact ((congrArg (·[(s.steps k).pc]?) hframe).trans
        (getElem?_eq_of_isBoundary hlen hbytes hb)).symm
  have hsteps : (s.sketch.withCode code').steps k = (s.sketch.steps k).withCode code' := by
    induction k with
    | zero => rfl
    | succ k ih => rw [Sketch.steps_succ', ih, hnext, Prod.map_snd, Sketch.steps_succ']
  exact ⟨hsteps, by rw [Sketch.report, hsteps, hnext, Prod.map_fst, id, Sketch.report]⟩

/-- **Independence of data.**  Code with the same bytes wherever an instruction starts runs alike:
`s` and `t` step by step, and both as the sketch of `s` predicts, which holds no words. -/
theorem run_independent_of_data (code code' : List UInt8) (hlen : code.length = code'.length)
    (hbytes : ∀ p ∈ starts code, code[p]? = code'[p]?) (capacity : ℕ) (policy : UnknownPolicy) :
    let s : State := { code, capacity, policy }
    let t : State := { code := code', capacity, policy }
    (∀ k, s.report k = t.report k ∧ (s.steps k).pc = (t.steps k).pc ∧
      (s.steps k).halted = (t.steps k).halted ∧
      (s.steps k).stack.length = (t.steps k).stack.length) ∧
    (s.run.fault = t.run.fault ∧ s.run.pc = t.run.pc ∧
      s.run.stack.length = t.run.stack.length) ∧
    (∀ k, (s.steps k).sketch = s.sketch.steps k ∧ s.report k = s.sketch.report k) ∧
    (∃ k, EndsAt s.sketch.report k ∧ s.run.fault = (s.sketch.report k).fault? ∧
      s.run.pc = (s.sketch.steps (k + 1)).pc ∧
      s.run.stack.length = (s.sketch.steps (k + 1)).depth) ∧
    ∀ k, (s.sketch.steps k).depth ≤ capacity ∧
      ∀ place, s.sketch.report k = .failed (.stackOverflow place) →
        (s.sketch.steps k).depth = capacity ∧
          ∃ byte, code[(s.sketch.steps k).pc]? = some byte ∧
            ((Push.width? byte).isSome ∨ byte = Opcode.push0.byte) := by
  intro s t
  have hsound : s.Sound := sound_start code capacity policy
  have hreport : s.report = t.report := by
    rw [← report_sketch, ← report_sketch]
    funext k
    exact (sketch_lockstep hlen hbytes hsound rfl k).2.symm
  have hview : ∀ k, (t.steps k).sketch = (s.steps k).sketch.withCode code' := by
    intro k
    rw [sketch_steps, sketch_steps]
    exact (sketch_lockstep hlen hbytes hsound rfl k).1
  have hpc : ∀ k, (s.steps k).pc = (t.steps k).pc := fun k => (congrArg Sketch.pc (hview k)).symm
  have hdepth : ∀ k, (s.steps k).stack.length = (t.steps k).stack.length :=
    fun k => (congrArg Sketch.depth (hview k)).symm
  obtain ⟨k, hk⟩ := exists_endsAt s
  refine ⟨fun k => ⟨congrFun hreport k, hpc k, (congrArg Sketch.halted (hview k)).symm, hdepth k⟩,
    ?_, fun k => ⟨sketch_steps k s, by rw [report_sketch]⟩, ⟨k, ?_, ?_⟩, fun k => ?_⟩
  · rw [run_of_endsAt hk, run_of_endsAt (hreport ▸ hk), hreport]
    exact ⟨rfl, hpc (k + 1), hdepth (k + 1)⟩
  · rw [report_sketch]
    exact hk
  · rw [run_of_endsAt hk, report_sketch, ← sketch_steps]
    exact ⟨rfl, rfl, rfl⟩
  · obtain ⟨hcode, hcapacity, -⟩ := frame_steps k s
    have hsketch := sketch_steps k s
    have hle : (s.sketch.steps k).depth ≤ (s.sketch.steps k).capacity :=
      hsketch ▸ (hsound.steps k).length_stack_le
    have hcapacity' : (s.sketch.steps k).capacity = capacity := hsketch ▸ hcapacity
    have hcode' : (s.sketch.steps k).code = code := hsketch ▸ hcode
    rw [← hcapacity', ← hcode']
    exact ⟨hle, fun place h => Sketch.full_of_overflow hle h⟩

/-- Divisors of zero and bytes that look like other instructions make no difference: both runs find
the stack full at the fourth push. -/
theorem run_independent_of_data_divisor_zero :
    let code : List UInt8 := [0x60, 5, 0x60, 7, 0x04, 0x60, 1, 0x60, 2, 0x62, 1]
    let code' : List UInt8 := [0x60, 0, 0x60, 0, 0x04, 0x60, 0, 0x60, 0x61, 0x62, 0x5f]
    let s : State := { code, capacity := 2 }
    let t : State := { code := code', capacity := 2 }
    code.length = code'.length ∧ (∀ p ∈ starts code, code[p]? = code'[p]?) ∧
    (s.run.fault = some (.stackOverflow 7) ∧ t.run.fault = some (.stackOverflow 7)) ∧
    (t.steps 4).pc = 7 ∧ (s.sketch.steps 4).depth = 2 := by
  intro code code' s t
  have hbytes : ∀ p ∈ starts code, code[p]? = code'[p]? := by decide +kernel
  obtain ⟨hsteps, hrun, -, -, hfull⟩ := run_independent_of_data code code' rfl hbytes 2 .reject
  have hs : s.run.fault = some (.stackOverflow 7) := by decide +kernel
  have hreport : s.sketch.report 4 = .failed (.stackOverflow 7) := by decide +kernel
  exact ⟨rfl, hbytes, ⟨hs, hrun.1 ▸ hs⟩, (hsteps 4).2.1 ▸ by decide +kernel,
    ((hfull 4).2 7 hreport).1⟩

end State

end Stack256
