import Mathlib
import Stack256.Proofs.Processor.Agreement
import Stack256.Proofs.State.Composition
import Stack256.Proofs.State.Verdict

/-!
# Stack256.Proofs.State.Bounds — how long a run is and where it ends

Each step that goes on leads at least one byte further and puts at most one word on the stack
(`step_running`).  After `k` of them the run has come `k` bytes further at least and holds `k` words
more at most (`add_le_pc_steps`, `length_stack_steps_le`), and since it never leaves the code, the
length of the code bounds both (`run_within_length`).
-/

namespace Stack256.State

open Layout

variable {s : State} {k : ℕ}

/-! ### Steps that go on -/

theorem step_running (h : s.step.1 = .running) : ∃ byte, s.code[s.pc]? = some byte ∧
    s.step.2.pc = s.pc + 1 + (Push.width? byte).getD 0 ∧
    s.step.2.stack.length ≤ s.stack.length + 1 := by
  have hsketch : s.sketch.step = (.running, s.step.2.sketch) := by
    rw [sketch_step]
    exact Prod.ext h rfl
  exact Sketch.step_running hsketch

/-- Every step that goes on leads at least one byte further. -/
theorem add_le_pc_steps (h : ∀ j < k, s.report j = .running) : s.pc + k ≤ (s.steps k).pc := by
  induction k with
  | zero => exact le_rfl
  | succ k ih =>
    have hle := ih fun j hj => h j (Nat.lt_succ_of_lt hj)
    obtain ⟨byte, -, hpc, -⟩ := step_running (h k (Nat.lt_succ_self k))
    rw [steps_succ', hpc]
    omega

/-- Every step that goes on puts at most one word on the stack. -/
theorem length_stack_steps_le (h : ∀ j < k, s.report j = .running) :
    (s.steps k).stack.length ≤ s.stack.length + k := by
  induction k with
  | zero => exact le_rfl
  | succ k ih =>
    have hle := ih fun j hj => h j (Nat.lt_succ_of_lt hj)
    obtain ⟨byte, -, -, hlen⟩ := step_running (h k (Nat.lt_succ_self k))
    rw [steps_succ']
    omega

/-! ### The last step -/

theorem stack_step_of_ne_running (h : s.step.1 ≠ .running) : s.step.2.stack = s.stack := by
  obtain ⟨hs, -⟩ | ⟨g, gs, -, -, hs⟩ := step_cases s
  · rw [hs]
  · rw [hs] at h ⊢
    cases he : s.segmentEffect g with
    | next pc stack =>
      rw [he] at h
      exact absurd rfl h
    | halt => rfl
    | fail fault => rfl

theorem length_stack_run_le (hk : EndsAt s.report k) :
    s.run.stack.length ≤ s.stack.length + k := by
  have hlast : (s.steps (k + 1)).stack = (s.steps k).stack := by
    rw [steps_succ']
    exact stack_step_of_ne_running hk.ends
  rw [run_of_endsAt hk]
  show (s.steps (k + 1)).stack.length ≤ _
  rw [hlast]
  exact length_stack_steps_le hk.running

theorem pc_run_of_fault {fault : Fault} (hh : s.halted = false)
    (h : s.run.fault = some fault) : s.run.pc = fault.place + 1 := by
  obtain ⟨k, g, gs, hk, hu, he⟩ := exists_fail_of_fault_run hh h
  rw [run_of_endsAt hk, steps_succ', step_of_segments (halted_of_endsAt hh hk) hu, he,
    place_of_segmentEffect he]
  rfl

/-- A run without a fault ends behind the opcode that ends it, or else at the end of the code. -/
theorem pc_run_of_success (hs : s.Sound) (hh : s.halted = false) (h : s.run.fault = none) :
    s.run.pc = s.code.length ∨
      ∃ place ∈ starts s.code, s.code[place]? = some Opcode.stop.byte ∧ s.run.pc = place + 1 := by
  obtain hstop | hend := (fault_run_eq_none_iff hs hh).1 h
  · obtain ⟨k, gs, hk, hu, -⟩ := hstop.endsAt
    have hhk := halted_of_endsAt hh hk
    obtain ⟨hcode, -⟩ := frame_steps k s
    have hlt : (s.steps k).pc < s.code.length := hcode ▸ lt_of_segments_unread hu
    have hstart : (s.steps k).pc ∈ starts s.code :=
      (hcode ▸ (hs.steps k).isBoundary hhk : IsBoundary s.code _).resolve_right hlt.ne
    obtain ⟨byte, rest, behind, hunread, hf, -⟩ := segments_eq_cons hu
    refine .inr ⟨_, hstart, ?_, ?_⟩
    · rw [← hcode, ← List.head?_drop, ← unread, hunread, ← hf.bytes_append]
      rfl
    · rw [run_of_endsAt hk, steps_succ', step_of_segments hhk hu]
      rfl
  · obtain ⟨k, -, -, hpc, -, hrun⟩ := hend.endsAt
    rw [hrun]
    exact .inl hpc

/-! ### Runs -/

/-- **Bounds.**  The run of `s` takes `k` steps that go on, at most as many as `code` has bytes, and
one more; these numbers bound its stack, and its fault or the code gives the place where it ends. -/
theorem run_within_length (code : List UInt8) (capacity : ℕ) (policy : UnknownPolicy) :
    let s : State := { code, capacity, policy }
    let p : Processor := { code, capacity, policy }
    ∃ k ≤ code.length, EndsAt s.report k ∧
      s.run = ⟨(s.steps (k + 1)).stack, (s.report k).fault?, (s.steps (k + 1)).pc⟩ ∧
      (EndsAt p.report k ∧ p.run = s.run) ∧
      (∀ j, s.report j = .running → ∃ byte, code[(s.steps j).pc]? = some byte ∧
        (s.steps (j + 1)).pc = (s.steps j).pc + 1 + (Push.width? byte).getD 0 ∧
        (s.steps (j + 1)).pc ≤ code.length) ∧
      (s.run.stack.length ≤ min capacity k ∧ min capacity k ≤ min capacity code.length) ∧
      (s.run.fault = none → s.run.pc = code.length ∨
        ∃ place ∈ starts code, code[place]? = some Opcode.stop.byte ∧ s.run.pc = place + 1) ∧
      ∀ fault, s.run.fault = some fault → s.run.pc = fault.place + 1 := by
  intro s p
  have hsound : s.Sound := sound_start code capacity policy
  have hstart : s.stack.length ≤ s.capacity := hsound.length_stack_le
  have hcode : ∀ j, (s.steps j).code = code := fun j => (frame_steps j s).1
  have hcapacity : ∀ j, (s.steps j).capacity = capacity := fun j => (frame_steps j s).2.1
  have hreport : p.report = s.report := funext (report_processor hstart)
  obtain ⟨k, hk⟩ := exists_endsAt s
  have hle : k ≤ code.length := by
    have hfar : 0 + k ≤ (s.steps k).pc := add_le_pc_steps hk.running
    have hin : (s.steps k).pc ≤ (s.steps k).code.length := (hsound.steps k).pc_le
    rw [hcode] at hin
    omega
  refine ⟨k, hle, hk, run_of_endsAt hk, ⟨hreport ▸ hk, run_processor hstart⟩, fun j hj => ?_,
    ⟨le_min ?_ ?_, min_le_min_left capacity hle⟩, pc_run_of_success hsound rfl,
    fun fault => pc_run_of_fault rfl⟩
  · obtain ⟨byte, hbyte, hpc, -⟩ := step_running hj
    have hin := (hsound.steps (j + 1)).pc_le
    rw [hcode] at hbyte hin
    rw [steps_succ'] at hin ⊢
    exact ⟨byte, hbyte, hpc, hin⟩
  · rw [run_of_endsAt hk, ← hcapacity (k + 1)]
    exact (hsound.steps (k + 1)).length_stack_le
  · have hlen := length_stack_run_le hk
    rwa [show s.stack.length = 0 from rfl, zero_add] at hlen

/-- A push and a byte without meaning are two steps that go on, and the third finds a stop, behind
which the run ends; refused, the byte without meaning ends it in the second. -/
theorem run_within_length_stop :
    let code : List UInt8 := [0x60, 9, 0xfe, 0x00, 0x01]
    let s : State := { code, capacity := 1, policy := .skip }
    let t : State := { code, capacity := 1 }
    s.run = ⟨[9], none, 4⟩ ∧
    (∃ place ∈ starts code, code[place]? = some Opcode.stop.byte ∧ 4 = place + 1) ∧
    (s.report 1 = .running ∧ ∃ byte, code[2]? = some byte ∧ (Push.width? byte).getD 0 = 0) ∧
    t.run.fault = some (.unknownByte 2 0xfe) ∧ t.run.pc = 2 + 1 := by
  intro code s t
  have hs : s.run = ⟨[9], none, 4⟩ := by decide +kernel
  have ht : t.run.fault = some (.unknownByte 2 0xfe) := by decide +kernel
  have hrunning : s.report 1 = .running := by decide +kernel
  have hpc : (s.steps 1).pc = 2 ∧ (s.steps 2).pc = 3 := by decide +kernel
  obtain ⟨k, -, -, -, -, hstep, -, hsuccess, -⟩ := run_within_length code 1 .skip
  obtain ⟨j, -, -, -, -, -, -, -, hfault⟩ := run_within_length code 1 .reject
  refine ⟨hs, ?_, ⟨hrunning, ?_⟩, ht, hfault _ ht⟩
  · obtain h | ⟨place, hplace, hbyte, h⟩ := hsuccess (congrArg Outcome.fault hs)
    · rw [show s.run.pc = 4 from congrArg Outcome.pc hs] at h
      cases h
    · exact ⟨place, hplace, hbyte, (congrArg Outcome.pc hs).symm.trans h⟩
  · obtain ⟨byte, hbyte, hnext, -⟩ := hstep 1 hrunning
    rw [hpc.1] at hbyte hnext
    rw [hpc.2] at hnext
    exact ⟨byte, hbyte, by omega⟩

end Stack256.State
