import Mathlib
import Stack256.Proofs.State.Lockstep
import Stack256.Proofs.State.Sketch

/-!
# Stack256.Proofs.State.Capacity — runs with more or less room

The capacity of the stack is asked for in one place only, where a stack is settled.  An instruction
that finds room enough does the same with more room (`segmentEffect_withCapacity`), so that a larger
capacity makes no difference to a run until the stack overflows.  That happens on a full stack only
(`length_stack_of_overflow`): an opcode that takes words leaves room for its result.
-/

namespace Stack256.State

open Layout

/-- The same state with another capacity. -/
def withCapacity (capacity : ℕ) (s : State) : State :=
  { s with capacity }

variable {s : State} {capacity pc : ℕ} {stack : List Word} {g : Segment}

/-! ### More room -/

theorem settle_withCapacity (hle : s.capacity ≤ capacity)
    (h : s.settle pc stack ≠ .fail (.stackOverflow s.pc)) :
    (s.withCapacity capacity).settle pc stack = s.settle pc stack := by
  unfold settle at h ⊢
  split_ifs at h with hroom
  · rw [if_pos hroom]
    exact if_pos (hroom.trans hle)
  · exact absurd rfl h

/-- Where the stack does not overflow, an instruction does the same with more room. -/
theorem segmentEffect_withCapacity (hle : s.capacity ≤ capacity)
    (h : s.segmentEffect g ≠ .fail (.stackOverflow s.pc)) :
    (s.withCapacity capacity).segmentEffect g = s.segmentEffect g := by
  cases g with
  | op o =>
    by_cases ho : o = .stop
    · subst ho
      rfl
    · have hs : (s.withCapacity capacity).stack = s.stack := rfl
      rw [segmentEffect, opcodeEffect_of_ne_stop ho] at h
      rw [segmentEffect, segmentEffect, opcodeEffect_of_ne_stop ho, opcodeEffect_of_ne_stop ho, hs]
      cases ht : o.action.stackAfter? s.stack with
      | none => rfl
      | some stack =>
        rw [ht] at h
        exact settle_withCapacity hle h
  | push data => exact settle_withCapacity hle h
  | unknown byte => rfl
  | truncated width data => rfl

/-- A step that does not overflow the stack is the same with more room. -/
theorem carries_withCapacity (hle : s.capacity ≤ capacity)
    (h : ∀ place, s.step.1 ≠ .failed (.stackOverflow place)) :
    Carries (withCapacity capacity) s := by
  refine carries_of_segments rfl rfl rfl fun g gs hh hu => ?_
  have hne : s.segmentEffect g ≠ .fail (.stackOverflow s.pc) := by
    intro he
    refine h s.pc ?_
    rw [step_of_segments hh hu, he]
    rfl
  rw [segmentEffect_withCapacity hle hne]
  cases s.segmentEffect g <;> rfl

/-! ### Overflow -/

/-- Within the capacity, an instruction overflows the stack only where it is full. -/
theorem length_stack_of_overflow (hs : s.stack.length ≤ s.capacity) {place : ℕ}
    (h : s.step.1 = .failed (.stackOverflow place)) : s.stack.length = s.capacity := by
  have hsketch : s.sketch.step.1 = .failed (.stackOverflow place) := by
    rw [sketch_step]
    exact h
  exact (Sketch.full_of_overflow (s := s.sketch) hs hsketch).1

/-! ### Runs -/

/-- **Capacity.**  The run of `s`, which has less room, overflows or ends as that of `t`; if it
overflows, `t` comes to the same place with the same stack in as many steps. -/
theorem run_of_capacity_le (code : List UInt8) (policy : UnknownPolicy) {n m : ℕ} (h : n ≤ m) :
    let s : State := { code, capacity := n, policy }
    let t : State := { code, capacity := m, policy }
    ((∃ place, s.run.fault = some (.stackOverflow place)) ∨ t.run = s.run) ∧
    ∀ place, s.run.fault = some (.stackOverflow place) →
      s.run.stack.length = n ∧ ∃ k, s.report k = .failed (.stackOverflow place) ∧
        (∀ j < k, t.report j = .running) ∧ (t.steps k).halted = false ∧
        (t.steps k).pc = place ∧ (t.steps k).stack = s.run.stack := by
  intro s t
  have hcapacity : ∀ k, (s.steps k).capacity = n := fun k => (frame_steps k s).2.1
  have hcarries : ∀ k, (∀ place, s.report k ≠ .failed (.stackOverflow place)) →
      Carries (withCapacity m) (s.steps k) :=
    fun k hk => carries_withCapacity ((hcapacity k).trans_le h) hk
  refine ⟨?_, fun place hfault => ?_⟩
  · by_cases hover : ∃ place, s.run.fault = some (.stackOverflow place)
    · exact .inl hover
    · refine .inr ?_
      obtain ⟨k, hk⟩ := exists_endsAt s
      have hrun : t.run = _ := run_map (f := withCapacity m) hk fun j _ =>
        hcarries j fun place hplace => hover ⟨place, fault_run_of_failed hplace⟩
      rw [hrun, run_of_endsAt hk]
      rfl
  · obtain ⟨k, hreport, hh, hpc, hstack⟩ := exists_failing_step (s := s) rfl hfault
    have hrunning : ∀ j < k, s.report j = .running := (endsAt_of_failed hreport).running
    have hsteps : t.steps k = (s.steps k).withCapacity m := steps_map fun j hj =>
      hcarries j fun place hplace => by
        rw [hrunning j hj] at hplace
        cases hplace
    have hlen : (s.steps k).stack.length ≤ (s.steps k).capacity :=
      ((sound_start code n policy).steps k).length_stack_le
    refine ⟨?_, k, hreport, ?_, ?_, ?_, ?_⟩
    · rw [← hstack, length_stack_of_overflow hlen hreport, hcapacity]
    · exact running_of_steps (hsteps ▸ hh)
    · rw [hsteps]
      exact hh
    · rw [hsteps]
      exact hpc
    · rw [hsteps]
      exact hstack

/-- Three words do not fit where there is room for two, and the additions leave one of them where
they fit.  A push that is cut off is reported on a full stack, too, and whatever the room is. -/
theorem run_of_capacity_le_full :
    let code : List UInt8 := [0x60, 1, 0x60, 2, 0x5f, 0x01, 0x01]
    let cut : List UInt8 := [0x5f, 0x5f, 0x61, 1]
    let s : State := { code, capacity := 2 }
    let t : State := { code, capacity := 3 }
    2 ≤ 3 ∧ s.run = ⟨[2, 1], some (.stackOverflow 4), 5⟩ ∧ t.run = ⟨[3], none, 7⟩ ∧
    (∃ k, (t.steps k).pc = 4 ∧ (t.steps k).stack = [2, 1]) ∧
    State.run { code := cut, capacity := 2 } = ⟨[0, 0], some (.truncatedPush 2 2 1), 3⟩ ∧
    State.run { code := cut, capacity := 3 } = State.run { code := cut, capacity := 2 } := by
  intro code cut s t
  have hs : s.run = ⟨[2, 1], some (.stackOverflow 4), 5⟩ := by decide +kernel
  have hcut : State.run { code := cut, capacity := 2 } =
      ⟨[0, 0], some (.truncatedPush 2 2 1), 3⟩ := by decide +kernel
  obtain ⟨-, hover⟩ := run_of_capacity_le code .reject (show 2 ≤ 3 by decide)
  obtain ⟨-, k, -, -, -, hpc, hstack⟩ := hover 4 (congrArg Outcome.fault hs)
  obtain ⟨hcases, -⟩ := run_of_capacity_le cut .reject (show 2 ≤ 3 by decide)
  refine ⟨by decide, hs, by decide +kernel, ⟨k, hpc, ?_⟩, hcut, ?_⟩
  · exact hstack.trans (congrArg Outcome.stack hs)
  · refine hcases.resolve_left ?_
    rintro ⟨place, hplace⟩
    rw [hcut] at hplace
    cases hplace

end Stack256.State
