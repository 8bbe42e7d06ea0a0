import Mathlib
import Stack256.Proofs.Processor.Agreement

/-!
# Stack256.Proofs.State.Stepping — steps before a run

A run may be taken part of its way in single steps.  Where these have not ended it, what remains is
the same run (`run_steps`); where they have, a run of the halted state finds nothing to do and
reports no fault, even if the step that ended it reported one (`run_of_halted`).  Which of the two
is the case depends on the number of steps only (`halted_steps_iff`).
-/

namespace Stack256.State

variable {s : State} {k n : ℕ}

/-- A run of a halted state ends where it is, and without a fault. -/
theorem run_of_halted (h : s.halted = true) : s.run = ⟨s.stack, none, s.pc⟩ := by
  have hs := step_of_halted h
  have hends : s.step.1 ≠ .running := by
    rw [hs]
    exact Signal.noConfusion
  rw [run_of_ne_running hends, hs]
  rfl

/-- The steps that leave a state halted are those that include the last one of its run. -/
theorem halted_steps_iff (hh : s.halted = false) (hn : EndsAt s.report n) :
    (s.steps k).halted = true ↔ n < k := by
  constructor
  · intro hk
    by_contra hle
    rw [Nat.not_lt] at hle
    cases k with
    | zero =>
      rw [show s.steps 0 = s from rfl, hh] at hk
      cases hk
    | succ k =>
      have hrunning : (s.steps k).step.1 = .running := hn.running k hle
      rw [steps_succ', running_iff.1 hrunning] at hk
      cases hk
  · intro hlt
    rw [steps_of_endsAt_lt hn hlt, steps_succ']
    exact halted_of_ne_running hn.ends

/-- Steps that reach beyond the end of a run leave what the run leaves. -/
theorem run_steps_of_endsAt_lt (hn : EndsAt s.report n) (hlt : n < k) :
    (s.steps k).run = ⟨s.run.stack, none, s.run.pc⟩ := by
  have hhalted : (s.steps (n + 1)).halted = true := by
    rw [steps_succ']
    exact halted_of_ne_running hn.ends
  rw [steps_of_endsAt_lt hn hlt, run_of_halted hhalted, run_of_endsAt hn]

/-- A step that reports a fault before the `k`-th is the last one of the run. -/
theorem lt_of_failed (hn : EndsAt s.report n) {j : ℕ} (hj : j < k) {fault : Fault}
    (h : s.report j = .failed fault) : n < k := by
  rwa [← (endsAt_of_failed h).unique hn]

/-- **Stepping and running.**  A run that starts after `k` steps leaves the stack and the place of a
run of `s`, and its fault unless one of the `k` steps has reported that. -/
theorem run_after_steps (code : List UInt8) (capacity : ℕ) (policy : UnknownPolicy) (k : ℕ) :
    let s : State := { code, capacity, policy }
    let p : Processor := { code, capacity, policy }
    ((s.steps k).run.stack = s.run.stack ∧ (s.steps k).run.pc = s.run.pc) ∧
    ((∀ j < k, ∀ fault, s.report j ≠ .failed fault) → (s.steps k).run.fault = s.run.fault) ∧
    ((∃ j < k, ∃ fault, s.report j = .failed fault) → (s.steps k).run.fault = none) ∧
    ((p.steps k).run = (s.steps k).run ∧ p.report k = s.report k) ∧
    ((p.steps k).halted = true → (p.steps k).words = s.run.stack.reverse) ∧
    ∃ n, ∀ m > n, (p.steps m).halted = true := by
  intro s p
  obtain ⟨n, hn⟩ := exists_endsAt s
  have hstart : s.stack.length ≤ s.capacity := Nat.zero_le capacity
  have hsteps : ∀ k, p.steps k = (s.steps k).processor := steps_processor hstart
  have hhalted : ∀ k, (p.steps k).halted = true ↔ n < k := by
    intro k
    rw [hsteps]
    exact halted_steps_iff rfl hn
  have hplace : (p.steps k).run = (s.steps k).run ∧ p.report k = s.report k := by
    rw [hsteps]
    exact ⟨run_processor (length_stack_le_steps hstart k), report_processor hstart k⟩
  refine ⟨?_, fun hnone => ?_, fun hfailed => ?_, hplace, fun hk => ?_, n, fun m hm => ?_⟩
  · obtain hlt | hle := Nat.lt_or_ge n k
    · rw [run_steps_of_endsAt_lt hn hlt]
      exact ⟨rfl, rfl⟩
    · rw [run_steps fun j hj => hn.running j (hj.trans_le hle)]
      exact ⟨rfl, rfl⟩
  · obtain hlt | hle := Nat.lt_or_ge n k
    · rw [run_steps_of_endsAt_lt hn hlt, run_of_endsAt hn]
      cases hreport : s.report n with
      | failed fault => exact absurd hreport (hnone n hlt fault)
      | running => rfl
      | halted => rfl
    · rw [run_steps fun j hj => hn.running j (hj.trans_le hle)]
  · obtain ⟨j, hj, fault, hfault⟩ := hfailed
    rw [run_steps_of_endsAt_lt hn (lt_of_failed hn hj hfault)]
  · have hlt : n < k := (hhalted k).1 hk
    rw [hsteps, steps_of_endsAt_lt hn hlt, run_of_endsAt hn]
    rfl
  · exact (hhalted m).2 hm

/-- The second step reports that a word is missing.  A run after one step reports it again, and one
after five steps does not; the processor holds the two words that the fault has left. -/
theorem run_after_steps_underflow :
    let s : State := { code := [0x60, 7, 0x60, 9, 0x08, 0x50], capacity := 2 }
    let p : Processor := { code := [0x60, 7, 0x60, 9, 0x08, 0x50], capacity := 2 }
    s.run = ⟨[9, 7], some (.stackUnderflow 4 8), 5⟩ ∧
    s.report 2 = .failed (.stackUnderflow 4 8) ∧
    (s.steps 1).run.fault = some (.stackUnderflow 4 8) ∧
    ((s.steps 5).run.stack = [9, 7] ∧ (s.steps 5).run.pc = 5 ∧ (s.steps 5).run.fault = none) ∧
    (p.steps 5).words = [7, 9] := by
  intro s p
  have hs : s.run = ⟨[9, 7], some (.stackUnderflow 4 8), 5⟩ := by decide +kernel
  have hreport : s.report 2 = .failed (.stackUnderflow 4 8) := by decide +kernel
  have hfirst : s.report 0 = .running := by decide +kernel
  obtain ⟨-, hsame, -⟩ := run_after_steps [0x60, 7, 0x60, 9, 0x08, 0x50] 2 .reject 1
  obtain ⟨⟨hstack, hpc⟩, -, hnone, -, hwords, -⟩ :=
    run_after_steps [0x60, 7, 0x60, 9, 0x08, 0x50] 2 .reject 5
  refine ⟨hs, hreport, ?_, ⟨?_, ?_, hnone ⟨2, by decide, _, hreport⟩⟩, ?_⟩
  · refine (hsame fun j hj fault hfault => ?_).trans (congrArg Outcome.fault hs)
    obtain rfl : j = 0 := by omega
    exact Signal.noConfusion (hfirst.symm.trans hfault)
  · exact hstack.trans (congrArg Outcome.stack hs)
  · exact hpc.trans (congrArg Outcome.pc hs)
  · refine (hwords (by decide +kernel)).trans ?_
    exact congrArg (fun r => List.reverse (Outcome.stack r)) hs

end Stack256.State
