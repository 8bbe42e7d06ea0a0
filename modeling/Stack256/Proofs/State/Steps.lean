import Mathlib
import Stack256.Proofs.State.Segments

/-!
# Stack256.Proofs.State.Steps — one step after the other

A state halts in the first step that reports anything but `running` (`running_iff`), and no later
step changes it (`steps_of_halted`).  A run consists of the steps up to that one: every run has such
a last step (`exists_endsAt`), and the outcome of the run is read off it (`run_of_endsAt`).
-/

namespace Stack256

/-- The fault that a step reports, if it does. -/
def Signal.fault? : Signal → Option Fault
  | .failed fault => some fault
  | .running | .halted => none

/-- The report numbered `k` is the first, counted from zero, that does not say that the run goes
on. -/
structure EndsAt (report : ℕ → Signal) (k : ℕ) : Prop where
  running : ∀ j < k, report j = .running
  ends : report k ≠ .running

theorem EndsAt.unique {report : ℕ → Signal} {j k : ℕ} (hj : EndsAt report j)
    (hk : EndsAt report k) : j = k := by
  obtain h | h | h := Nat.lt_trichotomy j k
  · exact absurd (hk.running j h) hj.ends
  · exact h
  · exact absurd (hj.running k h) hk.ends

namespace State

open Layout

/-- What the next step reports after `k` steps. -/
def report (s : State) (k : ℕ) : Signal :=
  (s.steps k).step.1

variable {s : State} {k : ℕ}

theorem steps_succ (k : ℕ) (s : State) : s.steps (k + 1) = s.step.2.steps k :=
  Function.iterate_succ_apply _ k s

theorem steps_succ' (k : ℕ) (s : State) : s.steps (k + 1) = (s.steps k).step.2 :=
  Function.iterate_succ_apply' _ k s

/-! ### Halting -/

theorem step_of_halted (h : s.halted = true) : s.step = (.halted, s) := by
  simp only [step, h, if_true]

theorem steps_of_halted (h : s.halted = true) (k : ℕ) : s.steps k = s := by
  induction k with
  | zero => rfl
  | succ k ih => rw [steps_succ', ih, step_of_halted h]

/-- A step that has an instruction to carry out does what its first segment says; any other halts
where it is. -/
theorem step_cases (s : State) :
    s.step = (.halted, { s with halted := true }) ∧ (s.halted = true ∨ s.unread = []) ∨
    ∃ g gs, s.halted = false ∧ segments s.unread = g :: gs ∧
      s.step = s.follow (s.segmentEffect g) := by
  cases hh : s.halted with
  | true =>
    have hs : { s with halted := true } = s := by rw [← hh]
    exact .inl ⟨by rw [step_of_halted hh, hs], .inl rfl⟩
  | false =>
    cases hu : segments s.unread with
    | nil =>
      have hnil := segments_eq_nil_iff.1 hu
      exact .inl ⟨step_of_unread_nil hh hnil, .inr hnil⟩
    | cons g gs => exact .inr ⟨g, gs, rfl, rfl, step_of_segments hh hu⟩

/-- The run goes on after a step if and only if the step says so. -/
theorem running_iff : s.step.1 = .running ↔ s.step.2.halted = false := by
  obtain ⟨hs, -⟩ | ⟨g, gs, hh, -, hs⟩ := step_cases s
  · rw [hs]
    simp
  · rw [hs]
    cases s.segmentEffect g <;> simp [follow, hh]

theorem halted_of_ne_running (h : s.step.1 ≠ .running) : s.step.2.halted = true := by
  rw [← Bool.not_eq_false]
  exact mt running_iff.2 h

/-- A step changes neither the code nor the terms on which it is run. -/
theorem frame_step (s : State) :
    s.step.2.code = s.code ∧ s.step.2.capacity = s.capacity ∧ s.step.2.policy = s.policy := by
  obtain ⟨hs, -⟩ | ⟨g, gs, -, -, hs⟩ := step_cases s
  · rw [hs]
    exact ⟨rfl, rfl, rfl⟩
  · rw [hs]
    cases s.segmentEffect g <;> exact ⟨rfl, rfl, rfl⟩

theorem frame_steps (k : ℕ) (s : State) :
    (s.steps k).code = s.code ∧ (s.steps k).capacity = s.capacity ∧
      (s.steps k).policy = s.policy := by
  induction k with
  | zero => exact ⟨rfl, rfl, rfl⟩
  | succ k ih =>
    obtain ⟨hcode, hcapacity, hpolicy⟩ := frame_step (s.steps k)
    rw [steps_succ', hcode, hcapacity, hpolicy]
    exact ih

theorem halted_eq_false_of_running (h : s.step.1 = .running) : s.halted = false := by
  cases hh : s.halted with
  | true =>
    rw [step_of_halted hh] at h
    cases h
  | false => rfl

/-- Where a run has not halted yet, no step so far has ended it. -/
theorem running_of_steps (h : (s.steps k).halted = false) : ∀ j < k, s.report j = .running := by
  induction k with
  | zero => exact fun j hj => absurd hj (Nat.not_lt_zero j)
  | succ k ih =>
    rw [steps_succ'] at h
    have hk := running_iff.2 h
    intro j hj
    obtain hj | rfl := Nat.lt_succ_iff_lt_or_eq.1 hj
    · exact ih (halted_eq_false_of_running hk) j hj
    · exact hk

/-! ### Runs -/

theorem run_of_running (h : s.step.1 = .running) : s.run = s.step.2.run := by
  rw [run]
  split <;> simp_all

theorem run_of_ne_running (h : s.step.1 ≠ .running) :
    s.run = ⟨s.step.2.stack, s.step.1.fault?, s.step.2.pc⟩ := by
  rw [run]
  split <;> simp_all [Signal.fault?]

theorem run_steps (h : ∀ j < k, s.report j = .running) : (s.steps k).run = s.run := by
  induction k with
  | zero => rfl
  | succ k ih =>
    rw [steps_succ', ← run_of_running (h k (Nat.lt_succ_self k))]
    exact ih fun j hj => h j (Nat.lt_succ_of_lt hj)

theorem exists_endsAt (s : State) : ∃ k, EndsAt s.report k := by
  have hzero : ∀ t : State, t.step.1 ≠ .running → EndsAt t.report 0 :=
    fun t h => ⟨fun j hj => absurd hj (Nat.not_lt_zero j), h⟩
  induction s using run.induct with
  | case1 s t hs ih =>
    obtain ⟨k, hk⟩ := ih
    have hsucc : ∀ j, s.report (j + 1) = t.report j := by
      intro j
      rw [report, steps_succ, hs, report]
    refine ⟨k + 1, ?_, hsucc k ▸ hk.ends⟩
    rintro (_ | j) hj
    · exact congrArg Prod.fst hs
    · rw [hsucc]
      exact hk.running j (Nat.lt_of_succ_lt_succ hj)
  | case2 s t hs => exact ⟨0, hzero s (by simp [hs])⟩
  | case3 s fault t hs => exact ⟨0, hzero s (by simp [hs])⟩

/-- The outcome of a run is what its last step leaves and reports. -/
theorem run_of_endsAt (h : EndsAt s.report k) :
    s.run = ⟨(s.steps (k + 1)).stack, (s.report k).fault?, (s.steps (k + 1)).pc⟩ := by
  rw [← run_steps h.running, run_of_ne_running h.ends, steps_succ', report]

/-! ### The last step -/

/-- After the last step of a run nothing changes. -/
theorem steps_of_endsAt_lt {j : ℕ} (hk : EndsAt s.report k) (hj : k < j) :
    s.steps j = s.steps (k + 1) := by
  obtain ⟨i, rfl⟩ := Nat.exists_eq_add_of_lt hj
  have hhalted : (s.steps (k + 1)).halted = true := by
    rw [steps_succ']
    exact halted_of_ne_running hk.ends
  calc s.steps (k + i + 1) = (s.steps (k + 1)).steps i := by
        rw [steps, steps, steps, ← Function.iterate_add_apply]
        congr 1
        omega
    _ = s.steps (k + 1) := steps_of_halted hhalted i

/-- A step that reports a fault is the last one. -/
theorem endsAt_of_failed {fault : Fault} (h : s.report k = .failed fault) :
    EndsAt s.report k := by
  obtain ⟨n, hn⟩ := exists_endsAt s
  obtain hlt | rfl | hlt := Nat.lt_trichotomy k n
  · rw [hn.running k hlt] at h
    cases h
  · exact hn
  · have hhalted : (s.steps k).halted = true := by
      rw [steps_of_endsAt_lt hn hlt, steps_succ']
      exact halted_of_ne_running hn.ends
    rw [report, step_of_halted hhalted] at h
    cases h

theorem fault_run_of_failed {fault : Fault} (h : s.report k = .failed fault) :
    s.run.fault = some fault := by
  rw [run_of_endsAt (endsAt_of_failed h), h]
  rfl

theorem halted_of_endsAt (hh : s.halted = false) (hk : EndsAt s.report k) :
    (s.steps k).halted = false := by
  cases k with
  | zero => exact hh
  | succ k =>
    rw [steps_succ']
    exact running_iff.1 (hk.running k (Nat.lt_succ_self k))

/-- The last step of a run that has not halted before finds the end of the code, or else an
instruction that ends the run. -/
theorem last_step_cases (hh : s.halted = false) (hk : EndsAt s.report k) :
    (s.steps k).unread = [] ∧ s.report k = .halted ∨
    (∃ gs, segments (s.steps k).unread = .op .stop :: gs ∧ s.report k = .halted) ∨
    ∃ g gs fault, segments (s.steps k).unread = g :: gs ∧
      (s.steps k).segmentEffect g = .fail fault ∧ s.report k = .failed fault := by
  have hhk := halted_of_endsAt hh hk
  obtain ⟨hs, hh' | hu⟩ | ⟨g, gs, -, hu, hs⟩ := step_cases (s.steps k)
  · rw [hhk] at hh'
    cases hh'
  · exact .inl ⟨hu, congrArg Prod.fst hs⟩
  · have hreport : s.report k = ((s.steps k).follow ((s.steps k).segmentEffect g)).1 :=
      congrArg Prod.fst hs
    cases he : (s.steps k).segmentEffect g with
    | next pc stack =>
      rw [he] at hreport
      exact absurd hreport hk.ends
    | halt =>
      rw [he] at hreport
      obtain rfl := eq_stop_of_segmentEffect he
      exact .inr (.inl ⟨gs, hu, hreport⟩)
    | fail fault =>
      rw [he] at hreport
      exact .inr (.inr ⟨g, gs, fault, hu, he, hreport⟩)

/-- The fault of a run is that of its last instruction. -/
theorem exists_fail_of_fault_run {fault : Fault} (hh : s.halted = false)
    (h : s.run.fault = some fault) :
    ∃ k g gs, EndsAt s.report k ∧ segments (s.steps k).unread = g :: gs ∧
      (s.steps k).segmentEffect g = .fail fault := by
  obtain ⟨k, hk⟩ := exists_endsAt s
  rw [run_of_endsAt hk] at h
  obtain ⟨-, hreport⟩ | ⟨gs, -, hreport⟩ | ⟨g, gs, fault', hu, he, hreport⟩ :=
    last_step_cases hh hk
  · rw [hreport] at h
    cases h
  · rw [hreport] at h
    cases h
  · rw [hreport] at h
    obtain rfl : fault' = fault := Option.some.inj h
    exact ⟨k, g, gs, hk, hu, he⟩

/-- What a run looks like before the step that ends it with a fault: the place is that of the fault,
and the stack is the one that the run leaves. -/
theorem exists_failing_step {fault : Fault} (hh : s.halted = false)
    (h : s.run.fault = some fault) : ∃ k, s.report k = .failed fault ∧
      (s.steps k).halted = false ∧ (s.steps k).pc = fault.place ∧
      (s.steps k).stack = s.run.stack := by
  obtain ⟨k, g, gs, hk, hu, he⟩ := exists_fail_of_fault_run hh h
  have hhk := halted_of_endsAt hh hk
  have hstep : (s.steps k).step = (s.steps k).follow (.fail fault) := by
    rw [step_of_segments hhk hu, he]
  refine ⟨k, congrArg Prod.fst hstep, hhk, (place_of_segmentEffect he).symm, ?_⟩
  rw [run_of_endsAt hk, steps_succ', hstep]
  rfl

end State

end Stack256
