import Mathlib
import Stack256.Proofs.State.Invariant

/-!
# Stack256.Proofs.State.Session — sessions from the start of some code

Commands come from outside and in any order, so that what holds throughout a session is what every
command keeps (`performAll_induction`).  The steps of a session report that the run goes on until
one of them ends it, and only that one can report a fault: a halted state takes every command
without moving (`signals_of_halted`).
-/

namespace Stack256.State

open Layout

/-- What the steps of a session report, in order. -/
def signals : State → List Command → List Signal
  | _, [] => []
  | s, command :: commands =>
    (s.perform command).1.toList ++ (s.perform command).2.signals commands

variable {s : State} {cs : List Command}

theorem signals_step (s : State) (cs : List Command) :
    s.signals (.step :: cs) = s.step.1 :: s.step.2.signals cs := rfl

theorem signals_setPolicy (s : State) (policy : UnknownPolicy) (cs : List Command) :
    s.signals (.setPolicy policy :: cs) = { s with policy }.signals cs := rfl

/-! ### Commands in order -/

theorem performAll_snd (s : State) (cs : List Command) :
    (s.performAll cs).2 = cs.foldl (fun t c => (t.perform c).2) s :=
  (List.foldl_hom Prod.snd fun _ _ => rfl).symm

theorem performAll_cons_snd (s : State) (c : Command) (cs : List Command) :
    (s.performAll (c :: cs)).2 = ((s.perform c).2.performAll cs).2 := by
  rw [performAll_snd, performAll_snd, List.foldl_cons]

theorem performAll_append_snd (s : State) (cs ds : List Command) :
    (s.performAll (cs ++ ds)).2 = ((s.performAll cs).2.performAll ds).2 := by
  rw [performAll_snd, performAll_snd, performAll_snd, List.foldl_append]

theorem signals_append (s : State) (cs ds : List Command) :
    s.signals (cs ++ ds) = s.signals cs ++ (s.performAll cs).2.signals ds := by
  induction cs generalizing s with
  | nil => rfl
  | cons c cs ih =>
    rw [List.cons_append, signals, ih, signals, performAll_cons_snd, List.append_assoc]

/-- What a step and a change of the policy keep holds after all commands. -/
theorem performAll_induction {P : State → Prop} (hstep : ∀ t, P t → P t.step.2)
    (hpolicy : ∀ t policy, P t → P { t with policy }) (h : P s) (cs : List Command) :
    P (s.performAll cs).2 := by
  induction cs generalizing s with
  | nil => exact h
  | cons c cs ih =>
    rw [performAll_cons_snd]
    cases c with
    | step => exact ih (hstep s h)
    | setPolicy policy => exact ih (hpolicy s policy h)

theorem Sound.performAll (h : s.Sound) (cs : List Command) : (s.performAll cs).2.Sound :=
  performAll_induction (fun _ ht => ht.step)
    (fun _ _ ht => ⟨ht.pc_le, ht.length_stack_le, ht.isBoundary⟩) h cs

theorem frame_performAll (s : State) (cs : List Command) :
    (s.performAll cs).2.code = s.code ∧ (s.performAll cs).2.capacity = s.capacity := by
  refine performAll_induction (P := fun t => t.code = s.code ∧ t.capacity = s.capacity)
    (fun t ht => ?_) (fun _ _ ht => ht) ⟨rfl, rfl⟩ cs
  obtain ⟨hcode, hcapacity, -⟩ := frame_step t
  exact ⟨hcode.trans ht.1, hcapacity.trans ht.2⟩

theorem pc_le_performAll (s : State) (cs : List Command) : s.pc ≤ (s.performAll cs).2.pc :=
  performAll_induction (P := fun t => s.pc ≤ t.pc) (fun t ht => ht.trans (pc_le_step t))
    (fun _ _ ht => ht) le_rfl cs

/-! ### Halted states -/

theorem performAll_of_halted (h : s.halted = true) (cs : List Command) :
    (s.performAll cs).2.pc = s.pc ∧ (s.performAll cs).2.stack = s.stack ∧
      (s.performAll cs).2.halted = true := by
  refine performAll_induction (P := fun t => t.pc = s.pc ∧ t.stack = s.stack ∧ t.halted = true)
    (fun t ht => ?_) (fun _ _ ht => ht) ⟨rfl, rfl, h⟩ cs
  rw [step_of_halted ht.2.2]
  exact ht

/-- After the end of the run every step reports that it has ended before. -/
theorem signals_of_halted (h : s.halted = true) (cs : List Command) :
    s.signals cs = List.replicate (cs.count .step) .halted := by
  induction cs generalizing s with
  | nil => rfl
  | cons c cs ih =>
    cases c with
    | step =>
      rw [signals_step, step_of_halted h, ih h, List.count_cons_self, List.replicate_succ]
    | setPolicy policy =>
      rw [signals_setPolicy, List.count_cons_of_ne Command.noConfusion]
      exact ih h

/-- A session has halted if and only if one of its steps has not gone on. -/
theorem halted_performAll_iff (h : s.halted = false) (cs : List Command) :
    (s.performAll cs).2.halted = true ↔ ∃ signal ∈ s.signals cs, signal ≠ .running := by
  induction cs generalizing s with
  | nil => simp [signals, h]
  | cons c cs ih =>
    rw [performAll_cons_snd]
    cases c with
    | step =>
      rw [signals_step, List.exists_mem_cons_iff, perform]
      by_cases hr : s.step.1 = .running
      · rw [ih (running_iff.1 hr)]
        simp only [hr, ne_eq, not_true_eq_false, false_or]
      · exact iff_of_true (performAll_of_halted (halted_of_ne_running hr) cs).2.2 (.inl hr)
    | setPolicy policy => exact ih h

/-- At most one step of a session reports a fault. -/
theorem countP_fault_signals_le_one (s : State) (cs : List Command) :
    (s.signals cs).countP (·.fault?.isSome) ≤ 1 := by
  induction cs generalizing s with
  | nil => exact Nat.zero_le 1
  | cons c cs ih =>
    cases c with
    | step =>
      rw [signals_step]
      by_cases hr : s.step.1 = .running
      · rw [hr, List.countP_cons_of_neg (by simp [Signal.fault?])]
        exact ih s.step.2
      · -- the run ends here, and none of the reports that follow is a fault
        have hrest : (s.step.2.signals cs).countP (·.fault?.isSome) = 0 := by
          rw [signals_of_halted (halted_of_ne_running hr), List.countP_replicate]
          rfl
        rw [← List.singleton_append, List.countP_append, hrest, add_zero]
        exact List.countP_le_length
    | setPolicy policy => exact ih { s with policy }

/-! ### Sessions from the start -/

/-- **Sessions.**  After any commands `cs` the place and the stack of `s` are within their bounds;
further commands `ds` never lead back, and move nothing once a step has reported an end. -/
theorem session_invariant (code : List UInt8) (capacity : ℕ) (cs : List Command) :
    let start : State := { code, capacity }
    let s := (start.performAll cs).2
    s.pc ≤ code.length ∧ s.stack.length ≤ capacity ∧
    (∀ ds, s.pc ≤ (start.performAll (cs ++ ds)).2.pc) ∧
    (s.halted = true ↔ ∃ signal ∈ start.signals cs, signal ≠ .running) ∧
    (s.halted = false → s.pc ∈ starts code ∨ s.pc = code.length) ∧
    ((∃ signal ∈ start.signals cs, signal ≠ .running) → ∀ ds,
      start.signals (cs ++ ds) = start.signals cs ++ List.replicate (ds.count .step) .halted ∧
      (start.performAll (cs ++ ds)).2.pc = s.pc ∧
      (start.performAll (cs ++ ds)).2.stack = s.stack) ∧
    (start.signals cs).countP (·.fault?.isSome) ≤ 1 ∧
    ∀ policy, (start.performAll (cs ++ [.setPolicy policy])).2 = { s with policy } := by
  intro start s
  have hsound : s.Sound := (sound_start code capacity .reject).performAll cs
  obtain ⟨hcode, hcapacity⟩ : s.code = code ∧ s.capacity = capacity := frame_performAll start cs
  have hhalted : s.halted = true ↔ ∃ signal ∈ start.signals cs, signal ≠ .running :=
    halted_performAll_iff rfl cs
  refine ⟨hcode ▸ hsound.pc_le, hcapacity ▸ hsound.length_stack_le, fun ds => ?_, hhalted,
    fun hf => hcode ▸ hsound.isBoundary hf, fun h ds => ?_, countP_fault_signals_le_one start cs,
    fun policy => ?_⟩
  · rw [performAll_append_snd]
    exact pc_le_performAll s ds
  · have hh := hhalted.2 h
    obtain ⟨hpc, hstack, -⟩ := performAll_of_halted hh ds
    rw [performAll_append_snd, signals_append, signals_of_halted hh]
    exact ⟨rfl, hpc, hstack⟩
  · rw [performAll_append_snd]
    rfl

/-- A byte without meaning is skipped after a change of the policy; the addition behind it finds one
word only, and changing the policy back does not bring the run to life. -/
theorem session_invariant_underflow :
    let start : State := { code := [0x60, 7, 0xfe, 0x01, 0x50], capacity := 2 }
    let skipped : List Command := [.step, .setPolicy .skip, .step]
    let failed : List Command := [.step, .setPolicy .skip, .step, .step]
    let later : List Command := [.setPolicy .reject, .step]
    ((start.performAll skipped).2.halted = false ∧
      ((start.performAll skipped).2.pc ∈ starts [0x60, 7, 0xfe, 0x01, 0x50] ∨
        (start.performAll skipped).2.pc = 5)) ∧
    start.signals failed = [.running, .running, .failed (.stackUnderflow 3 1)] ∧
    start.signals (failed ++ later) =
      [.running, .running, .failed (.stackUnderflow 3 1), .halted] ∧
    (start.performAll (failed ++ later)).2.pc = 4 := by
  intro start skipped failed later
  have hf : (start.performAll skipped).2.halted = false := by decide +kernel
  have hs : start.signals failed =
      [.running, .running, .failed (.stackUnderflow 3 1)] := by decide +kernel
  obtain ⟨-, -, -, -, hplace, -⟩ := session_invariant [0x60, 7, 0xfe, 0x01, 0x50] 2 skipped
  obtain ⟨-, -, -, -, -, hend, -⟩ := session_invariant [0x60, 7, 0xfe, 0x01, 0x50] 2 failed
  have hfault : ∃ signal ∈ start.signals failed, signal ≠ .running :=
    ⟨.failed (.stackUnderflow 3 1), by simp [hs], Signal.noConfusion⟩
  obtain ⟨hsignals, hpc, -⟩ := hend hfault later
  refine ⟨⟨hf, hplace hf⟩, hs, ?_, ?_⟩
  · rw [hsignals, hs]
    rfl
  · rw [hpc]
    decide +kernel

end Stack256.State
