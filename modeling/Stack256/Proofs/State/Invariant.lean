import Mathlib
import Stack256.Proofs.Layout.Boundary
import Stack256.Proofs.State.Steps

/-!
# Stack256.Proofs.State.Invariant — what every step keeps

The place of a state never lies behind its code, its stack never holds more words than the capacity,
and as long as it has not halted it stands between two segments.  These three are kept by a step
(`Sound.step`), which never goes back in the code either (`pc_le_step`).
-/

namespace Stack256.State

open Layout

/-- A state within its bounds that reads instructions where they start. -/
structure Sound (s : State) : Prop where
  pc_le : s.pc ≤ s.code.length
  length_stack_le : s.stack.length ≤ s.capacity
  isBoundary : s.halted = false → IsBoundary s.code s.pc

variable {s : State} {g : Segment} {gs : List Segment} {pc : ℕ} {stack : List Word}

theorem sound_start (code : List UInt8) (capacity : ℕ) (policy : UnknownPolicy) :
    Sound { code, capacity, policy } :=
  ⟨Nat.zero_le _, Nat.zero_le _, fun _ => isBoundary_zero code⟩

theorem lt_of_segments_unread (hu : segments s.unread = g :: gs) : s.pc < s.code.length := by
  by_contra h
  rw [unread, List.drop_eq_nil_of_le (Nat.not_lt.1 h), segments_nil] at hu
  cases hu

theorem length_stack_le_of_settle {pc' : ℕ} {stack' : List Word}
    (h : s.settle pc stack = .next pc' stack') : stack'.length ≤ s.capacity := by
  unfold settle at h
  split_ifs at h with hle
  obtain ⟨-, rfl⟩ := Effect.next.inj h
  exact hle

/-- An instruction that lets the run go on keeps the stack within the capacity. -/
theorem length_stack_le_of_segmentEffect (hs : s.stack.length ≤ s.capacity)
    (h : s.segmentEffect g = .next pc stack) : stack.length ≤ s.capacity := by
  cases g with
  | op o =>
    by_cases ho : o = .stop
    · subst ho
      cases h
    · rw [segmentEffect, opcodeEffect_of_ne_stop ho] at h
      split at h
      · cases h
      · exact length_stack_le_of_settle h
  | push data => exact length_stack_le_of_settle h
  | unknown byte =>
    rw [segmentEffect, unknownEffect] at h
    split at h
    · cases h
    · obtain ⟨-, rfl⟩ := Effect.next.inj h
      exact hs
  | truncated width data => cases h

/-- A step keeps the stack within the capacity. -/
theorem length_stack_le_step (hs : s.stack.length ≤ s.capacity) :
    s.step.2.stack.length ≤ s.step.2.capacity := by
  obtain ⟨h, -⟩ | ⟨g, gs, -, -, h⟩ := step_cases s
  · rw [h]
    exact hs
  · rw [h]
    cases he : s.segmentEffect g with
    | next pc stack =>
      have hle : stack.length ≤ s.capacity := length_stack_le_of_segmentEffect hs he
      exact hle
    | halt => exact hs
    | fail fault => exact hs

theorem length_stack_le_steps (hs : s.stack.length ≤ s.capacity) (k : ℕ) :
    (s.steps k).stack.length ≤ (s.steps k).capacity := by
  induction k with
  | zero => exact hs
  | succ k ih =>
    rw [steps_succ']
    exact length_stack_le_step ih

theorem Sound.step (h : s.Sound) : s.step.2.Sound := by
  have hd := length_stack_le_step h.length_stack_le
  obtain ⟨hs, -⟩ | ⟨g, gs, hh, hu, hs⟩ := step_cases s
  · rw [hs] at hd ⊢
    exact ⟨h.pc_le, hd, fun hf => absurd hf (by simp)⟩
  · rw [hs] at hd ⊢
    have hlt : s.pc + 1 ≤ s.code.length := lt_of_segments_unread hu
    cases he : s.segmentEffect g with
    | next pc stack =>
      rw [he] at hd
      have hb : IsBoundary s.code pc := by
        rw [pc_of_segmentEffect he]
        exact (h.isBoundary hh).next hu
      exact ⟨hb.le, hd, fun _ => hb⟩
    | halt => exact ⟨hlt, h.length_stack_le, fun hf => absurd hf (by simp [follow])⟩
    | fail fault => exact ⟨hlt, h.length_stack_le, fun hf => absurd hf (by simp [follow])⟩

theorem Sound.steps (h : s.Sound) (k : ℕ) : (s.steps k).Sound := by
  induction k with
  | zero => exact h
  | succ k ih =>
    rw [steps_succ']
    exact ih.step

theorem pc_le_step (s : State) : s.pc ≤ s.step.2.pc := by
  obtain ⟨hs, -⟩ | ⟨g, gs, -, -, hs⟩ := step_cases s
  · rw [hs]
  · rw [hs]
    cases he : s.segmentEffect g with
    | next pc stack =>
      rw [pc_of_segmentEffect he]
      exact Nat.le_add_right _ _
    | halt => exact Nat.le_succ _
    | fail fault => exact Nat.le_succ _

end Stack256.State
