import Mathlib
import Stack256.Proofs.Layout.Segments
import Stack256.State.Run

/-!
# Stack256.Proofs.State.Segments — a step carries out one segment

A state that has not halted reads the first segment of what is unread: `segmentEffect` says what
each kind of segment does, and a step follows it (`step_of_segments`).  Where the run goes on, the
segments behind that one are unread (`segments_unread_next`), so that a run is a walk along the
segments (`run_of_segments`).
-/

namespace Stack256.State

open Layout

/-- The effect of a segment. -/
def segmentEffect (s : State) : Segment → Effect
  | .op o => s.opcodeEffect o
  | .push data => s.settle (s.pc + 1 + data.length) (Word.ofBytes data :: s.stack)
  | .unknown byte => s.unknownEffect byte
  | .truncated width data => .fail (.truncatedPush s.pc width data.length)

/-- The outcome of a run after an instruction with the given effect. -/
def resume (s : State) : Effect → Outcome
  | .next pc stack => run { s with pc := pc, stack := stack }
  | .halt => ⟨s.stack, none, s.pc + 1⟩
  | .fail fault => ⟨s.stack, some fault, s.pc + 1⟩

variable {s : State} {g : Segment} {gs : List Segment}

theorem settle_of_le {pc : ℕ} {stack : List Word} (h : stack.length ≤ s.capacity) :
    s.settle pc stack = .next pc stack :=
  if_pos h

theorem opcodeEffect_of_ne_stop {o : Opcode} (ho : o ≠ .stop) (s : State) :
    s.opcodeEffect o = match o.action.stackAfter? s.stack with
      | none => .fail (.stackUnderflow s.pc o.byte)
      | some stack => s.settle (s.pc + 1) stack := by
  cases o with
  | stop => exact absurd rfl ho
  | _ => rfl

theorem effect_eq_segmentEffect {byte : UInt8} {rest behind : List UInt8}
    (h : First byte rest g behind) (s : State) : s.effect byte rest = s.segmentEffect g := by
  unfold effect
  cases h with
  | op hw ho => simp only [hw, ho, segmentEffect]
  | push hw hle =>
    simp only [hw, pushEffect, if_neg (Nat.not_lt.2 hle), segmentEffect, List.length_take_of_le hle]
  | unknown hw ho => simp only [hw, ho, segmentEffect]
  | truncated hw hlt => simp only [hw, pushEffect, if_pos hlt, segmentEffect]

theorem resume_settle (s : State) (pc : ℕ) (stack : List Word) :
    s.resume (s.settle pc stack) =
      if stack.length ≤ s.capacity then run { s with pc := pc, stack := stack }
      else ⟨s.stack, some (.stackOverflow s.pc), s.pc + 1⟩ := by
  unfold settle
  split_ifs <;> rfl

/-! ### Steps -/

/-- The state after `k` steps. -/
def steps (k : ℕ) (s : State) : State :=
  (fun s => s.step.2)^[k] s

theorem step_of_unread_nil (hh : s.halted = false) (hu : s.unread = []) :
    s.step = (.halted, { s with halted := true }) := by
  simp only [step, hh, hu, Bool.false_eq_true, if_false]

theorem step_of_segments (hh : s.halted = false) (hu : segments s.unread = g :: gs) :
    s.step = s.follow (s.segmentEffect g) := by
  obtain ⟨byte, rest, behind, hcode, hf, -⟩ := segments_eq_cons hu
  simp only [step, hh, hcode, Bool.false_eq_true, if_false, effect_eq_segmentEffect hf]

/-- Where the run goes on behind a segment, it is behind all bytes of the segment. -/
theorem pc_of_segmentEffect {pc : ℕ} {stack : List Word}
    (h : s.segmentEffect g = .next pc stack) : pc = s.pc + g.bytes.length := by
  cases g with
  | op o => exact pc_of_opcodeEffect h
  | push data =>
    rw [(settle_eq_next h).1, Segment.bytes, List.length_cons]
    omega
  | unknown byte => exact pc_of_unknownEffect h
  | truncated width data => cases h

theorem settle_ne_halt (s : State) (pc : ℕ) (stack : List Word) : s.settle pc stack ≠ .halt := by
  unfold settle
  split_ifs <;> exact Effect.noConfusion

/-- Only the opcode that ends a run ends it without a fault. -/
theorem eq_stop_of_segmentEffect (h : s.segmentEffect g = .halt) : g = .op .stop := by
  cases g with
  | op o =>
    by_cases ho : o = .stop
    · rw [ho]
    · rw [segmentEffect, opcodeEffect_of_ne_stop ho] at h
      split at h
      · cases h
      · exact absurd h (settle_ne_halt s _ _)
  | push data => exact absurd h (settle_ne_halt s _ _)
  | unknown byte =>
    rw [segmentEffect, unknownEffect] at h
    split at h <;> cases h
  | truncated width data => cases h

theorem fault_of_settle {pc : ℕ} {stack : List Word} {fault : Fault}
    (h : s.settle pc stack = .fail fault) : fault = .stackOverflow s.pc := by
  unfold settle at h
  split_ifs at h
  cases h
  rfl

theorem fault_of_opcodeEffect {o : Opcode} {fault : Fault} (h : s.opcodeEffect o = .fail fault) :
    fault = .stackUnderflow s.pc o.byte ∨ fault = .stackOverflow s.pc := by
  unfold opcodeEffect at h
  split at h
  · cases h
  · split at h
    · cases h
      exact .inl rfl
    · exact .inr (fault_of_settle h)

/-- A fault is reported at the place of the instruction that failed. -/
theorem place_of_segmentEffect {fault : Fault} (h : s.segmentEffect g = .fail fault) :
    fault.place = s.pc := by
  cases g with
  | op o => obtain rfl | rfl := fault_of_opcodeEffect h <;> rfl
  | push data =>
    obtain rfl := fault_of_settle h
    rfl
  | unknown byte =>
    rw [segmentEffect, unknownEffect] at h
    split at h
    · rw [← Effect.fail.inj h]
      rfl
    · cases h
  | truncated width data =>
    rw [← Effect.fail.inj h]
    rfl

theorem segments_unread_next {pc : ℕ} {stack : List Word} (hu : segments s.unread = g :: gs)
    (h : s.segmentEffect g = .next pc stack) :
    segments { s with pc := pc, stack := stack }.unread = gs := by
  rw [unread, pc_of_segmentEffect h, ← List.drop_drop, ← unread, segments_drop hu]

/-! ### Runs -/

theorem run_of_segments_nil (hh : s.halted = false) (hu : segments s.unread = []) :
    s.run = ⟨s.stack, none, s.pc⟩ := by
  rw [run, step_of_unread_nil hh (segments_eq_nil_iff.1 hu)]

theorem run_of_segments (hh : s.halted = false) (hu : segments s.unread = g :: gs) :
    s.run = s.resume (s.segmentEffect g) := by
  rw [run, step_of_segments hh hu]
  cases s.segmentEffect g <;> rfl

end Stack256.State
