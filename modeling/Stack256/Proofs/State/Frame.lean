import Mathlib
import Stack256.Proofs.Processor.Agreement

/-!
# Stack256.Proofs.State.Frame — words beneath a stack

An action takes words off the top of the stack and puts one there, so that other words beneath them
stay where they are (`Action.stackAfter?_append`), as long as it does not ask for more words than
there are above them.  With room for them in addition, a run above other words is the same run
(`run_above`), and in place these words stand at the bottom of the memory, where no step touches
them.
-/

namespace Stack256

/-- An action that finds its words does not see what is beneath them. -/
theorem Action.stackAfter?_append {action : Action} {stack stack' : List Word}
    (h : action.stackAfter? stack = some stack') (beneath : List Word) :
    action.stackAfter? (stack ++ beneath) = some (stack' ++ beneath) := by
  cases action with
  | halt =>
    obtain rfl := Option.some.inj h
    rfl
  | constant value =>
    obtain rfl := Option.some.inj h
    rfl
  | drop =>
    match stack, h with
    | a :: rest, rfl => rfl
  | unary f =>
    match stack, h with
    | a :: rest, rfl => rfl
  | binary f =>
    match stack, h with
    | a :: b :: rest, rfl => rfl
  | ternary f =>
    match stack, h with
    | a :: b :: c :: rest, rfl => rfl

/-- The same effect with other words beneath the stack. -/
def Effect.above (beneath : List Word) : Effect → Effect
  | .next pc stack => .next pc (stack ++ beneath)
  | .halt => .halt
  | .fail fault => .fail fault

namespace State

open Layout

/-- The same state with other words beneath its stack, and as much more room. -/
def above (beneath : List Word) (s : State) : State :=
  { s with stack := s.stack ++ beneath, capacity := s.capacity + beneath.length }

variable {s : State} {g : Segment} {beneath : List Word}

theorem settle_above (s : State) (pc : ℕ) (stack beneath : List Word) :
    (s.above beneath).settle pc (stack ++ beneath) = (s.settle pc stack).above beneath := by
  have hroom : (stack ++ beneath).length ≤ (s.above beneath).capacity ↔
      stack.length ≤ s.capacity := by
    rw [List.length_append, above]
    exact Nat.add_le_add_iff_right
  unfold settle
  simp only [hroom]
  split_ifs <;> rfl

/-- Where no word is missing, an instruction does the same above other words. -/
theorem segmentEffect_above (beneath : List Word)
    (h : ∀ place byte, s.segmentEffect g ≠ .fail (.stackUnderflow place byte)) :
    (s.above beneath).segmentEffect g = (s.segmentEffect g).above beneath := by
  cases g with
  | op o =>
    by_cases ho : o = .stop
    · subst ho
      rfl
    · rw [segmentEffect, opcodeEffect_of_ne_stop ho] at h
      rw [segmentEffect, segmentEffect, opcodeEffect_of_ne_stop ho, opcodeEffect_of_ne_stop ho]
      cases ht : o.action.stackAfter? s.stack with
      | none =>
        rw [ht] at h
        exact absurd rfl (h s.pc o.byte)
      | some stack =>
        have happend : o.action.stackAfter? (s.above beneath).stack = some (stack ++ beneath) :=
          Action.stackAfter?_append ht beneath
        rw [happend]
        exact settle_above s (s.pc + 1) stack beneath
  | push data => exact settle_above s _ (_ :: s.stack) beneath
  | unknown byte =>
    obtain ⟨code, capacity, policy, pc, stack, halted⟩ := s
    cases policy <;> rfl
  | truncated width data => rfl

theorem carries_above (beneath : List Word)
    (h : ∀ place byte, s.step.1 ≠ .failed (.stackUnderflow place byte)) :
    Carries (above beneath) s := by
  refine carries_of_segments rfl rfl rfl fun g gs hh hu => ?_
  have hne : ∀ place byte, s.segmentEffect g ≠ .fail (.stackUnderflow place byte) := by
    intro place byte he
    refine h place byte ?_
    rw [step_of_segments hh hu, he]
    rfl
  rw [segmentEffect_above beneath hne]
  cases s.segmentEffect g <;> rfl

/-- **Frame.**  If the run of `s` misses no word, `t` runs alike above the words `beneath`, step by
step; in place they stay at the bottom of the memory. -/
theorem run_above (s : State) (beneath : List Word) (hs : s.stack.length ≤ s.capacity)
    (h : ∀ place byte, s.run.fault ≠ some (.stackUnderflow place byte)) :
    let t : State :=
      { s with stack := s.stack ++ beneath, capacity := s.capacity + beneath.length }
    (t.run.fault = s.run.fault ∧ t.run.pc = s.run.pc ∧ t.run.stack = s.run.stack ++ beneath) ∧
    ∀ k, t.report k = s.report k ∧ (t.steps k).stack = (s.steps k).stack ++ beneath ∧
      (t.processor.steps k).words = beneath.reverse ++ (s.processor.steps k).words := by
  intro t
  have hcarries : ∀ k, Carries (above beneath) (s.steps k) := fun k =>
    carries_above beneath fun place byte hplace => h place byte (fault_run_of_failed hplace)
  refine ⟨?_, fun k => ?_⟩
  · obtain ⟨k, hk⟩ := exists_endsAt s
    have hrun : t.run = _ := run_map (f := above beneath) hk fun j _ => hcarries j
    rw [hrun, run_of_endsAt hk]
    exact ⟨rfl, rfl, rfl⟩
  · have ht : t.stack.length ≤ t.capacity := by
      rw [List.length_append]
      exact Nat.add_le_add_right hs _
    have hsteps : t.steps k = (s.steps k).above beneath := steps_map fun j _ => hcarries j
    have hreport : t.report k = s.report k := report_map (f := above beneath) fun j _ => hcarries j
    refine ⟨hreport, ?_, ?_⟩
    · rw [hsteps]
      rfl
    · rw [words_steps_processor ht, words_steps_processor hs, hsteps]
      exact List.reverse_append

/-- From the second byte on, an addition takes both words of the stack, and the second push behind
it overflows as it would without the three words beneath. -/
theorem run_above_overflow :
    let code : List UInt8 := [0xfe, 0x01, 0x60, 9, 0x60, 9]
    let s : State := { code, capacity := 2, pc := 1, stack := [7, 8] }
    let t : State := { code, capacity := 5, pc := 1, stack := [7, 8, 1, 2, 3] }
    s.stack.length ≤ s.capacity ∧
    (∀ place byte, s.run.fault ≠ some (.stackUnderflow place byte)) ∧
    s.run = ⟨[9, 15], some (.stackOverflow 4), 5⟩ ∧
    (t.run.fault = some (.stackOverflow 4) ∧ t.run.pc = 5 ∧ t.run.stack = [9, 15] ++ [1, 2, 3]) ∧
    (t.processor.steps 1).words = [3, 2, 1] ++ [15] := by
  intro code s t
  have hs : s.run = ⟨[9, 15], some (.stackOverflow 4), 5⟩ := by decide +kernel
  have hne : ∀ place byte, s.run.fault ≠ some (.stackUnderflow place byte) := by
    intro place byte
    rw [hs]
    exact fun h => Fault.noConfusion (Option.some.inj h)
  have hstep : (s.processor.steps 1).words = [15] := by decide +kernel
  obtain ⟨⟨hfault, hpc, hstack⟩, hsteps⟩ := run_above s [1, 2, 3] (by decide) hne
  rw [hs] at hfault hpc hstack
  obtain ⟨-, -, hwords⟩ := hsteps 1
  rw [hstep] at hwords
  exact ⟨by decide, hne, hs, ⟨hfault, hpc, hstack⟩, hwords⟩

end State

end Stack256
