import Mathlib
import Stack256.Proofs.Opcode.Integer
import Stack256.Proofs.State.Segments
import Stack256.Proofs.Word.Bytes
import Stack256.Semantics.Code

/-!
# Stack256.Proofs.Semantics.Refinement — a run computes the meaning of its code

`Semantics.meaning` divides the code into segments first and then computes with integers; a run
looks its instructions up one by one and computes with words.  The two walk along the same segments
(`ending_run_of_segments`), and so end alike on all code (`ending_run_eq_meaning`).
-/

namespace Stack256

theorem Semantics.exec_op {o : Opcode} (ho : o ≠ .stop) (capacity : ℕ) (policy : UnknownPolicy)
    (place : ℕ) (gs : List Segment) (s : List ℕ) :
    exec capacity policy place (.op o :: gs) s = match after? o s with
      | none => ⟨s, some (.stackUnderflow place o.byte), place + 1⟩
      | some t =>
        if t.length ≤ capacity then exec capacity policy (place + 1) gs t
        else ⟨s, some (.stackOverflow place), place + 1⟩ := by
  cases o with
  | stop => exact absurd rfl ho
  | _ => rfl

namespace State

open Layout Semantics

/-! ### The walk along the segments -/

variable {s : State} {gs : List Segment}

/-- The run ends as the segments do. -/
def EndsAs (s : State) (gs : List Segment) : Prop :=
  s.run.ending = exec s.capacity s.policy s.pc gs (s.stack.map BitVec.toNat)

theorem ending_resume_settle {pc : ℕ} {stack : List Word}
    (hnext : stack.length ≤ s.capacity → EndsAs { s with pc := pc, stack := stack } gs) :
    (s.resume (s.settle pc stack)).ending =
      if stack.length ≤ s.capacity then exec s.capacity s.policy pc gs (stack.map BitVec.toNat)
      else ⟨s.stack.map BitVec.toNat, some (.stackOverflow s.pc), s.pc + 1⟩ := by
  rw [resume_settle]
  split_ifs with h
  · exact hnext h
  · rfl

theorem ending_run_of_segments (hh : s.halted = false) (hu : segments s.unread = gs) :
    EndsAs s gs := by
  -- induction along the segments: where the run goes on, those behind are what is unread
  induction gs generalizing s with
  | nil =>
    rw [EndsAs, run_of_segments_nil hh hu]
    rfl
  | cons g gs ih =>
    have hnext : ∀ pc stack, s.segmentEffect g = .next pc stack →
        EndsAs { s with pc := pc, stack := stack } gs :=
      fun pc stack he => ih hh (segments_unread_next hu he)
    rw [EndsAs, run_of_segments hh hu]
    cases g with
    | truncated width data => rfl
    | push data =>
      have hv : (Segment.push data).Valid := valid_of_mem_segments (hu ▸ List.mem_cons_self)
      have hvalue : (Word.ofBytes data).toNat = bigEndian data :=
        Word.toNat_ofBytes_of_length_le hv.2
      rw [segmentEffect, ending_resume_settle fun h => hnext _ _ (settle_of_le h), exec,
        List.map_cons, hvalue, List.length_map]
      rfl
    | unknown byte =>
      cases hp : s.policy with
      | reject =>
        rw [segmentEffect, unknownEffect, hp]
        rfl
      | skip =>
        have he : s.segmentEffect (.unknown byte) = .next (s.pc + 1) s.stack := by
          rw [segmentEffect, unknownEffect, hp]
        rw [he, exec, ← hp]
        exact hnext _ _ he
    | op o =>
      by_cases ho : o = .stop
      · subst ho
        rfl
      · have he := opcodeEffect_of_ne_stop ho s
        rw [segmentEffect, he, exec_op ho, Opcode.after?_map_toNat]
        cases ht : o.action.stackAfter? s.stack with
        | none => rfl
        | some t =>
          rw [ht] at he
          simp only [Option.map_some, List.length_map]
          exact ending_resume_settle fun h => hnext _ _ (he.trans (settle_of_le h))

/-- **Refinement.**  Run from its start on an empty stack, all code ends in its meaning: with the
same integers on the stack, with the same fault or none, and at the same place. -/
theorem ending_run_eq_meaning (code : List UInt8) (capacity : ℕ) (policy : UnknownPolicy) :
    (run { code, capacity, policy }).ending = meaning code capacity policy :=
  ending_run_of_segments rfl rfl

end State

end Stack256
