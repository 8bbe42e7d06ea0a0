import Mathlib
import Stack256.Proofs.Layout.RoundTrip
import Stack256.Proofs.State.Segments

/-!
# Stack256.Proofs.Program.Agreement — running what was written for a program

A program that is written as code and run does the same as a program that is carried out as it
stands.  Each of its instructions is one segment, so that one step of the state carries out one
instruction (`run_cons`); the rest is induction along the program.
-/

namespace Stack256.Program

open Instruction Layout

/-! ### One instruction -/

theorem segmentEffect_sizedPush {width : ℕ} {value : Word} (hw : (sizedPush width value).Writable)
    (s : State) : s.segmentEffect (sizedPush width value).segment =
      s.settle (s.pc + (sizedPush width value).size) (value :: s.stack) := by
  have hvalue : Word.ofBytes (value.bytes width) = value := Word.ofBytes_bytes hw.2 hw.1.2
  rw [Instruction.segment, State.segmentEffect, Word.length_bytes, hvalue, size, add_assoc]

theorem segmentEffect_push (value : Word) (s : State) :
    s.segmentEffect (push value).segment =
      s.settle (s.pc + (push value).size) (value :: s.stack) := by
  rw [Instruction.segment]
  split_ifs with h
  · subst h
    rfl
  · have hvalue : Word.ofBytes (value.bytes value.byteCount) = value :=
      Word.ofBytes_bytes le_rfl (Word.byteCount_le value)
    rw [State.segmentEffect, Word.length_bytes, hvalue, size, add_assoc]

theorem run_op {o : Opcode} (ho : o ≠ .stop) (capacity place : ℕ) (is : List Instruction)
    (stack : List Word) :
    run capacity place (op o :: is) stack = match o.action.stackAfter? stack with
      | none => ⟨stack, some (.stackUnderflow place o.byte), place + 1⟩
      | some t =>
        if t.length ≤ capacity then run capacity (place + 1) is t
        else ⟨stack, some (.stackOverflow place), place + 1⟩ := by
  cases o with
  | stop => exact absurd rfl ho
  | _ => rfl

/-- What remains of a program, from the state in which its next instruction has an effect. -/
def resume (s : State) (is : List Instruction) : Effect → Outcome
  | .next pc stack => run s.capacity pc is stack
  | .halt => ⟨s.stack, none, s.pc + 1⟩
  | .fail fault => ⟨s.stack, some fault, s.pc + 1⟩

variable {i : Instruction} {is : List Instruction} {s : State}

theorem resume_settle (s : State) (is : List Instruction) (pc : ℕ) (stack : List Word) :
    resume s is (s.settle pc stack) =
      if stack.length ≤ s.capacity then run s.capacity pc is stack
      else ⟨s.stack, some (.stackOverflow s.pc), s.pc + 1⟩ := by
  unfold State.settle
  split_ifs <;> rfl

/-- A program carries out its first instruction as a state carries out the segment for it. -/
theorem run_cons (hw : i.Writable) (hr : ∀ byte, i ≠ raw byte) (s : State)
    (is : List Instruction) :
    run s.capacity s.pc (i :: is) s.stack = resume s is (s.segmentEffect i.segment) := by
  cases i with
  | raw byte => exact absurd rfl (hr byte)
  | push value =>
    rw [segmentEffect_push, resume_settle, run]
    rfl
  | sizedPush width value =>
    rw [segmentEffect_sizedPush hw, resume_settle, run]
    rfl
  | op o =>
    by_cases ho : o = .stop
    · subst ho
      rfl
    · rw [run_op ho, Instruction.segment, State.segmentEffect, State.opcodeEffect_of_ne_stop ho]
      cases o.action.stackAfter? s.stack with
      | none => rfl
      | some t => exact (resume_settle s is (s.pc + 1) t).symm

theorem eq_stop_of_halt (h : s.segmentEffect i.segment = .halt) : i = op .stop := by
  have hg := State.eq_stop_of_segmentEffect h
  cases i with
  | op o =>
    injection hg with ho
    rw [ho]
  | push value =>
    rw [Instruction.segment] at hg
    split_ifs at hg
    cases hg
  | sizedPush width value => cases hg
  | raw byte => cases hg

/-- An instruction that is no raw byte fails on account of the stack. -/
theorem fault_of_fail {fault : Fault} (hr : ∀ byte, i ≠ raw byte)
    (h : s.segmentEffect i.segment = .fail fault) :
    (∃ byte, fault = .stackUnderflow s.pc byte) ∨ fault = .stackOverflow s.pc := by
  cases i with
  | op o => exact (State.fault_of_opcodeEffect h).imp (fun h => ⟨_, h⟩) id
  | push value =>
    rw [segmentEffect_push] at h
    exact .inr (State.fault_of_settle h)
  | sizedPush width value => exact .inr (State.fault_of_settle h)
  | raw byte => exact absurd rfl (hr byte)

/-! ### All instructions -/

theorem run_of_segments (hh : s.halted = false) (hb : Bare is) (hw : ∀ i ∈ is, i.Writable)
    (hu : segments s.unread = is.map Instruction.segment) :
    s.run = run s.capacity s.pc is s.stack := by
  -- both sides go on in the state behind the first instruction, with the rest of the program
  induction is generalizing s with
  | nil =>
    rw [State.run_of_segments_nil hh hu]
    rfl
  | cons i is ih =>
    obtain ⟨hi, his⟩ := List.forall_mem_cons.1 hw
    rw [State.run_of_segments hh hu, run_cons hi hb.head]
    cases he : s.segmentEffect i.segment with
    | next pc stack =>
      exact ih (s := { s with pc := pc, stack := stack }) hh hb.tail his
        (State.segments_unread_next hu he)
    | halt => rfl
    | fail fault => rfl

/-- A part of the program that runs to its end takes one step for each instruction. -/
theorem steps_of_segments {pre post : List Instruction} (hh : s.halted = false)
    (hb : Bare (pre ++ post)) (hw : ∀ i ∈ pre ++ post, i.Writable)
    (hu : segments s.unread = (pre ++ post).map Instruction.segment) (hstop : op .stop ∉ pre)
    (hf : (run s.capacity s.pc pre s.stack).fault = none) :
    s.steps pre.length = { s with
      pc := (run s.capacity s.pc pre s.stack).pc
      stack := (run s.capacity s.pc pre s.stack).stack } := by
  induction pre generalizing s with
  | nil => rfl
  | cons i pre ih =>
    obtain ⟨hi, his⟩ := List.forall_mem_cons.1 hw
    rw [run_cons hi hb.head] at hf ⊢
    cases he : s.segmentEffect i.segment with
    | next pc stack =>
      rw [he] at hf
      have hstep : s.step.2 = { s with pc := pc, stack := stack } := by
        rw [State.step_of_segments hh hu, he]
        rfl
      rw [List.length_cons, State.steps, Function.iterate_succ_apply, hstep]
      exact ih (s := { s with pc := pc, stack := stack }) hh hb.tail his
        (State.segments_unread_next hu he) (fun h => hstop (List.mem_cons_of_mem i h)) hf
    | halt => exact absurd (eq_stop_of_halt he ▸ List.mem_cons_self) hstop
    | fail fault =>
      rw [he] at hf
      cases hf

/-- A fault comes from one instruction, at the place behind the instructions before it. -/
theorem exists_failing {fault : Fault} (hb : Bare is) (hw : ∀ i ∈ is, i.Writable)
    (hf : (run s.capacity s.pc is s.stack).fault = some fault) :
    ∃ pre i post, is = pre ++ i :: post ∧ op .stop ∉ pre ∧
      (run s.capacity s.pc pre s.stack).fault = none ∧
      (run s.capacity s.pc (pre ++ [i]) s.stack).fault = some fault ∧
      ((∃ byte, fault = .stackUnderflow (s.pc + (pre.map size).sum) byte) ∨
        fault = .stackOverflow (s.pc + (pre.map size).sum)) := by
  induction is generalizing s with
  | nil => cases hf
  | cons i is ih =>
    obtain ⟨hi, his⟩ := List.forall_mem_cons.1 hw
    have hcons := fun js => run_cons hi hb.head s js
    rw [hcons] at hf
    cases he : s.segmentEffect i.segment with
    | next pc stack =>
      rw [he] at hf
      simp only [he] at hcons
      obtain ⟨pre, j, post, rfl, hstop, hpre, hj, hplace⟩ :=
        ih (s := { s with pc := pc, stack := stack }) hb.tail his hf
      have hne : i ≠ op .stop := by
        rintro rfl
        cases he
      have hpc : pc + (pre.map size).sum = s.pc + ((i :: pre).map size).sum := by
        rw [State.pc_of_segmentEffect he, size_eq_length, List.map_cons, List.sum_cons, add_assoc]
      refine ⟨i :: pre, j, post, rfl, ?_, ?_, ?_, hpc ▸ hplace⟩
      · rw [List.mem_cons, not_or]
        exact ⟨hne.symm, hstop⟩
      · rw [hcons]
        exact hpre
      · rw [List.cons_append, hcons]
        exact hj
    | halt =>
      rw [he] at hf
      cases hf
    | fail f =>
      rw [he] at hf
      injection hf with hf
      subst hf
      refine ⟨[], i, is, rfl, List.not_mem_nil, rfl, ?_, ?_⟩
      · rw [List.nil_append, hcons, he]
        rfl
      · simpa using fault_of_fail hb.head he

/-! ### Code that was written for a program -/

/-- **Agreement.**  The code in `t` runs as the instructions `is` are carried out, one step for each
and under every policy; a fault is at the sum of the sizes of those before it. -/
theorem run_written {is : List Instruction} {memory : List UInt8} {t : CodeBuffer} (hb : Bare is)
    (ht : (CodeBuffer.ofMemory memory).emitAll is = (none, t)) (capacity : ℕ)
    (policy : UnknownPolicy) :
    State.run { code := t.written, capacity, policy } = run capacity 0 is [] ∧
    (∀ policy', State.run { code := t.written, capacity, policy := policy' } =
      State.run { code := t.written, capacity, policy }) ∧
    (∀ pre post, is = pre ++ post → op .stop ∉ pre → (run capacity 0 pre []).fault = none →
      State.steps pre.length { code := t.written, capacity, policy } =
        { code := t.written, capacity, policy, pc := (run capacity 0 pre []).pc,
          stack := (run capacity 0 pre []).stack }) ∧
    (∀ fault, (State.run { code := t.written, capacity, policy }).fault = some fault →
      ∃ pre i post, is = pre ++ i :: post ∧ op .stop ∉ pre ∧
        (run capacity 0 pre []).fault = none ∧
        (run capacity 0 (pre ++ [i]) []).fault = some fault ∧
        ((∃ byte, fault = .stackUnderflow (pre.map size).sum byte) ∨
          fault = .stackOverflow (pre.map size).sum)) ∧
    ∀ i ∈ is, ∃ bytes, i.encode = .ok bytes ∧ bytes.length = i.size := by
  obtain ⟨hw, hcode⟩ := written_of_emitAll ht
  have hu : segments t.written = is.map Instruction.segment := by
    rw [hcode, segments_flatMap_bytes hb hw]
  have hrun : ∀ policy, State.run { code := t.written, capacity, policy } = run capacity 0 is [] :=
    fun policy => run_of_segments (s := { code := t.written, capacity, policy }) rfl hb hw hu
  refine ⟨hrun policy, fun policy' => (hrun policy').trans (hrun policy).symm, ?_, ?_, ?_⟩
  · rintro pre post rfl hstop hf
    exact steps_of_segments (s := { code := t.written, capacity, policy }) rfl hb hw hu hstop hf
  · intro fault hf
    rw [hrun] at hf
    have h := exists_failing (s := { code := t.written, capacity, policy }) hb hw hf
    simpa only [zero_add] using h
  · exact fun i hi => ⟨_, encode_of_writable (hw i hi), size_eq_length i⟩

/-- The second addition finds one word only, behind the six bytes of what stands before it. -/
theorem run_written_underflow :
    Bare [.push 0, .sizedPush 3 7, .op .add, .op .add] ∧
    (CodeBuffer.ofMemory (List.replicate 8 9)).emitAll
        [.push 0, .sizedPush 3 7, .op .add, .op .add] =
      (none, ⟨[0x5f, 0x62, 0, 0, 7, 1, 1], [9]⟩) ∧
    State.run { code := [0x5f, 0x62, 0, 0, 7, 1, 1], capacity := 2, policy := .skip } =
      ⟨[7], some (.stackUnderflow 6 1), 7⟩ := by
  have hb : Bare [.push 0, .sizedPush 3 7, .op .add, .op .add] := by
    intro byte h
    simp at h
  have ht : (CodeBuffer.ofMemory (List.replicate 8 9)).emitAll
      [.push 0, .sizedPush 3 7, .op .add, .op .add] =
        (none, ⟨[0x5f, 0x62, 0, 0, 7, 1, 1], [9]⟩) := by
    decide +kernel
  exact ⟨hb, ht, (run_written hb ht 2 .skip).1.trans (by decide +kernel)⟩

end Stack256.Program
