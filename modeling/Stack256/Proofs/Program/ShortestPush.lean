import Mathlib
import Stack256.Proofs.CodeBuffer.Extension
import Stack256.Proofs.Program.Agreement
import Stack256.Proofs.State.Verdict

/-!
# Stack256.Proofs.Program.ShortestPush — all pushes of a value do the same, and one is the shortest

Whatever its width, a push that is written puts its value on the stack in one step
(`step_of_pushes`).  Nothing but a push makes a stack longer, so that a step that puts a value there
has read either `push0` or data that hold the value (`pushing_cases`), and in both cases no fewer
bytes than the push of the least width has.  Main statement: `push_shortest`.
-/

namespace Stack256

/-! ### Pushes of a value -/

namespace Instruction

/-- The instruction pushes the value, at the least width or at a given one. -/
inductive Pushes (value : Word) : Instruction → Prop
  | push : Pushes value (.push value)
  | sizedPush (width : ℕ) : Pushes value (.sizedPush width value)

variable {i : Instruction} {v : Word} {b t : CodeBuffer}

theorem Pushes.ne_raw (h : Pushes v i) : ∀ byte, i ≠ raw byte := by
  cases h <;> exact fun _ => Instruction.noConfusion

theorem Pushes.segmentEffect (h : Pushes v i) (hw : i.Writable) (s : State) :
    s.segmentEffect i.segment = s.settle (s.pc + i.size) (v :: s.stack) := by
  cases h with
  | push => exact Program.segmentEffect_push v s
  | sizedPush width => exact Program.segmentEffect_sizedPush hw s

/-- One step on the bytes of a push puts the value on the stack, if there is room for it. -/
theorem step_of_pushes (h : Pushes v i) (hw : i.Writable) {s : State} (hh : s.halted = false)
    (hroom : s.stack.length < s.capacity) (hcode : i.segment.bytes <+: s.unread) :
    s.step = (.running, { s with pc := s.pc + i.size, stack := v :: s.stack }) := by
  obtain ⟨rest, hrest⟩ := hcode
  have hu : Layout.segments s.unread = i.segment :: Layout.segments rest := by
    rw [← hrest, Layout.segments_bytes_append (valid_segment hw h.ne_raw) (segment_ne_truncated i)]
  have hfits : (v :: s.stack).length ≤ s.capacity := hroom
  rw [State.step_of_segments hh hu, h.segmentEffect hw, State.settle_of_le hfits]
  rfl

/-! ### Where pushes are written -/

/-- An instruction is accepted if it has bytes and there is room for them. -/
theorem exists_emit_iff : (∃ t, b.emit i = .ok t) ↔ i.Writable ∧ i.size ≤ b.spare.length := by
  simp only [CodeBuffer.emit_eq_ok_iff, CodeBuffer.append?_eq_some_iff, size_eq_length]
  exact ⟨fun ⟨_, hw, hroom, _⟩ => ⟨hw, hroom⟩, fun ⟨hw, hroom⟩ => ⟨_, hw, hroom, rfl⟩⟩

theorem writable_sizedPush_iff {width : ℕ} :
    (sizedPush width v).Writable ↔ (1 ≤ width ∧ width ≤ 32) ∧ v.toNat < 256 ^ width := by
  rw [Writable, Word.byteCount_le_iff]

theorem size_push (v : Word) : (push v).size = if v = 0 then 1 else 1 + v.byteCount := by
  split_ifs with h
  · subst h
    rfl
  · rfl

theorem emit_push_ne_width (b : CodeBuffer) (v : Word) (cause : WidthError) :
    b.emit (push v) ≠ .error (.width cause) := by
  intro h
  rw [CodeBuffer.emit, encode_of_writable (i := push v) trivial] at h
  dsimp only at h
  split at h <;> cases h

end Instruction

/-! ### What pushes a value -/

namespace State

open Instruction

variable {s : State} {v : Word}

theorem eq_push0_of_results {o : Opcode} (h : 1 + o.arity = o.results) : o = .push0 := by
  revert h
  cases o <;> decide

/-- A segment that puts a value on the stack is a push of the value. -/
theorem pushing_cases {g : Segment} {pc : ℕ} (h : s.segmentEffect g = .next pc (v :: s.stack)) :
    (g = .op .push0 ∧ v = 0) ∨ ∃ data, g = .push data ∧ v = Word.ofBytes data := by
  cases g with
  | op o =>
    have hstop : o ≠ .stop := by
      rintro rfl
      cases h
    rw [segmentEffect, opcodeEffect_of_ne_stop hstop] at h
    cases ht : o.action.stackAfter? s.stack with
    | none =>
      rw [ht] at h
      cases h
    | some stack =>
      rw [ht] at h
      obtain ⟨-, rfl⟩ := settle_eq_next h
      -- the stack has grown by one word, so that the opcode took none off
      have hlength := Opcode.length_of_stackAfter? ht
      rw [List.length_cons] at hlength
      have ho : o = .push0 := eq_push0_of_results (by omega)
      subst ho
      exact .inl ⟨rfl, (List.cons.inj (Option.some.inj ht)).1.symm⟩
  | push data =>
    obtain ⟨-, hstack⟩ := settle_eq_next h
    exact .inr ⟨data, rfl, (List.cons.inj hstack).1⟩
  | unknown byte =>
    rw [segmentEffect, unknownEffect] at h
    split at h
    · cases h
    · exact absurd (Effect.next.inj h).2 (List.cons_ne_self v s.stack).symm
  | truncated width data => cases h

/-- A segment that puts a value on the stack has as many bytes as the shortest push of the value, or
more. -/
theorem size_push_le_of_segmentEffect {g : Segment} {pc : ℕ} (hg : g.Valid)
    (h : s.segmentEffect g = .next pc (v :: s.stack)) : (push v).size ≤ g.bytes.length := by
  obtain ⟨rfl, rfl⟩ | ⟨data, rfl, rfl⟩ := pushing_cases h
  · exact le_rfl
  · have hdata := Word.byteCount_ofBytes_le (l := data) hg.2
    rw [size, Segment.bytes, List.length_cons]
    omega

theorem size_push_le_of_step (hs : s.step.1 = .running) (hstack : s.step.2.stack = v :: s.stack) :
    s.pc + (push v).size ≤ s.step.2.pc := by
  obtain ⟨hstep, -⟩ | ⟨g, gs, -, hu, hstep⟩ := step_cases s
  · rw [hstep] at hs
    cases hs
  · have hvalid : g.Valid := Layout.valid_of_mem_segments (hu ▸ List.mem_cons_self)
    have hfollow : s.follow (s.segmentEffect g) = (.running, s.step.2) := by
      rw [← hstep, ← hs]
    obtain ⟨pc, stack, he, ht⟩ := follow_running hfollow
    rw [ht] at hstack ⊢
    obtain rfl : stack = v :: s.stack := hstack
    have hle := size_push_le_of_segmentEffect hvalid he
    have hpc : pc = s.pc + g.bytes.length := pc_of_segmentEffect he
    show s.pc + (push v).size ≤ pc
    omega

end State

namespace Instruction

/-- **The shortest push.**  A push of `v` is accepted if its data hold `v` and there is room; it
puts `v` on the stack of `s` in one step, and no step of any `s` that does so reads fewer bytes than
`push v`. -/
theorem push_shortest (v : Word) :
    (∀ (b : CodeBuffer) (width : ℕ), (∃ t, b.emit (.sizedPush width v) = .ok t) ↔
      ((1 ≤ width ∧ width ≤ 32) ∧ v.toNat < 256 ^ width) ∧ 1 + width ≤ b.spare.length) ∧
    (∀ b : CodeBuffer, ((∃ t, b.emit (.push v) = .ok t) ↔ (push v).size ≤ b.spare.length) ∧
      ∀ cause, b.emit (.push v) ≠ .error (.width cause)) ∧
    (∀ (b t : CodeBuffer) (i : Instruction), Pushes v i → b.emit i = .ok t →
      ∃ code, t.written = b.written ++ code ∧ code.length = i.size ∧
        ∀ s : State, s.halted = false → s.stack.length < s.capacity → code <+: s.unread →
          s.step = (.running, { s with pc := s.pc + code.length, stack := v :: s.stack })) ∧
    (push v).size = (if v = 0 then 1 else 1 + v.byteCount) ∧
    ∀ s : State, s.step.1 = .running → s.step.2.stack = v :: s.stack →
      s.pc + (push v).size ≤ s.step.2.pc := by
  refine ⟨fun b width => ?_, fun b => ⟨?_, emit_push_ne_width b v⟩, fun b t i hi ht => ?_,
    size_push v, fun s hs hstack => State.size_push_le_of_step hs hstack⟩
  · rw [exists_emit_iff, writable_sizedPush_iff]
    rfl
  · rw [exists_emit_iff]
    exact and_iff_right trivial
  · obtain ⟨hw, happend⟩ := CodeBuffer.emit_eq_ok_iff.1 ht
    obtain ⟨-, rfl⟩ := CodeBuffer.append?_eq_some_iff.1 happend
    refine ⟨i.segment.bytes, rfl, size_eq_length i, fun s hh hroom hcode => ?_⟩
    rw [step_of_pushes hi hw hh hroom hcode, size_eq_length]

/-- `256` needs two bytes of data.  One is refused; three, the first of them zero, push the same
value, and fill the stack by it. -/
theorem push_shortest_leading_zero :
    let b : CodeBuffer := .ofMemory [9, 9, 9, 9]
    let t : CodeBuffer := ⟨[0x62, 0, 1, 0], []⟩
    let s : State := { code := [0x62, 0, 1, 0], capacity := 1 }
    (Pushes 256 (.sizedPush 3 256) ∧ b.emit (.sizedPush 3 256) = .ok t ∧
      ¬ ∃ t, b.emit (.sizedPush 1 256) = .ok t) ∧
    (s.halted = false ∧ s.stack.length < s.capacity ∧ t.written <+: s.unread ∧
      s.step = (.running, { s with pc := 4, stack := [256] })) ∧
    (s.step.1 = .running ∧ s.step.2.stack = 256 :: s.stack ∧ (push 256).size = 3 ∧
      s.pc + (push 256).size ≤ s.step.2.pc) := by
  intro b t s
  obtain ⟨haccepted, -, hpush, -, hshort⟩ := push_shortest 256
  have hi : Pushes 256 (.sizedPush 3 256) := .sizedPush 3
  have hemit : b.emit (.sizedPush 3 256) = .ok t := by rfl
  have hnarrow : ¬ ((1 ≤ 1 ∧ 1 ≤ 32) ∧ (256 : Word).toNat < 256 ^ 1) := by decide
  obtain ⟨code, hwritten, -, hstep⟩ := hpush b t _ hi hemit
  obtain rfl : [0x62, 0, 1, 0] = code := hwritten
  have hs := hstep s rfl (by decide) List.prefix_rfl
  have hrunning : s.step.1 = .running := by rw [hs]
  have hstack : s.step.2.stack = 256 :: s.stack := by rw [hs]
  exact ⟨⟨hi, hemit, fun h => hnarrow ((haccepted b 1).1 h).1⟩,
    ⟨rfl, by decide, List.prefix_rfl, hs⟩,
    ⟨hrunning, hstack, by decide +kernel, hshort s hrunning hstack⟩⟩

end Instruction

end Stack256
