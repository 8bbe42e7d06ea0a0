import Mathlib
import Stack256.Proofs.State.Sketch

/-!
# Stack256.Proofs.State.Verdict — which step reports what

What a step reports is settled by the byte at its place, by how much code there is behind that byte,
and by how many words are on the stack.  `Sketch.Verdict` lists the six reports, each with what must
be the case for it; a step gives a report exactly where this is the case (`Sketch.verdict_iff`).  A
step that goes on has moved behind its instruction and has put at most one word on the stack
(`Sketch.step_running`).
-/

namespace Stack256

/-- The byte is that of the push with `width` bytes of data. -/
def Push.OfWidth (width : ℕ) (byte : UInt8) : Prop :=
  1 ≤ width ∧ width ≤ 32 ∧ byte.toNat = 0x5f + width

instance (width : ℕ) (byte : UInt8) : Decidable (Push.OfWidth width byte) :=
  inferInstanceAs (Decidable (1 ≤ width ∧ width ≤ 32 ∧ byte.toNat = 0x5f + width))

theorem Push.ofWidth_iff {width : ℕ} {byte : UInt8} :
    OfWidth width byte ↔ width? byte = some width := by
  simp only [OfWidth, width?, Option.ite_none_right_eq_some, Option.some.injEq]
  omega

theorem Push.width?_eq_none_iff {byte : UInt8} :
    width? byte = none ↔ ∀ width, ¬ OfWidth width byte := by
  simp only [ofWidth_iff, Option.eq_none_iff_forall_ne_some]

namespace Opcode

theorem ofByte?_eq_none_iff {byte : UInt8} :
    ofByte? byte = none ↔ ∀ o : Opcode, o.byte ≠ byte := by
  rw [Option.eq_none_iff_forall_ne_some]
  refine forall_congr' fun o => not_congr ⟨byte_of_ofByte?, fun h => ?_⟩
  rw [← h, ofByte?_byte]

theorem results_le_one (o : Opcode) : o.results ≤ 1 := by
  cases o <;> decide

end Opcode

namespace Sketch

/-- The byte is that of a push, and less of its data is there than its width says. -/
def CutOff (s : Sketch) (byte : UInt8) (width available : ℕ) : Prop :=
  Push.OfWidth width byte ∧ available = s.code.length - s.pc - 1 ∧ available < width

/-- The byte is that of a push, with all of its data or without any, and the stack is full. -/
def Overflows (s : Sketch) (byte : UInt8) : Prop :=
  ((∃ width, Push.OfWidth width byte ∧ s.pc + 1 + width ≤ s.code.length) ∨
    byte = Opcode.push0.byte) ∧ s.depth = s.capacity

/-- The byte is that of no push and no opcode, and such bytes are refused. -/
def Refuses (s : Sketch) (byte : UInt8) : Prop :=
  (∀ width, ¬ Push.OfWidth width byte) ∧ (∀ o : Opcode, o.byte ≠ byte) ∧ s.policy = .reject

/-- The byte is that of an opcode that takes more words than there are. -/
def Underflows (s : Sketch) (byte : UInt8) : Prop :=
  ∃ o : Opcode, o.byte = byte ∧ s.depth < o.arity

/-- What an instruction with the given first byte reports. -/
inductive Verdict (s : Sketch) (byte : UInt8) : Signal → Prop
  | truncated {width available : ℕ} (h : s.CutOff byte width available) :
      Verdict s byte (.failed (.truncatedPush s.pc width available))
  | overflow (h : s.Overflows byte) : Verdict s byte (.failed (.stackOverflow s.pc))
  | unknown (h : s.Refuses byte) : Verdict s byte (.failed (.unknownByte s.pc byte))
  | underflow (h : s.Underflows byte) : Verdict s byte (.failed (.stackUnderflow s.pc byte))
  | halted (h : byte = Opcode.stop.byte) : Verdict s byte .halted
  | running (hcut : ∀ width available, ¬ s.CutOff byte width available)
      (hover : ¬ s.Overflows byte) (hrefuse : ¬ s.Refuses byte) (hunder : ¬ s.Underflows byte)
      (hstop : byte ≠ Opcode.stop.byte) : Verdict s byte .running

variable {s t : Sketch} {byte : UInt8} {signal : Signal}

theorem verdict_truncatedPush_iff {place width available : ℕ} :
    s.Verdict byte (.failed (.truncatedPush place width available)) ↔
      place = s.pc ∧ s.CutOff byte width available := by
  constructor
  · intro h
    cases h with
    | truncated h => exact ⟨rfl, h⟩
  · rintro ⟨rfl, h⟩
    exact .truncated h

theorem verdict_stackOverflow_iff {place : ℕ} :
    s.Verdict byte (.failed (.stackOverflow place)) ↔ place = s.pc ∧ s.Overflows byte := by
  constructor
  · intro h
    cases h with
    | overflow h => exact ⟨rfl, h⟩
  · rintro ⟨rfl, h⟩
    exact .overflow h

theorem verdict_unknownByte_iff {place : ℕ} {b : UInt8} :
    s.Verdict byte (.failed (.unknownByte place b)) ↔
      place = s.pc ∧ b = byte ∧ s.Refuses byte := by
  constructor
  · intro h
    cases h with
    | unknown h => exact ⟨rfl, rfl, h⟩
  · rintro ⟨rfl, rfl, h⟩
    exact .unknown h

theorem verdict_stackUnderflow_iff {place : ℕ} {b : UInt8} :
    s.Verdict byte (.failed (.stackUnderflow place b)) ↔
      place = s.pc ∧ b = byte ∧ s.Underflows byte := by
  constructor
  · intro h
    cases h with
    | underflow h => exact ⟨rfl, rfl, h⟩
  · rintro ⟨rfl, rfl, h⟩
    exact .underflow h

theorem verdict_halted_iff : s.Verdict byte .halted ↔ byte = Opcode.stop.byte := by
  constructor
  · intro h
    cases h with
    | halted h => exact h
  · exact .halted

theorem verdict_running_iff : s.Verdict byte .running ↔
    (∀ width available, ¬ s.CutOff byte width available) ∧ ¬ s.Overflows byte ∧
      ¬ s.Refuses byte ∧ ¬ s.Underflows byte ∧ byte ≠ Opcode.stop.byte := by
  constructor
  · intro h
    cases h with
    | running hcut hover hrefuse hunder hstop => exact ⟨hcut, hover, hrefuse, hunder, hstop⟩
  · rintro ⟨hcut, hover, hrefuse, hunder, hstop⟩
    exact .running hcut hover hrefuse hunder hstop

/-! ### One instruction, by the kind of its byte -/

theorem carryOut_push {width : ℕ} (hw : Push.OfWidth width byte) : s.carryOut byte =
    if s.code.length - (s.pc + 1) < width then
      s.stop (.failed (.truncatedPush s.pc width (s.code.length - (s.pc + 1))))
    else s.move (1 + width) 0 1 := by
  simp only [carryOut, Push.ofWidth_iff.1 hw]

theorem carryOut_opcode (o : Opcode) : s.carryOut o.byte =
    if s.depth < o.arity then s.stop (.failed (.stackUnderflow s.pc o.byte))
    else if o = .stop then s.stop .halted else s.move 1 o.arity o.results := by
  simp only [carryOut, Push.width?_opcode, Opcode.ofByte?_byte]

theorem carryOut_unknown (hw : ∀ width, ¬ Push.OfWidth width byte)
    (ho : ∀ o : Opcode, o.byte ≠ byte) : s.carryOut byte = match s.policy with
      | .reject => s.stop (.failed (.unknownByte s.pc byte))
      | .skip => (.running, { s with pc := s.pc + 1 }) := by
  have hw' := Push.width?_eq_none_iff.2 hw
  have ho' := Opcode.ofByte?_eq_none_iff.2 ho
  cases hp : s.policy with
  | reject => simp only [carryOut, hw', ho', hp]
  | skip => simp only [carryOut, hw', ho', hp]

theorem byte_cases (byte : UInt8) : (∃ width, Push.OfWidth width byte) ∨
    (∃ o : Opcode, o.byte = byte) ∨
    (∀ width, ¬ Push.OfWidth width byte) ∧ ∀ o : Opcode, o.byte ≠ byte := by
  by_cases hw : ∃ width, Push.OfWidth width byte
  · exact .inl hw
  · by_cases ho : ∃ o : Opcode, o.byte = byte
    · exact .inr (.inl ho)
    · exact .inr (.inr ⟨not_exists.1 hw, not_exists.1 ho⟩)

/-! ### Reports -/

theorem fst_move (s : Sketch) (length taken put : ℕ) : (s.move length taken put).1 =
    if s.capacity < s.depth - taken + put then .failed (.stackOverflow s.pc) else .running := by
  unfold move
  split_ifs <;> rfl

/-- Where no report of an end applies, the run goes on. -/
theorem fst_carryOut_of_none (hd : s.depth ≤ s.capacity) (hpc : s.pc < s.code.length)
    (hcut : ∀ width available, ¬ s.CutOff byte width available) (hover : ¬ s.Overflows byte)
    (hrefuse : ¬ s.Refuses byte) (hunder : ¬ s.Underflows byte)
    (hstop : byte ≠ Opcode.stop.byte) : (s.carryOut byte).1 = .running := by
  obtain ⟨width, hw⟩ | ⟨o, rfl⟩ | ⟨hw, ho⟩ := byte_cases byte
  · have hdata : ¬ s.code.length - (s.pc + 1) < width := fun hlt =>
      hcut width _ ⟨hw, rfl, by omega⟩
    have hroom : ¬ s.capacity < s.depth - 0 + 1 := fun hlt =>
      hover ⟨.inl ⟨width, hw, by omega⟩, by omega⟩
    rw [carryOut_push hw, if_neg hdata, fst_move, if_neg hroom]
  · have harity : ¬ s.depth < o.arity := fun hlt => hunder ⟨o, rfl, hlt⟩
    have hne : o ≠ .stop := fun h => hstop (congrArg Opcode.byte h)
    have hroom : ¬ s.capacity < s.depth - o.arity + o.results := by
      intro hlt
      by_cases hpush : o = .push0
      · subst hpush
        have hfull : s.capacity < s.depth - 0 + 1 := hlt
        exact hover ⟨.inr rfl, by omega⟩
      · have hle := Opcode.results_le_arity hpush
        omega
    rw [carryOut_opcode, if_neg harity, if_neg hne, fst_move, if_neg hroom]
  · have hskip : s.policy ≠ .reject := fun h => hrefuse ⟨hw, ho, h⟩
    rw [carryOut_unknown hw ho]
    cases hp : s.policy with
    | reject => exact absurd hp hskip
    | skip => rfl

/-- An instruction reports what its verdict says. -/
theorem Verdict.fst_carryOut (h : s.Verdict byte signal) (hd : s.depth ≤ s.capacity)
    (hpc : s.pc < s.code.length) : (s.carryOut byte).1 = signal := by
  cases h with
  | truncated h =>
    obtain ⟨hw, rfl, hlt⟩ := h
    rw [Nat.sub_sub] at hlt ⊢
    rw [carryOut_push hw, if_pos hlt]
    rfl
  | overflow h =>
    obtain ⟨⟨width, hw, hle⟩ | rfl, hfull⟩ := h
    · rw [carryOut_push hw, if_neg (by omega), fst_move, if_pos (by omega)]
    · have harity : ¬ s.depth < Opcode.push0.arity := Nat.not_lt_zero s.depth
      have hroom : s.capacity < s.depth - Opcode.push0.arity + Opcode.push0.results := by
        show s.capacity < s.depth - 0 + 1
        omega
      rw [carryOut_opcode, if_neg harity, if_neg Opcode.noConfusion, fst_move, if_pos hroom]
  | unknown h =>
    obtain ⟨hw, ho, hp⟩ := h
    rw [carryOut_unknown hw ho, hp]
    rfl
  | underflow h =>
    obtain ⟨o, rfl, hlt⟩ := h
    rw [carryOut_opcode, if_pos hlt]
    rfl
  | halted h =>
    have harity : ¬ s.depth < Opcode.stop.arity := Nat.not_lt_zero s.depth
    rw [h, carryOut_opcode, if_neg harity, if_pos rfl]
    rfl
  | running hcut hover hrefuse hunder hstop =>
    exact fst_carryOut_of_none hd hpc hcut hover hrefuse hunder hstop

/-- Some verdict applies to every byte. -/
theorem exists_verdict (s : Sketch) (byte : UInt8) : ∃ signal, s.Verdict byte signal := by
  by_cases hcut : ∃ width available, s.CutOff byte width available
  · obtain ⟨width, available, h⟩ := hcut
    exact ⟨_, .truncated h⟩
  by_cases hover : s.Overflows byte
  · exact ⟨_, .overflow hover⟩
  by_cases hrefuse : s.Refuses byte
  · exact ⟨_, .unknown hrefuse⟩
  by_cases hunder : s.Underflows byte
  · exact ⟨_, .underflow hunder⟩
  by_cases hstop : byte = Opcode.stop.byte
  · exact ⟨_, .halted hstop⟩
  simp only [not_exists] at hcut
  exact ⟨_, .running hcut hover hrefuse hunder hstop⟩

/-- Within the capacity, an instruction reports what its verdict says, and nothing else. -/
theorem verdict_iff (hd : s.depth ≤ s.capacity) (hpc : s.pc < s.code.length) :
    (s.carryOut byte).1 = signal ↔ s.Verdict byte signal := by
  refine ⟨fun h => ?_, fun h => h.fst_carryOut hd hpc⟩
  obtain ⟨signal', h'⟩ := s.exists_verdict byte
  rwa [← h, h'.fst_carryOut hd hpc]

/-! ### Steps that go on -/

theorem move_running {length taken put : ℕ} (h : s.move length taken put = (.running, t)) :
    t = { s with pc := s.pc + length, depth := s.depth - taken + put } := by
  unfold move at h
  split_ifs at h
  · cases h
  · exact (congrArg Prod.snd h).symm

/-- An instruction that lets the run go on moves it behind its byte and its data, and puts at most
one word on the stack. -/
theorem carryOut_running (h : s.carryOut byte = (.running, t)) :
    t.pc = s.pc + 1 + (Push.width? byte).getD 0 ∧ t.depth ≤ s.depth + 1 := by
  obtain ⟨width, hw⟩ | ⟨o, rfl⟩ | ⟨hw, ho⟩ := byte_cases byte
  · rw [carryOut_push hw] at h
    split_ifs at h
    · cases h
    · rw [move_running h, Push.ofWidth_iff.1 hw, Option.getD_some]
      exact ⟨(add_assoc _ _ _).symm, le_rfl⟩
  · rw [carryOut_opcode] at h
    split_ifs at h
    · cases h
    · cases h
    · rw [move_running h, Push.width?_opcode]
      have hle := o.results_le_one
      exact ⟨rfl, by show s.depth - o.arity + o.results ≤ s.depth + 1; omega⟩
  · rw [carryOut_unknown hw ho] at h
    rw [Push.width?_eq_none_iff.2 hw]
    cases hp : s.policy with
    | reject =>
      rw [hp] at h
      cases h
    | skip =>
      rw [hp] at h
      obtain rfl : _ = t := congrArg Prod.snd h
      exact ⟨rfl, Nat.le_succ _⟩

/-- A step that goes on has found a byte of an instruction. -/
theorem step_running (h : s.step = (.running, t)) : ∃ byte, s.code[s.pc]? = some byte ∧
    t.pc = s.pc + 1 + (Push.width? byte).getD 0 ∧ t.depth ≤ s.depth + 1 := by
  unfold step at h
  split_ifs at h
  · cases h
  · cases hbyte : s.code[s.pc]? with
    | none =>
      rw [hbyte] at h
      cases h
    | some byte =>
      rw [hbyte] at h
      exact ⟨byte, rfl, carryOut_running h⟩

end Sketch

end Stack256
