import Mathlib
import Stack256.Proofs.CodeBuffer.Writing

/-!
# Stack256.Proofs.CodeBuffer.Extension — a buffer grows over its memory

An instruction is refused for its width, for its value or for want of room, in this order.  What is
written goes behind what is there and over the first spare bytes (`extend`), and what is written
depends on the room alone, that is, on the number of spare bytes (`emit_eq_map`).  A buffer that has
grown over a memory still has the rest of it unchanged (`Over`).
-/

namespace Stack256

/-! ### Refused instructions -/

namespace Instruction

variable {i : Instruction} {cause : WidthError}

theorem writable_iff : i.Writable ↔ ∀ width value, i = sizedPush width value →
    (1 ≤ width ∧ width ≤ 32) ∧ value.toNat < 256 ^ width := by
  cases i with
  | sizedPush width value => simp [Writable, Word.byteCount_le_iff]
  | _ => simp [Writable]

theorem encodePush_eq_error_iff {width : ℕ} {value : Word} :
    encodePush width value = .error cause ↔
      (¬ (1 ≤ width ∧ width ≤ 32) ∧ cause = .outOfRange width) ∨
      ((1 ≤ width ∧ width ≤ 32) ∧ 256 ^ width ≤ value.toNat ∧ cause = .tooNarrow width) := by
  have hv := Word.byteCount_le_iff value width
  unfold encodePush Push.byte?
  by_cases hw : 1 ≤ width ∧ width ≤ 32
  · by_cases hle : value.byteCount ≤ width
    · simp [hw, hle, hv.1 hle]
    · have hge : 256 ^ width ≤ value.toNat := not_lt.1 (mt hv.2 hle)
      simp [hw, hle, hge, eq_comm]
  · simp [hw, eq_comm]

/-- Only a push of a given width can have no bytes. -/
theorem encode_eq_error_iff : i.encode = .error cause ↔
    ∃ width value, i = sizedPush width value ∧ encodePush width value = .error cause := by
  cases i with
  | sizedPush width value => simp [encode]
  | push value => simp [encode_of_writable (i := push value) trivial]
  | op o => simp [encode]
  | raw byte => simp [encode]

theorem encode_eq_outOfRange_iff {width : ℕ} : i.encode = .error (.outOfRange width) ↔
    ∃ value, i = sizedPush width value ∧ ¬ (1 ≤ width ∧ width ≤ 32) := by
  rw [encode_eq_error_iff]
  constructor
  · rintro ⟨width', value, rfl, h⟩
    obtain ⟨hw, ⟨⟩⟩ | ⟨-, -, ⟨⟩⟩ := encodePush_eq_error_iff.1 h
    exact ⟨value, rfl, hw⟩
  · rintro ⟨value, rfl, hw⟩
    exact ⟨width, value, rfl, encodePush_eq_error_iff.2 (.inl ⟨hw, rfl⟩)⟩

theorem encode_eq_tooNarrow_iff {width : ℕ} : i.encode = .error (.tooNarrow width) ↔
    ∃ value, i = sizedPush width value ∧ (1 ≤ width ∧ width ≤ 32) ∧
      256 ^ width ≤ value.toNat := by
  rw [encode_eq_error_iff]
  constructor
  · rintro ⟨width', value, rfl, h⟩
    obtain ⟨-, ⟨⟩⟩ | ⟨hw, hv, ⟨⟩⟩ := encodePush_eq_error_iff.1 h
    exact ⟨value, rfl, hw, hv⟩
  · rintro ⟨value, rfl, hw, hv⟩
    exact ⟨width, value, rfl, encodePush_eq_error_iff.2 (.inr ⟨hw, hv, rfl⟩)⟩

/-- An instruction that has bytes has as many as its size says. -/
theorem exists_encode_and_length_iff {P : ℕ → Prop} :
    (∃ code, i.encode = .ok code ∧ P code.length) ↔ i.Writable ∧ P i.size := by
  simp only [encode_eq_ok_iff]
  constructor
  · rintro ⟨code, ⟨hw, rfl⟩, h⟩
    rw [size_eq_length] at h
    exact ⟨hw, h⟩
  · rintro ⟨hw, h⟩
    rw [← size_eq_length] at h
    exact ⟨_, ⟨hw, rfl⟩, h⟩

/-! ### The output of an instruction -/

/-- What an instruction writes where there is room for `room` bytes. -/
def output (room : ℕ) (i : Instruction) : Except EmitError (List UInt8) :=
  match i.encode with
  | .error cause => .error (.width cause)
  | .ok code => if code.length ≤ room then .ok code else .error .full

theorem output_eq_ok_iff {room : ℕ} {code : List UInt8} :
    i.output room = .ok code ↔ i.encode = .ok code ∧ code.length ≤ room := by
  unfold output
  cases i.encode with
  | error cause => simp
  | ok bytes =>
    by_cases h : bytes.length ≤ room
    · simp only [h, if_true, Except.ok.injEq, iff_self_and]
      rintro rfl
      exact h
    · simp only [h, if_false, reduceCtorEq, Except.ok.injEq, false_iff, not_and]
      rintro rfl
      exact h

theorem output_eq_full_iff {room : ℕ} :
    i.output room = .error .full ↔ ∃ code, i.encode = .ok code ∧ room < code.length := by
  unfold output
  cases i.encode with
  | error cause => simp
  | ok bytes =>
    by_cases h : bytes.length ≤ room
    · simp [h]
    · simp [h, Nat.lt_of_not_le h]

theorem output_eq_width_iff {room : ℕ} :
    i.output room = .error (.width cause) ↔ i.encode = .error cause := by
  unfold output
  cases i.encode with
  | error cause' => simp
  | ok bytes => by_cases h : bytes.length ≤ room <;> simp [h]

end Instruction

namespace CodeBuffer

/-- The buffer with more bytes written, over the first of its spare ones. -/
def extend (b : CodeBuffer) (bytes : List UInt8) : CodeBuffer :=
  ⟨b.written ++ bytes, b.spare.drop bytes.length⟩

variable {b : CodeBuffer} {l : List UInt8}

@[simp] theorem length_spare_extend (b : CodeBuffer) (l : List UInt8) :
    (b.extend l).spare.length = b.spare.length - l.length := List.length_drop

@[simp] theorem extend_nil (b : CodeBuffer) : b.extend [] = b := by
  rw [extend, List.append_nil, List.length_nil, List.drop_zero]

theorem extend_append (b : CodeBuffer) (l m : List UInt8) :
    b.extend (l ++ m) = (b.extend l).extend m := by
  simp only [extend, List.append_assoc, List.length_append, List.drop_drop]

/-- An instruction is written, or refused, on account of the room alone. -/
theorem emit_eq_map (b : CodeBuffer) (i : Instruction) :
    b.emit i = (i.output b.spare.length).map b.extend := by
  unfold emit Instruction.output append?
  cases i.encode with
  | error cause => rfl
  | ok code =>
    by_cases h : code.length ≤ b.spare.length
    · simp only [h, if_true]
      rfl
    · simp only [h, if_false]
      rfl

/-! ### Buffers over a memory -/

/-- The buffer has been written over the memory: what is behind the bytes written is still there. -/
structure Over (m : List UInt8) (b : CodeBuffer) : Prop where
  length_le : b.length ≤ m.length
  spare_eq : b.spare = m.drop b.length

variable {m : List UInt8}

theorem over_ofMemory (m : List UInt8) : Over m (ofMemory m) :=
  ⟨Nat.zero_le _, rfl⟩

theorem Over.length_spare (h : Over m b) : b.spare.length = m.length - b.length := by
  rw [h.spare_eq, List.length_drop]

theorem Over.extend (h : Over m b) (hl : l.length ≤ b.spare.length) :
    Over m (b.extend l) := by
  have hlen : (b.extend l).length = b.length + l.length := List.length_append
  refine ⟨?_, ?_⟩
  · have := h.length_le
    have := h.length_spare
    omega
  · rw [hlen, ← List.drop_drop, ← h.spare_eq]
    rfl

theorem Over.memory_eq (h : Over m b) : b.memory = b.written ++ m.drop b.length := by
  rw [memory, h.spare_eq]

end CodeBuffer

end Stack256
