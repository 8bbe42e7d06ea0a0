import Mathlib
import Stack256.CodeBuffer
import Stack256.Layout.Basic
import Stack256.Program
import Stack256.Proofs.Word.Bytes

/-!
# Stack256.Proofs.CodeBuffer.Writing — what is written, and when

An instruction that is `Writable` is written as the bytes of one segment (`encode_eq_ok_iff`).  A
list of instructions is accepted whole when each of them is writable and their bytes fit into the
spare part of the memory, and then it has put these bytes there and nothing else
(`emitAll_eq_none_iff`).
-/

namespace Stack256

namespace Instruction

/-- The segment as which the instruction is written; a raw byte is written alone. -/
def segment : Instruction → Segment
  | op o => .op o
  | push value => if value = 0 then .op .push0 else .push (value.bytes value.byteCount)
  | sizedPush width value => .push (value.bytes width)
  | raw byte => .unknown byte

/-- The instruction has bytes: it is no push of a width that is out of range or too small. -/
def Writable : Instruction → Prop
  | sizedPush width value => (1 ≤ width ∧ width ≤ 32) ∧ value.byteCount ≤ width
  | _ => True

theorem encodePush_eq_ok_iff {width : ℕ} {value : Word} {bytes : List UInt8} :
    encodePush width value = .ok bytes ↔
      ((1 ≤ width ∧ width ≤ 32) ∧ value.byteCount ≤ width) ∧
        bytes = Push.byte width :: value.bytes width := by
  unfold encodePush Push.byte?
  by_cases hw : 1 ≤ width ∧ width ≤ 32
  · by_cases hv : value.byteCount ≤ width <;> simp [hw, hv, eq_comm]
  · simp [hw]

theorem encode_eq_ok_iff {i : Instruction} {bytes : List UInt8} :
    i.encode = .ok bytes ↔ i.Writable ∧ bytes = i.segment.bytes := by
  cases i with
  | op o => simp [encode, Writable, segment, Segment.bytes, eq_comm]
  | raw byte => simp [encode, Writable, segment, Segment.bytes, eq_comm]
  | sizedPush width value =>
    rw [encode, encodePush_eq_ok_iff, Writable, segment, Segment.bytes, Word.length_bytes]
  | push value =>
    by_cases h : value = 0
    · simp [encode, Writable, segment, Segment.bytes, h, eq_comm]
    · have hw := And.intro (Word.byteCount_pos h) (Word.byteCount_le value)
      rw [encode, if_neg h, encodePush_eq_ok_iff, segment, if_neg h, Segment.bytes,
        Word.length_bytes]
      simp [Writable, hw]

theorem encode_of_writable {i : Instruction} (h : i.Writable) : i.encode = .ok i.segment.bytes :=
  encode_eq_ok_iff.2 ⟨h, rfl⟩

theorem size_eq_length (i : Instruction) : i.segment.bytes.length = i.size := by
  cases i with
  | op o => rfl
  | raw byte => rfl
  | sizedPush width value =>
    rw [segment, Segment.bytes, List.length_cons, Word.length_bytes, size, add_comm]
  | push value =>
    by_cases h : value = 0
    · subst h
      rfl
    · rw [segment, if_neg h, Segment.bytes, List.length_cons, Word.length_bytes, size, add_comm]

theorem length_encode_le {i : Instruction} {bytes : List UInt8} (h : i.encode = .ok bytes) :
    bytes.length ≤ 33 := by
  obtain ⟨hw, rfl⟩ := encode_eq_ok_iff.1 h
  rw [size_eq_length]
  cases i with
  | op o => exact Nat.le_add_left 1 32
  | raw byte => exact Nat.le_add_left 1 32
  | push value => exact Nat.add_le_add_left (Word.byteCount_le value) 1
  | sizedPush width value => exact Nat.add_le_add_left hw.1.2 1

end Instruction

namespace CodeBuffer

variable {b t : CodeBuffer} {is : List Instruction}

theorem append?_eq_some_iff {bytes : List UInt8} :
    b.append? bytes = some t ↔ bytes.length ≤ b.spare.length ∧
      t = ⟨b.written ++ bytes, b.spare.drop bytes.length⟩ := by
  unfold append?
  by_cases h : bytes.length ≤ b.spare.length <;> simp [h, eq_comm]

/-- Bytes are written together where they are written one part after the other. -/
theorem append?_append (b : CodeBuffer) (l m : List UInt8) :
    b.append? (l ++ m) = (b.append? l).bind (·.append? m) := by
  by_cases hl : l.length ≤ b.spare.length
  · by_cases hm : m.length ≤ b.spare.length - l.length
    · have hlm : l.length + m.length ≤ b.spare.length := by omega
      simp [append?, hl, hm, hlm, List.drop_drop]
    · have hlm : ¬ l.length + m.length ≤ b.spare.length := by omega
      simp [append?, hl, hm, hlm]
  · have hlm : ¬ l.length + m.length ≤ b.spare.length := by omega
    simp [append?, hl, hlm]

theorem emit_eq_ok_iff {i : Instruction} :
    b.emit i = .ok t ↔ i.Writable ∧ b.append? i.segment.bytes = some t := by
  unfold emit
  cases h : i.encode with
  | error cause =>
    have hw : ¬ i.Writable := fun hw => by
      rw [Instruction.encode_of_writable hw] at h
      cases h
    simp [hw]
  | ok bytes =>
    obtain ⟨hw, rfl⟩ := Instruction.encode_eq_ok_iff.1 h
    cases ha : b.append? i.segment.bytes <;> simp [hw, ha]

theorem emitAll_append (b : CodeBuffer) (is js : List Instruction) :
    b.emitAll (is ++ js) = match b.emitAll is with
      | (some e, t) => (some e, t)
      | (none, t) => t.emitAll js := by
  induction is generalizing b with
  | nil => rfl
  | cons i is ih =>
    rw [List.cons_append, emitAll, emitAll]
    cases b.emit i with
    | error e => rfl
    | ok t => exact ih t

/-- Instructions that are not all written have a first that is not. -/
theorem exists_of_emitAll_eq_some {e : EmitError} (h : b.emitAll is = (some e, t)) :
    ∃ pre i post, is = pre ++ i :: post ∧ b.emitAll pre = (none, t) ∧ t.emit i = .error e := by
  induction is generalizing b with
  | nil => cases h
  | cons i is ih =>
    rw [emitAll] at h
    cases hi : b.emit i with
    | error e' =>
      rw [hi] at h
      cases h
      exact ⟨[], i, is, rfl, rfl, hi⟩
    | ok u =>
      rw [hi] at h
      obtain ⟨pre, j, post, rfl, hpre, hfail⟩ := ih h
      refine ⟨i :: pre, j, post, rfl, ?_, hfail⟩
      rw [emitAll, hi]
      exact hpre

theorem emitAll_singleton_eq_some_iff {i : Instruction} {e : EmitError} :
    b.emitAll [i] = (some e, t) ↔ b.emit i = .error e ∧ b = t := by
  cases h : b.emit i <;> simp [emitAll, h]

theorem emitAll_eq_none_iff : b.emitAll is = (none, t) ↔
    (∀ i ∈ is, i.Writable) ∧ b.append? (is.flatMap fun i => i.segment.bytes) = some t := by
  induction is generalizing b with
  | nil => simp [emitAll, append?]
  | cons i is ih =>
    rw [emitAll, List.flatMap_cons, append?_append, List.forall_mem_cons]
    cases h : b.emit i with
    | ok u =>
      obtain ⟨hw, ha⟩ := emit_eq_ok_iff.1 h
      simp only [hw, true_and, ha, Option.bind_some]
      exact ih
    | error e =>
      simp only [Prod.mk.injEq, reduceCtorEq, false_and, false_iff, Option.bind_eq_some_iff]
      rintro ⟨⟨hw, -⟩, u, ha, -⟩
      rw [emit_eq_ok_iff.2 ⟨hw, ha⟩] at h
      cases h

end CodeBuffer

end Stack256
