import Mathlib
import Stack256.Proofs.CodeBuffer.Writing
import Stack256.Proofs.Layout.Segments

/-!
# Stack256.Proofs.Layout.RoundTrip — code to instructions and back

Code is what is written for the instructions that it is read as (`emitAll_disassemble`).
Instructions without raw bytes are read back from what is written for them, each in its canonical
form: a push of no given width comes back as the push that it was written as
(`disassemble_flatMap_bytes`).
-/

namespace Stack256

namespace Instruction

/-- The form in which an instruction is read back from code. -/
def canonical : Instruction → Instruction
  | push value => if value = 0 then .op .push0 else .sizedPush value.byteCount value
  | i => i

/-- No instruction of the list is a raw byte. -/
def Bare (is : List Instruction) : Prop :=
  ∀ byte, raw byte ∉ is

theorem Bare.head {i : Instruction} {is : List Instruction} (h : Bare (i :: is)) :
    ∀ byte, i ≠ raw byte :=
  fun byte hi => h byte (hi ▸ List.mem_cons_self)

theorem Bare.tail {i : Instruction} {is : List Instruction} (h : Bare (i :: is)) : Bare is :=
  fun byte hb => h byte (List.mem_cons_of_mem i hb)

theorem valid_segment {i : Instruction} (hw : i.Writable) (hr : ∀ byte, i ≠ raw byte) :
    i.segment.Valid := by
  cases i with
  | op o => trivial
  | raw byte => exact absurd rfl (hr byte)
  | sizedPush width value =>
    rw [segment, Segment.Valid, Word.length_bytes]
    exact hw.1
  | push value =>
    rw [segment]
    split_ifs with h
    · trivial
    · rw [Segment.Valid, Word.length_bytes]
      exact ⟨Word.byteCount_pos h, Word.byteCount_le value⟩

theorem segment_ne_truncated (i : Instruction) (width : ℕ) (data : List UInt8) :
    i.segment ≠ .truncated width data := by
  cases i with
  | push value =>
    rw [segment]
    split_ifs <;> exact Segment.noConfusion
  | _ => exact Segment.noConfusion

/-- A writable instruction that is no raw byte is read back in its canonical form. -/
theorem instructions_segment {i : Instruction} (hw : i.Writable) (hr : ∀ byte, i ≠ raw byte) :
    i.segment.instructions = [i.canonical] := by
  cases i with
  | op o => rfl
  | raw byte => exact absurd rfl (hr byte)
  | sizedPush width value =>
    rw [segment, Segment.instructions, Word.length_bytes, Word.ofBytes_bytes hw.2 hw.1.2]
    rfl
  | push value =>
    rw [segment, canonical]
    split_ifs with h
    · rfl
    · rw [Segment.instructions, Word.length_bytes,
        Word.ofBytes_bytes le_rfl (Word.byteCount_le value)]

end Instruction

namespace Layout

open Instruction

variable {is : List Instruction}

/-! ### From instructions to code and back -/

theorem segments_flatMap_bytes (hb : Bare is) (hw : ∀ i ∈ is, i.Writable) :
    segments (is.flatMap fun i => i.segment.bytes) = is.map Instruction.segment := by
  induction is with
  | nil => exact segments_nil
  | cons i is ih =>
    obtain ⟨hi, his⟩ := List.forall_mem_cons.1 hw
    rw [List.flatMap_cons, segments_bytes_append (valid_segment hi hb.head)
      (segment_ne_truncated i), ih hb.tail his, List.map_cons]

theorem disassemble_flatMap_bytes (hb : Bare is) (hw : ∀ i ∈ is, i.Writable) :
    disassemble (is.flatMap fun i => i.segment.bytes) = is.map canonical := by
  rw [disassemble, segments_flatMap_bytes hb hw]
  induction is with
  | nil => rfl
  | cons i is ih =>
    obtain ⟨hi, his⟩ := List.forall_mem_cons.1 hw
    rw [List.map_cons, List.flatMap_cons, instructions_segment hi hb.head, ih hb.tail his]
    rfl

/-! ### From code to instructions and back -/

theorem writable_of_mem_instructions {g : Segment} (hv : g.Valid) {i : Instruction}
    (hi : i ∈ g.instructions) : i.Writable := by
  cases g with
  | op o =>
    rw [List.mem_singleton.1 hi]
    trivial
  | push data =>
    rw [List.mem_singleton.1 hi]
    exact ⟨hv, Word.byteCount_ofBytes_le hv.2⟩
  | unknown byte =>
    rw [List.mem_singleton.1 hi]
    trivial
  | truncated width data =>
    obtain rfl | hi := List.mem_cons.1 hi
    · trivial
    · obtain ⟨byte, -, rfl⟩ := List.mem_map.1 hi
      trivial

theorem flatMap_bytes_instructions {g : Segment} (hv : g.Valid) :
    (g.instructions.flatMap fun i => i.segment.bytes) = g.bytes := by
  cases g with
  | op o => rfl
  | push data =>
    rw [Segment.instructions, List.flatMap_singleton, Instruction.segment, Word.bytes_ofBytes hv.2]
  | unknown byte => rfl
  | truncated width data =>
    rw [Segment.instructions, List.flatMap_cons, List.flatMap_map]
    exact congrArg (_ :: ·) (List.flatMap_singleton' data)

theorem writable_of_mem_disassemble {code : List UInt8} {i : Instruction}
    (hi : i ∈ disassemble code) : i.Writable := by
  obtain ⟨g, hg, hi⟩ := List.mem_flatMap.1 hi
  exact writable_of_mem_instructions (valid_of_mem_segments hg) hi

theorem flatMap_bytes_disassemble (code : List UInt8) :
    ((disassemble code).flatMap fun i => i.segment.bytes) = code := by
  rw [disassemble, List.flatMap_assoc]
  calc (segments code).flatMap (fun g => g.instructions.flatMap fun i => i.segment.bytes)
      = (segments code).flatMap Segment.bytes :=
        List.flatMap_congr fun g hg => flatMap_bytes_instructions (valid_of_mem_segments hg)
    _ = code := flatMap_bytes_segments code

theorem emitAll_disassemble {code memory : List UInt8} (h : code.length ≤ memory.length) :
    (CodeBuffer.ofMemory memory).emitAll (disassemble code) =
      (none, ⟨code, memory.drop code.length⟩) := by
  rw [CodeBuffer.emitAll_eq_none_iff, flatMap_bytes_disassemble, CodeBuffer.append?_eq_some_iff]
  exact ⟨fun i hi => writable_of_mem_disassemble hi, h, rfl⟩

/-! ### The round trip -/

theorem written_of_emitAll {memory : List UInt8} {t : CodeBuffer}
    (h : (CodeBuffer.ofMemory memory).emitAll is = (none, t)) :
    (∀ i ∈ is, i.Writable) ∧ t.written = is.flatMap fun i => i.segment.bytes := by
  obtain ⟨hw, ha⟩ := CodeBuffer.emitAll_eq_none_iff.1 h
  obtain ⟨-, rfl⟩ := CodeBuffer.append?_eq_some_iff.1 ha
  exact ⟨hw, rfl⟩

/-- **Round trip.**  Writing what code is read as gives the code back; reading what was written for
instructions without raw bytes gives their canonical forms, so that equal code has equal ones. -/
theorem disassemble_roundTrip :
    (∀ code memory : List UInt8, code.length ≤ memory.length →
      (CodeBuffer.ofMemory memory).emitAll (disassemble code) =
        (none, ⟨code, memory.drop code.length⟩)) ∧
    (∀ (is : List Instruction) (memory : List UInt8) (t : CodeBuffer), Bare is →
      (CodeBuffer.ofMemory memory).emitAll is = (none, t) →
      disassemble t.written = is.map canonical) ∧
    ∀ (is js : List Instruction) (memory memory' : List UInt8) (t u : CodeBuffer),
      Bare is → Bare js → (CodeBuffer.ofMemory memory).emitAll is = (none, t) →
      (CodeBuffer.ofMemory memory').emitAll js = (none, u) → t.written = u.written →
      is.map canonical = js.map canonical := by
  have hread : ∀ (is : List Instruction) (memory : List UInt8) (t : CodeBuffer), Bare is →
      (CodeBuffer.ofMemory memory).emitAll is = (none, t) →
      disassemble t.written = is.map canonical := by
    intro is memory t hb ht
    obtain ⟨hw, hcode⟩ := written_of_emitAll ht
    rw [hcode, disassemble_flatMap_bytes hb hw]
  refine ⟨fun code memory h => emitAll_disassemble h, hread, ?_⟩
  intro is js memory memory' t u his hjs ht hu h
  rw [← hread is memory t his ht, ← hread js memory' u hjs hu, h]

/-- Leading zeros, a byte without meaning and a push that is cut off survive the way there and back;
a push of no given width comes back as the push of its least width. -/
theorem disassemble_roundTrip_leading_zeros :
    (CodeBuffer.ofMemory [9, 9, 9, 9, 9, 9, 9]).emitAll (disassemble [0x61, 0, 7, 0xfe, 0x62, 1]) =
      (none, ⟨[0x61, 0, 7, 0xfe, 0x62, 1], [9]⟩) ∧
    disassemble [0x5f, 0x61, 1, 44, 0x62, 0, 0, 7] =
      [.op .push0, .sizedPush 2 300, .sizedPush 3 7] ∧
    [Instruction.push 0, .push 300].map canonical =
      [Instruction.op .push0, .sizedPush 2 300].map canonical := by
  have hbare : ∀ {is : List Instruction}, (∀ i ∈ is, ∀ byte, i ≠ raw byte) → Bare is :=
    fun h byte hb => h _ hb byte rfl
  refine ⟨disassemble_roundTrip.1 _ _ (by decide), ?_, ?_⟩
  · exact disassemble_roundTrip.2.1 [.push 0, .push 300, .sizedPush 3 7] (List.replicate 8 0)
      ⟨[0x5f, 0x61, 1, 44, 0x62, 0, 0, 7], []⟩ (hbare (by simp)) (by decide +kernel)
  · exact disassemble_roundTrip.2.2 _ _ [0, 0, 0, 0] [1, 2, 3, 4, 5] ⟨[0x5f, 0x61, 1, 44], []⟩
      ⟨[0x5f, 0x61, 1, 44], [5]⟩ (hbare (by simp)) (hbare (by simp)) (by decide +kernel)
      (by decide +kernel) rfl

end Layout

end Stack256
