import Mathlib
import Stack256.CodeBuffer.Cursor
import Stack256.Proofs.CodeBuffer.Extension

/-!
# Stack256.Proofs.CodeBuffer.Session — a buffer after any calls

A call hands over instructions, one or several, of which the first that is refused and those behind
it are not written.  After any calls the buffer holds the bytes of the instructions that were
accepted, and the rest of the memory is as it was.  Writing in place comes to the same
(`put_cursor`): a refused instruction leaves no byte behind.  Main statement: `session_of_calls`.
-/

namespace Stack256

namespace CodeBuffer

open Instruction

variable {b t : CodeBuffer} {i : Instruction}

/-! ### Writing in place -/

/-- What is left in place of a buffer by writing that may fail and then changes nothing. -/
def inPlace (b : CodeBuffer) : Except EmitError CodeBuffer → Option EmitError × Cursor
  | .error e => (some e, b.cursor)
  | .ok t => (none, t.cursor)

theorem putByte_cursor (b : CodeBuffer) (byte : UInt8) :
    b.cursor.putByte byte = b.inPlace ((b.append? [byte]).elim (.error .full) .ok) := by
  obtain ⟨written, spare⟩ := b
  cases spare <;> simp [Cursor.putByte, cursor, memory, length, append?, inPlace]

theorem putBytes_cursor (b : CodeBuffer) (bytes : List UInt8) :
    b.cursor.putBytes bytes = b.inPlace ((b.append? bytes).elim (.error .full) .ok) := by
  obtain ⟨written, spare⟩ := b
  by_cases h : bytes.length ≤ spare.length <;>
    simp [Cursor.putBytes, cursor, memory, length, append?, inPlace, h, List.drop_append]

theorem room_cursor (b : CodeBuffer) (n : ℕ) :
    b.cursor.memory.length < b.cursor.place + 1 + n ↔ b.spare.length < n + 1 := by
  simp only [cursor, memory, length, List.length_append]
  omega

/-- The check made first is as strict as those of the two parts: where it lets the byte of a push be
put, there is room for the data too. -/
theorem putPush_cursor (b : CodeBuffer) (width : ℕ) (value : Word) :
    b.cursor.putPush width value = b.inPlace (b.emit (.sizedPush width value)) := by
  rw [Cursor.putPush, emit, encode, encodePush]
  cases Push.byte? width with
  | none => rfl
  | some byte =>
    by_cases hv : value.byteCount ≤ width
    · simp only [if_neg (not_lt.2 hv), if_pos hv, room_cursor]
      by_cases hroom : b.spare.length < width + 1
      · have hnone : b.append? (byte :: value.bytes width) = none := by
          rw [append?, if_neg (by simpa using hroom)]
        simp only [if_pos hroom, hnone]
        rfl
      · obtain ⟨t, ht⟩ : ∃ t, b.append? [byte] = some t :=
          ⟨_, append?_eq_some_iff.2 ⟨by simp; omega, rfl⟩⟩
        obtain ⟨-, hteq⟩ := append?_eq_some_iff.1 ht
        obtain ⟨u, hu⟩ : ∃ u, t.append? (value.bytes width) = some u :=
          ⟨_, append?_eq_some_iff.2 ⟨by simp [hteq]; omega, rfl⟩⟩
        have hboth : b.append? (byte :: value.bytes width) = some u := by
          rw [← List.singleton_append, append?_append, ht, Option.bind_some, hu]
        simp only [if_neg hroom, putByte_cursor, ht, hboth, Option.elim_some, inPlace,
          putBytes_cursor, hu]
    · simp only [if_pos (not_le.1 hv), if_neg hv]
      rfl

theorem emit_of_encode {code : List UInt8} (h : i.encode = .ok code) :
    b.emit i = (b.append? code).elim (.error .full) .ok := by
  cases ha : b.append? code <;> simp [emit, h, ha]

/-- An instruction is put in place as it is written, and one that is refused changes nothing. -/
theorem put_cursor (b : CodeBuffer) (i : Instruction) :
    b.cursor.put i = b.inPlace (b.emit i) := by
  cases i with
  | op o => exact (putByte_cursor b o.byte).trans (congrArg b.inPlace (emit_of_encode rfl).symm)
  | raw byte => exact (putByte_cursor b byte).trans (congrArg b.inPlace (emit_of_encode rfl).symm)
  | sizedPush width value => exact putPush_cursor b width value
  | push value =>
    rw [Cursor.put]
    by_cases h : value = 0
    · subst h
      rw [if_pos (by rfl), putByte_cursor, emit_of_encode (i := .push 0) rfl]
    · have hpos : value.byteCount ≠ 0 := Nat.one_le_iff_ne_zero.1 (Word.byteCount_pos h)
      have hpush : b.emit (.push value) = b.emit (.sizedPush value.byteCount value) := by
        rw [emit, emit, encode, encode, if_neg h]
      rw [if_neg hpos, putPush_cursor, hpush]

theorem putAll_cursor (b : CodeBuffer) (is : List Instruction) :
    b.cursor.putAll is = ((b.emitAll is).1, (b.emitAll is).2.cursor) := by
  induction is generalizing b with
  | nil => rfl
  | cons i is ih =>
    rw [Cursor.putAll, emitAll, put_cursor]
    cases b.emit i with
    | error e => rfl
    | ok t => exact ih t

/-- The buffer after any calls, which may hand over one instruction or several. -/
def callAll (b : CodeBuffer) (calls : List (List Instruction)) : CodeBuffer :=
  calls.foldl (fun t is => (t.emitAll is).2) b

/-- The cursor after any calls. -/
def putCalls (c : Cursor) (calls : List (List Instruction)) : Cursor :=
  calls.foldl (fun d is => (d.putAll is).2) c

theorem putCalls_cursor (b : CodeBuffer) (calls : List (List Instruction)) :
    putCalls b.cursor calls = (b.callAll calls).cursor := by
  induction calls generalizing b with
  | nil => rfl
  | cons is calls ih =>
    rw [putCalls, List.foldl_cons, putAll_cursor]
    exact ih (b.emitAll is).2

/-! ### Accepted instructions -/

/-- The instructions of a call that are accepted. -/
def accepted (b : CodeBuffer) : List Instruction → List Instruction
  | [] => []
  | i :: is =>
    match b.emit i with
    | .error _ => []
    | .ok t => i :: t.accepted is

/-- The instructions that are accepted in the calls, in order. -/
def acceptedIn (b : CodeBuffer) : List (List Instruction) → List Instruction
  | [] => []
  | is :: calls => b.accepted is ++ (b.emitAll is).2.acceptedIn calls

/-- The codes are those of the instructions, one by one. -/
def Encodes (is : List Instruction) (codes : List (List UInt8)) : Prop :=
  List.Forall₂ (fun i code => i.encode = .ok code) is codes

/-- A call writes the codes of what it accepts, and they fit. -/
theorem exists_codes_of_call (b : CodeBuffer) (is : List Instruction) :
    ∃ codes, Encodes (b.accepted is) codes ∧ codes.flatten.length ≤ b.spare.length ∧
      (b.emitAll is).2 = b.extend codes.flatten := by
  induction is generalizing b with
  | nil => exact ⟨[], .nil, Nat.zero_le _, (extend_nil b).symm⟩
  | cons i is ih =>
    rw [accepted, emitAll, emit_eq_map]
    cases ho : i.output b.spare.length with
    | error e => exact ⟨[], .nil, Nat.zero_le _, (extend_nil b).symm⟩
    | ok code =>
      obtain ⟨hcode, hroom⟩ := output_eq_ok_iff.1 ho
      obtain ⟨codes, hcodes, hlen, hext⟩ := ih (b.extend code)
      rw [length_spare_extend] at hlen
      refine ⟨code :: codes, .cons hcode hcodes, ?_, ?_⟩
      · rw [List.flatten_cons, List.length_append]
        omega
      · rw [List.flatten_cons, extend_append]
        exact hext

theorem exists_codes_of_calls (b : CodeBuffer) (calls : List (List Instruction)) :
    ∃ codes, Encodes (b.acceptedIn calls) codes ∧ codes.flatten.length ≤ b.spare.length ∧
      b.callAll calls = b.extend codes.flatten := by
  induction calls generalizing b with
  | nil => exact ⟨[], .nil, Nat.zero_le _, (extend_nil b).symm⟩
  | cons is calls ih =>
    obtain ⟨codes, hcodes, hlen, hext⟩ := exists_codes_of_call b is
    obtain ⟨codes', hcodes', hlen', hext'⟩ := ih (b.emitAll is).2
    rw [hext, length_spare_extend] at hlen'
    refine ⟨codes ++ codes', List.rel_append hcodes hcodes', ?_, ?_⟩
    · rw [List.flatten_append, List.length_append]
      omega
    · rw [List.flatten_append, extend_append, ← hext]
      exact hext'

/-- What a call accepts ends before the first instruction that is refused, if there is one. -/
theorem exists_refused (b : CodeBuffer) (is : List Instruction) :
    ((b.emitAll is).1 = none ∧ b.accepted is = is) ∨
    ∃ i post e, is = b.accepted is ++ i :: post ∧ (b.emitAll is).1 = some e ∧
      ((b.emitAll is).2.emitAll [i]).1 = some e := by
  induction is generalizing b with
  | nil => exact .inl ⟨rfl, rfl⟩
  | cons i is ih =>
    rw [accepted, emitAll]
    cases hi : b.emit i with
    | error e => exact .inr ⟨i, is, e, rfl, rfl, by rw [emitAll, hi]⟩
    | ok t =>
      obtain ⟨hnone, hall⟩ | ⟨j, post, e, hsplit, hfail, hj⟩ := ih t
      · exact .inl ⟨hnone, congrArg (i :: ·) hall⟩
      · exact .inr ⟨j, post, e, congrArg (i :: ·) hsplit, hfail, hj⟩

/-! ### The law of a session -/

theorem emitAll_singleton_fst_iff {e : EmitError} :
    (b.emitAll [i]).1 = some e ↔ i.output b.spare.length = .error e := by
  rw [emitAll, emit_eq_map]
  cases i.output b.spare.length <;> simp [Except.map, emitAll]

theorem emitAll_singleton_fst_eq_none_iff :
    (b.emitAll [i]).1 = none ↔ ∃ code, i.output b.spare.length = .ok code := by
  rw [emitAll, emit_eq_map]
  cases i.output b.spare.length <;> simp [Except.map, emitAll]

/-- **Sessions.**  After any `calls` the buffer `b` holds the codes of the instructions accepted, in
place too; an instruction `i` is refused for its width first and for want of room last, and changes
nothing. -/
theorem session_of_calls (memory : List UInt8) (calls : List (List Instruction)) :
    let b := (ofMemory memory).callAll calls
    (∃ codes, Encodes ((ofMemory memory).acceptedIn calls) codes ∧ b.written = codes.flatten) ∧
    b.length ≤ memory.length ∧ b.memory = b.written ++ memory.drop b.length ∧
    putCalls ⟨memory, 0⟩ calls = b.cursor ∧
    (∀ is, b.cursor.putAll is = ((b.emitAll is).1, (b.emitAll is).2.cursor) ∧
      (((b.emitAll is).1 = none ∧ b.accepted is = is) ∨
        ∃ i post e, is = b.accepted is ++ i :: post ∧ (b.emitAll is).1 = some e ∧
          ((b.emitAll is).2.emitAll [i]).1 = some e)) ∧
    ∀ i,
      (∀ e, (b.emitAll [i]).1 = some e →
        (b.emitAll [i]).2 = b ∧ (b.cursor.putAll [i]).2 = b.cursor) ∧
      (∀ width, (b.emitAll [i]).1 = some (.width (.outOfRange width)) ↔
        ∃ value, i = .sizedPush width value ∧ ¬ (1 ≤ width ∧ width ≤ 32)) ∧
      (∀ width, (b.emitAll [i]).1 = some (.width (.tooNarrow width)) ↔
        ∃ value, i = .sizedPush width value ∧ (1 ≤ width ∧ width ≤ 32) ∧
          256 ^ width ≤ value.toNat) ∧
      ((b.emitAll [i]).1 = some .full ↔
        (∀ width value, i = .sizedPush width value →
          (1 ≤ width ∧ width ≤ 32) ∧ value.toNat < 256 ^ width) ∧
        memory.length - b.length < i.size) ∧
      ((b.emitAll [i]).1 = none ↔
        (∀ width value, i = .sizedPush width value →
          (1 ≤ width ∧ width ≤ 32) ∧ value.toNat < 256 ^ width) ∧
        i.size ≤ memory.length - b.length) ∧
      ∀ code, i.encode = .ok code → code.length = i.size := by
  intro b
  obtain ⟨codes, hcodes, hlen, hext⟩ := exists_codes_of_calls (ofMemory memory) calls
  have hover : Over memory b := by
    rw [show b = _ from hext]
    exact (over_ofMemory memory).extend hlen
  have hroom : b.spare.length = memory.length - b.length := hover.length_spare
  refine ⟨⟨codes, hcodes, congrArg written hext⟩, hover.length_le, hover.memory_eq,
    putCalls_cursor (ofMemory memory) calls,
    fun is => ⟨putAll_cursor b is, exists_refused b is⟩,
    fun i => ⟨fun e he => ?_, fun width => ?_, fun width => ?_, ?_, ?_, fun code hcode => ?_⟩⟩
  · have hsame : (b.emitAll [i]).2 = b :=
      (emitAll_singleton_eq_some_iff.1 (Prod.ext he rfl)).2.symm
    rw [putAll_cursor, hsame]
    exact ⟨rfl, rfl⟩
  · rw [emitAll_singleton_fst_iff, output_eq_width_iff, encode_eq_outOfRange_iff]
  · rw [emitAll_singleton_fst_iff, output_eq_width_iff, encode_eq_tooNarrow_iff]
  · rw [emitAll_singleton_fst_iff, output_eq_full_iff, hroom,
      exists_encode_and_length_iff (P := (memory.length - b.length < ·)), writable_iff]
  · simp only [emitAll_singleton_fst_eq_none_iff, output_eq_ok_iff, hroom]
    rw [exists_encode_and_length_iff (P := (· ≤ memory.length - b.length)), writable_iff]
  · obtain ⟨-, rfl⟩ := encode_eq_ok_iff.1 hcode
    exact size_eq_length i

/-- One call is refused for its width, one half-way for its value, and one for want of room: two of
the three bytes of a push would fit, and none of them is put. -/
theorem session_of_calls_refused :
    let calls : List (List Instruction) :=
      [[.op .add], [.sizedPush 33 0], [.push 7, .sizedPush 1 256, .raw 3]]
    let b : CodeBuffer := ⟨[1, 0x60, 7], [9, 9]⟩
    (ofMemory [9, 9, 9, 9, 9]).callAll calls = b ∧
    (∃ codes, Encodes [.op .add, .push 7] codes ∧ b.written = codes.flatten) ∧
    putCalls ⟨[9, 9, 9, 9, 9], 0⟩ calls = b.cursor ∧
    (b.emitAll [.sizedPush 33 0]).1 = some (.width (.outOfRange 33)) ∧
    (b.emitAll [.sizedPush 1 256]).1 = some (.width (.tooNarrow 1)) ∧
    (b.emitAll [.sizedPush 2 5]).1 = some .full ∧
    (b.cursor.putAll [.sizedPush 2 5]).2 = b.cursor := by
  intro calls b
  have hb : (ofMemory [9, 9, 9, 9, 9]).callAll calls = b := by decide +kernel
  have haccepted : (ofMemory [9, 9, 9, 9, 9]).acceptedIn calls = [.op .add, .push 7] := by
    decide +kernel
  obtain ⟨hcodes, -, -, hput, -, hcall⟩ := session_of_calls [9, 9, 9, 9, 9] calls
  simp only [hb, haccepted] at hcodes hput hcall
  have hfull : (b.emitAll [.sizedPush 2 5]).1 = some .full :=
    (hcall (.sizedPush 2 5)).2.2.2.1.2 ⟨by rintro _ _ ⟨⟩; decide, by decide⟩
  exact ⟨hb, hcodes, hput, ((hcall (.sizedPush 33 0)).2.1 33).2 ⟨0, rfl, by decide⟩,
    ((hcall (.sizedPush 1 256)).2.2.1 1).2 ⟨256, rfl, by decide, by decide⟩, hfull,
    ((hcall (.sizedPush 2 5)).1 .full hfull).2⟩

end CodeBuffer

end Stack256
