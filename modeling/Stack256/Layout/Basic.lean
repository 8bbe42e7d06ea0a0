import Stack256.Instruction

/-!
# Stack256.Layout.Basic — code divided into instructions

Read from its start on, and through every instruction that would end a run, code falls into
segments: opcodes, pushes with their data, and bytes that stand for no instruction.  Where the data
of a push reach beyond the end of the code, everything from that push on is one last segment.  The
division loses nothing (`flatMap_bytes_segments`).
-/

namespace Stack256

/-- A part of code that belongs together. -/
inductive Segment
  | op (o : Opcode)
  /-- A push with its data, as many bytes as its width says. -/
  | push (data : List UInt8)
  /-- A byte that stands for no instruction. -/
  | unknown (byte : UInt8)
  /-- A push of the given width at the end of the code, with too few bytes of data. -/
  | truncated (width : Nat) (data : List UInt8)
  deriving DecidableEq, Repr

namespace Segment

/-- The bytes of the segment in code. -/
def bytes : Segment → List UInt8
  | op o => [o.byte]
  | push data => Push.byte data.length :: data
  | unknown byte => [byte]
  | truncated width data => Push.byte width :: data

/-- The segment is a byte that stands for no instruction. -/
def isUnknown : Segment → Bool
  | unknown _ => true
  | _ => false

/-- Instructions that are written as the bytes of the segment. -/
def instructions : Segment → List Instruction
  | op o => [.op o]
  | push data => [.sizedPush data.length (Word.ofBytes data)]
  | unknown byte => [.raw byte]
  | truncated width data => .raw (Push.byte width) :: data.map .raw

end Segment

namespace Layout

/-- The segments of code, in order. -/
def segments : List UInt8 → List Segment
  | [] => []
  | byte :: rest =>
    match Push.width? byte with
    | some width =>
      if rest.length < width then [.truncated width rest]
      else .push (rest.take width) :: segments (rest.drop width)
    | none =>
      match Opcode.ofByte? byte with
      | some o => .op o :: segments rest
      | none => .unknown byte :: segments rest
termination_by code => code.length
decreasing_by
  · exact Nat.lt_succ_of_le (List.length_drop ▸ Nat.sub_le rest.length width)
  · exact Nat.lt_succ_self rest.length
  · exact Nat.lt_succ_self rest.length

/-- Instructions that are written as the given code. -/
def disassemble (code : List UInt8) : List Instruction :=
  (segments code).flatMap Segment.instructions

/-- Segments with the places at which they start, the first of them at `place`. -/
def placed (place : Nat) : List Segment → List (Nat × Segment)
  | [] => []
  | s :: rest => (place, s) :: placed (place + s.bytes.length) rest

/-- The places at which the segments of code start. -/
def starts (code : List UInt8) : List Nat :=
  (placed 0 (segments code)).map Prod.fst

/-- The code without the bytes that stand for no instruction. -/
def known (code : List UInt8) : List UInt8 :=
  ((segments code).filter (! ·.isUnknown)).flatMap Segment.bytes

/-- The number of bytes that stand for no instruction and start before `place`. -/
def unknownBefore (code : List UInt8) (place : Nat) : Nat :=
  (placed 0 (segments code)).countP fun (start, s) => decide (start < place) && s.isUnknown

/-- The segments hold all bytes of the code, in order. -/
theorem flatMap_bytes_segments (code : List UInt8) :
    (segments code).flatMap Segment.bytes = code := by
  fun_induction segments code with
  | case1 => rfl
  | case2 byte rest width hw hlt => simp [Segment.bytes, Push.byte_of_width? hw]
  | case3 byte rest width hw hge ih =>
    have hlen : (rest.take width).length = width := by
      rw [List.length_take]
      omega
    simp [Segment.bytes, hlen, Push.byte_of_width? hw, ih]
  | case4 byte rest hw o ho ih => simp [Segment.bytes, Opcode.byte_of_ofByte? ho, ih]
  | case5 byte rest hw ho ih => simp [Segment.bytes, ih]

end Layout

end Stack256
