import Stack256.Opcode.Basic
import Stack256.Push
import Stack256.Word

/-!
# Stack256.Instruction — instructions and their bytes

An instruction is written as one byte, followed by the data of a push.  Where no width is asked for,
a push takes the least that holds its value.
-/

namespace Stack256

/-- An instruction to be written as code. -/
inductive Instruction
  | op (o : Opcode)
  /-- A push of the least width that holds the value. -/
  | push (value : Word)
  /-- A push of the given width. -/
  | sizedPush (width : Nat) (value : Word)
  /-- A byte as it is, whether or not it means anything. -/
  | raw (byte : UInt8)
  deriving DecidableEq, Repr

/-- Why a push cannot be written at the width that was asked for. -/
inductive WidthError
  /-- No push has this width. -/
  | outOfRange (width : Nat)
  /-- The value needs more bytes than this width. -/
  | tooNarrow (width : Nat)
  deriving DecidableEq, Repr

namespace WidthError

/-- The error as a sentence. -/
def message : WidthError → String
  | outOfRange width => s!"PUSH{width} is not a push instruction"
  | tooNarrow width => s!"value does not fit in {width} bytes"

end WidthError

namespace Instruction

/-- The bytes of a push of the given width.  The width itself is checked before the value. -/
def encodePush (width : Nat) (value : Word) : Except WidthError (List UInt8) :=
  match Push.byte? width with
  | none => .error (.outOfRange width)
  | some byte =>
    if value.byteCount ≤ width then .ok (byte :: value.bytes width) else .error (.tooNarrow width)

/-- The bytes of an instruction. -/
def encode : Instruction → Except WidthError (List UInt8)
  | op o => .ok [o.byte]
  | push value =>
    if value = 0 then .ok [Opcode.push0.byte] else encodePush value.byteCount value
  | sizedPush width value => encodePush width value
  | raw byte => .ok [byte]

end Instruction

end Stack256
