import Stack256.CodeBuffer

/-!
# Stack256.CodeBuffer.Cursor — code written in place

A `CodeBuffer` says what stands in a memory, a `Cursor` how it gets there: bytes are put at the
place up to which the memory is written, one of them or several together, and each time the memory
has to have room for them.  A push is put in two parts, its byte and its data, after a check that
there is room for both.  What an error leaves behind is the memory as it is at that moment.
-/

namespace Stack256

/-- A memory that is written in place, and the place up to which it is. -/
structure Cursor where
  memory : List UInt8
  place : Nat := 0
  deriving DecidableEq, Repr

namespace Cursor

/-- Puts a byte over the one at the place, if there is one. -/
def putByte (c : Cursor) (byte : UInt8) : Option EmitError × Cursor :=
  if c.place < c.memory.length then (none, ⟨c.memory.set c.place byte, c.place + 1⟩)
  else (some .full, c)

/-- Puts bytes over those from the place on, if these are enough. -/
def putBytes (c : Cursor) (bytes : List UInt8) : Option EmitError × Cursor :=
  let stop := c.place + bytes.length
  if stop ≤ c.memory.length then
    (none, ⟨c.memory.take c.place ++ bytes ++ c.memory.drop stop, stop⟩)
  else (some .full, c)

/-- Puts a push of the given width: its byte, then its data. -/
def putPush (c : Cursor) (width : Nat) (value : Word) : Option EmitError × Cursor :=
  match Push.byte? width with
  | none => (some (.width (.outOfRange width)), c)
  | some byte =>
    if width < value.byteCount then (some (.width (.tooNarrow width)), c)
    else if c.memory.length < c.place + 1 + width then (some .full, c)
    else
      match c.putByte byte with
      | (some e, d) => (some e, d)
      | (none, d) => d.putBytes (value.bytes width)

/-- Puts an instruction. -/
def put (c : Cursor) : Instruction → Option EmitError × Cursor
  | .op o => c.putByte o.byte
  | .push value =>
    if value.byteCount = 0 then c.putByte Opcode.push0.byte else c.putPush value.byteCount value
  | .sizedPush width value => c.putPush width value
  | .raw byte => c.putByte byte

/-- Puts instructions in order up to the first that is refused. -/
def putAll (c : Cursor) : List Instruction → Option EmitError × Cursor
  | [] => (none, c)
  | instruction :: rest =>
    match c.put instruction with
    | (some e, d) => (some e, d)
    | (none, d) => d.putAll rest

end Cursor

/-- The cursor over the memory of a buffer, behind what is written. -/
def CodeBuffer.cursor (b : CodeBuffer) : Cursor :=
  ⟨b.memory, b.length⟩

end Stack256
