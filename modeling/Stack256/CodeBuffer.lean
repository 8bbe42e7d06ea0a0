import Stack256.Instruction

/-!
# Stack256.CodeBuffer — code written into a memory of fixed size

A buffer is a memory divided in two: the bytes written so far, and behind them the spare ones, which
still hold what was in the memory before.  An instruction is written whole or not at all.
-/

namespace Stack256

/-- A memory that is filled with code from its start. -/
structure CodeBuffer where
  written : List UInt8 := []
  spare : List UInt8
  deriving DecidableEq, Repr

/-- Why an instruction was not written. -/
inductive EmitError
  /-- The spare bytes are too few. -/
  | full
  | width (cause : WidthError)
  deriving DecidableEq, Repr

namespace EmitError

/-- The error as a sentence. -/
def message : EmitError → String
  | full => "the code buffer is too small"
  | width cause => cause.message

end EmitError

namespace CodeBuffer

/-- A buffer over the given memory, with nothing written. -/
def ofMemory (memory : List UInt8) : CodeBuffer :=
  { spare := memory }

/-- All bytes of the memory. -/
def memory (b : CodeBuffer) : List UInt8 :=
  b.written ++ b.spare

/-- The number of bytes written. -/
def length (b : CodeBuffer) : Nat :=
  b.written.length

/-- Writes the bytes over the first spare ones, if these are enough. -/
def append? (b : CodeBuffer) (bytes : List UInt8) : Option CodeBuffer :=
  if bytes.length ≤ b.spare.length then
    some ⟨b.written ++ bytes, b.spare.drop bytes.length⟩
  else none

/-- Writes an instruction.  A width that cannot be written is reported even where the memory is full
too. -/
def emit (b : CodeBuffer) (instruction : Instruction) : Except EmitError CodeBuffer :=
  match instruction.encode with
  | .error cause => .error (.width cause)
  | .ok bytes =>
    match b.append? bytes with
    | none => .error .full
    | some t => .ok t

/-- Writes instructions in order up to the first that fails, and reports why it does.  What was
written before it stays. -/
def emitAll (b : CodeBuffer) : List Instruction → Option EmitError × CodeBuffer
  | [] => (none, b)
  | instruction :: rest =>
    match b.emit instruction with
    | .error e => (some e, b)
    | .ok t => t.emitAll rest

@[simp] theorem memory_ofMemory (memory : List UInt8) : (ofMemory memory).memory = memory := rfl

end CodeBuffer

end Stack256
