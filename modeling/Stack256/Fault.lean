import Stack256.Text

/-!
# Stack256.Fault — why a run breaks off

Each fault names the place of the instruction that failed, as an offset into the code.
-/

namespace Stack256

/-- A reason to break off a run. -/
inductive Fault
  /-- The code ends before the last byte of data of a push. -/
  | truncatedPush (place width available : Nat)
  /-- The stack holds fewer words than the opcode takes. -/
  | stackUnderflow (place : Nat) (byte : UInt8)
  /-- The stack has no room for another word. -/
  | stackOverflow (place : Nat)
  /-- The byte stands for no instruction. -/
  | unknownByte (place : Nat) (byte : UInt8)
  deriving DecidableEq, Repr

namespace Fault

/-- The offset of the instruction that failed. -/
def place : Fault → Nat
  | truncatedPush p _ _ | stackUnderflow p _ | stackOverflow p | unknownByte p _ => p

/-- The fault as a sentence. -/
def message : Fault → String
  | truncatedPush p width available =>
    s!"PUSH{width} at {p} needs {width} immediate bytes but only {available} remain"
  | stackUnderflow p byte =>
    "opcode 0x" ++ Text.hexByte byte ++ s!" at {p} would underflow the stack"
  | stackOverflow p => s!"opcode at {p} would overflow the stack"
  | unknownByte p byte => "the value 0x" ++ Text.hexByte byte ++ s!" at {p} is an invalid opcode"

/-- The same fault at an offset increased by `n`. -/
def shift (n : Nat) : Fault → Fault
  | truncatedPush p width available => truncatedPush (n + p) width available
  | stackUnderflow p byte => stackUnderflow (n + p) byte
  | stackOverflow p => stackOverflow (n + p)
  | unknownByte p byte => unknownByte (n + p) byte

@[simp] theorem place_shift (n : Nat) (f : Fault) : (f.shift n).place = n + f.place := by
  cases f <;> rfl

end Fault

end Stack256
