import Stack256.Text

/-!
# Stack256.Opcode.Basic — the one-byte instructions

An `Opcode` is an instruction that carries no data: it has one byte in code and one name in a
listing.  Both look-ups search `Opcode.all`.  Pushes that carry data are in `Stack256.Push`.
-/

namespace Stack256

/-- An instruction without data. -/
inductive Opcode
  | stop
  | add
  | mul
  | sub
  | div
  | sdiv
  | mod
  | smod
  | addmod
  | mulmod
  | exp
  | signextend
  | lt
  | gt
  | slt
  | sgt
  | eq
  | iszero
  | pop
  | push0
  deriving DecidableEq, Repr

namespace Opcode

/-- Every opcode, by increasing byte. -/
def all : List Opcode :=
  [stop, add, mul, sub, div, sdiv, mod, smod, addmod, mulmod, exp, signextend, lt, gt, slt, sgt,
   eq, iszero, pop, push0]

/-- The byte that stands for the opcode in code. -/
def byte : Opcode → UInt8
  | stop => 0x00
  | add => 0x01
  | mul => 0x02
  | sub => 0x03
  | div => 0x04
  | sdiv => 0x05
  | mod => 0x06
  | smod => 0x07
  | addmod => 0x08
  | mulmod => 0x09
  | exp => 0x0a
  | signextend => 0x0b
  | lt => 0x10
  | gt => 0x11
  | slt => 0x12
  | sgt => 0x13
  | eq => 0x14
  | iszero => 0x15
  | pop => 0x50
  | push0 => 0x5f

/-- The name of the opcode in a listing. -/
def mnemonic : Opcode → String
  | stop => "STOP"
  | add => "ADD"
  | mul => "MUL"
  | sub => "SUB"
  | div => "DIV"
  | sdiv => "SDIV"
  | mod => "MOD"
  | smod => "SMOD"
  | addmod => "ADDMOD"
  | mulmod => "MULMOD"
  | exp => "EXP"
  | signextend => "SIGNEXTEND"
  | lt => "LT"
  | gt => "GT"
  | slt => "SLT"
  | sgt => "SGT"
  | eq => "EQ"
  | iszero => "ISZERO"
  | pop => "POP"
  | push0 => "PUSH0"

/-- The opcode with the given byte. -/
def ofByte? (b : UInt8) : Option Opcode :=
  all.find? fun o => o.byte == b

/-- The opcode with the given name, in any letter case. -/
def ofMnemonic? (name : List Char) : Option Opcode :=
  all.find? fun o => Text.sameLetters o.mnemonic.toList name

@[simp] theorem ofByte?_byte (o : Opcode) : ofByte? o.byte = some o := by
  cases o <;> decide

/-- A byte stands for at most one opcode. -/
theorem byte_of_ofByte? {b : UInt8} {o : Opcode} (h : ofByte? b = some o) : o.byte = b := by
  simpa using List.find?_some h

end Opcode

end Stack256
