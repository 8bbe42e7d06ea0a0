import Stack256.Instruction
import Stack256.State.Run

/-!
# Stack256.Program — instructions carried out without being written

A program is a list of instructions.  `Program.run` carries it out on a stack as it stands: an
opcode acts, a push puts its value, and nothing is encoded or decoded.  Only the places of the
instructions are counted, so that a fault says where the instruction would stand in code.
-/

namespace Stack256

/-- The number of bytes of an instruction in code. -/
def Instruction.size : Instruction → Nat
  | op _ | raw _ => 1
  | push value => 1 + value.byteCount
  | sizedPush width _ => 1 + width

namespace Program

/-- Carries out instructions in order on a stack of at most `capacity` words, the first at `place`.
A raw byte is no instruction to carry out and breaks off the run. -/
def run (capacity : Nat) : Nat → List Instruction → List Word → Outcome
  | place, [], s => ⟨s, none, place⟩
  | place, i :: rest, s =>
    match i with
    | .op .stop => ⟨s, none, place + 1⟩
    | .op o =>
      match o.action.stackAfter? s with
      | none => ⟨s, some (.stackUnderflow place o.byte), place + 1⟩
      | some t =>
        if t.length ≤ capacity then run capacity (place + i.size) rest t
        else ⟨s, some (.stackOverflow place), place + 1⟩
    | .push v | .sizedPush _ v =>
      if s.length < capacity then run capacity (place + i.size) rest (v :: s)
      else ⟨s, some (.stackOverflow place), place + 1⟩
    | .raw byte => ⟨s, some (.unknownByte place byte), place + 1⟩

end Program

end Stack256
