import Stack256.State.Basic

/-!
# Stack256.State.Sketch — a state without its words

A sketch knows how many words are on the stack, but not which.  It steps by the number of words that
an instruction takes and puts, looks at no byte of the code but the first of an instruction, and so
cannot depend on any data.
-/

namespace Stack256

/-- What is known of a run without its words. -/
structure Sketch where
  code : List UInt8
  capacity : Nat
  policy : UnknownPolicy
  pc : Nat
  /-- The number of words on the stack. -/
  depth : Nat
  halted : Bool
  deriving DecidableEq, Repr

namespace Sketch

/-- The end of the run in the instruction at hand. -/
def stop (s : Sketch) (signal : Signal) : Signal × Sketch :=
  (signal, { s with pc := s.pc + 1, halted := true })

/-- Goes on by `length` bytes after `taken` words have been replaced by `put` others. -/
def move (s : Sketch) (length taken put : Nat) : Signal × Sketch :=
  if s.capacity < s.depth - taken + put then s.stop (.failed (.stackOverflow s.pc))
  else (.running, { s with pc := s.pc + length, depth := s.depth - taken + put })

/-- Carries out the instruction whose first byte is given. -/
def carryOut (s : Sketch) (byte : UInt8) : Signal × Sketch :=
  match Push.width? byte, Opcode.ofByte? byte with
  | some width, _ =>
    let available := s.code.length - (s.pc + 1)
    if available < width then s.stop (.failed (.truncatedPush s.pc width available))
    else s.move (1 + width) 0 1
  | none, some o =>
    if s.depth < o.arity then s.stop (.failed (.stackUnderflow s.pc byte))
    else if o = .stop then s.stop .halted
    else s.move 1 o.arity o.results
  | none, none =>
    match s.policy with
    | .reject => s.stop (.failed (.unknownByte s.pc byte))
    | .skip => (.running, { s with pc := s.pc + 1 })

/-- Carries out one instruction. -/
def step (s : Sketch) : Signal × Sketch :=
  if s.halted then (.halted, s)
  else
    match s.code[s.pc]? with
    | none => (.halted, { s with halted := true })
    | some byte => s.carryOut byte

end Sketch

/-- The state without its words. -/
def State.sketch (s : State) : Sketch :=
  { code := s.code, capacity := s.capacity, policy := s.policy, pc := s.pc,
    depth := s.stack.length, halted := s.halted }

end Stack256
