import Stack256.Fault
import Stack256.Opcode.Action
import Stack256.Push

/-!
# Stack256.State.Basic — the state of a run and its single step

Code is a list of bytes, and a run reads it from left to right without jumps.  The instruction at
the place `pc` is either a push, which is followed by its data, or an opcode, or a byte without
meaning, which the policy of the run refuses or skips.  `State.step` carries out one instruction.  A
step that fails leaves the stack as it was, and a state that has halted never changes again.
-/

namespace Stack256

/-- What a run does with a byte that stands for no instruction. -/
inductive UnknownPolicy
  /-- Breaks off with a fault. -/
  | reject
  /-- Goes on behind the byte. -/
  | skip
  deriving DecidableEq, Repr

/-- A run of some code, at any moment. -/
structure State where
  /-- The whole code. -/
  code : List UInt8
  /-- The largest number of words that the stack may hold. -/
  capacity : Nat
  policy : UnknownPolicy := .reject
  /-- The place in the code from which the next step reads. -/
  pc : Nat := 0
  /-- The words on the stack, the top first. -/
  stack : List Word := []
  halted : Bool := false
  deriving DecidableEq, Repr

/-- What a step reports. -/
inductive Signal
  /-- An instruction was carried out, and the run goes on. -/
  | running
  /-- The run has come to its end, in this step or an earlier one. -/
  | halted
  | failed (fault : Fault)
  deriving DecidableEq, Repr

/-- What an instruction does to the run that it is part of. -/
inductive Effect
  /-- The run goes on at the place `pc` with the given stack. -/
  | next (pc : Nat) (stack : List Word)
  | halt
  | fail (fault : Fault)

namespace State

/-- The bytes from the place of the next instruction on. -/
def unread (s : State) : List UInt8 :=
  s.code.drop s.pc

/-- Goes on at `pc` with the given stack, provided that it is within the capacity. -/
def settle (s : State) (pc : Nat) (stack : List Word) : Effect :=
  if stack.length ≤ s.capacity then .next pc stack else .fail (.stackOverflow s.pc)

/-- The effect of a push whose data are the first `width` bytes of `rest`.  Data that are not all
there are a fault even where the stack has no room either. -/
def pushEffect (s : State) (width : Nat) (rest : List UInt8) : Effect :=
  if rest.length < width then .fail (.truncatedPush s.pc width rest.length)
  else s.settle (s.pc + 1 + width) (Word.ofBytes (rest.take width) :: s.stack)

/-- The effect of a byte that stands for no instruction. -/
def unknownEffect (s : State) (byte : UInt8) : Effect :=
  match s.policy with
  | .reject => .fail (.unknownByte s.pc byte)
  | .skip => .next (s.pc + 1) s.stack

/-- The effect of an opcode. -/
def opcodeEffect (s : State) (o : Opcode) : Effect :=
  match o with
  | .stop => .halt
  | o =>
    match o.action.stackAfter? s.stack with
    | none => .fail (.stackUnderflow s.pc o.byte)
    | some stack => s.settle (s.pc + 1) stack

/-- The effect of the instruction that starts with `byte` and may go on into `rest`. -/
def effect (s : State) (byte : UInt8) (rest : List UInt8) : Effect :=
  match Push.width? byte with
  | some width => s.pushEffect width rest
  | none =>
    match Opcode.ofByte? byte with
    | some o => s.opcodeEffect o
    | none => s.unknownEffect byte

/-- The state after an instruction with the given effect, and what the step reports.  The run halts
behind the byte of an instruction that ends it. -/
def follow (s : State) : Effect → Signal × State
  | .next pc stack => (.running, { s with pc := pc, stack := stack })
  | .halt => (.halted, { s with pc := s.pc + 1, halted := true })
  | .fail fault => (.failed fault, { s with pc := s.pc + 1, halted := true })

/-- Carries out one instruction.  At the end of the code the run halts where it is. -/
def step (s : State) : Signal × State :=
  if s.halted then (.halted, s)
  else
    match s.unread with
    | [] => (.halted, { s with halted := true })
    | byte :: rest => s.follow (s.effect byte rest)

end State

end Stack256
