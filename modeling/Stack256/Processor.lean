import Stack256.State.Basic

/-!
# Stack256.Processor — a run in place

A `State` says what a step makes of a run, a `Processor` how it comes about.  The stack lies in a
memory of fixed size with its bottom first, so that a word does not move as long as it is on the
stack.  The place moves behind the byte of an instruction before anything else is done, and words
are taken off the stack one after the other.  What a fault leaves behind is the processor as it is
at that moment.
-/

namespace Stack256

/-- A run whose stack lies in a memory. -/
structure Processor where
  code : List UInt8
  /-- The number of words for which there is room. -/
  capacity : Nat
  policy : UnknownPolicy := .reject
  pc : Nat := 0
  /-- The words on the stack, the bottom first. -/
  words : List Word := []
  halted : Bool := false
  deriving DecidableEq, Repr

namespace Processor

/-- Work on a processor, which a fault may break off. -/
abbrev Work := ExceptT Fault (StateM Processor)

/-- What work leads to on a given processor. -/
def Work.on {α : Type} (work : Work α) (p : Processor) : Except Fault α × Processor :=
  (ExceptT.run work).run p

/-- Takes the top word off the stack. -/
def pop (place : Nat) (byte : UInt8) : Work Word := do
  match (← get).words.getLast? with
  | none => throw (.stackUnderflow place byte)
  | some word =>
    modify fun p => { p with words := p.words.dropLast }
    return word

/-- Puts a word on top of the stack. -/
def push (place : Nat) (word : Word) : Work Unit := do
  let p ← get
  if p.words.length < p.capacity then
    set { p with words := p.words ++ [word] }
  else throw (.stackOverflow place)

/-- Takes off the stack what an action asks for, and puts its result there. -/
def act (place : Nat) (byte : UInt8) : Action → Work Unit
  | .halt => return ()
  | .drop => do
    let _ ← pop place byte
  | .constant value => push place value
  | .unary f => do
    let a ← pop place byte
    push place (f a)
  | .binary f => do
    let a ← pop place byte
    let b ← pop place byte
    push place (f a b)
  | .ternary f => do
    let a ← pop place byte
    let b ← pop place byte
    let c ← pop place byte
    push place (f a b c)

/-- Reads the data of a push, puts them on the stack and moves behind them. -/
def carryOutPush (place width : Nat) : Work Unit := do
  let p ← get
  let rest := p.code.drop p.pc
  if rest.length < width then throw (.truncatedPush place width rest.length)
  push place (Word.ofBytes (rest.take width))
  modify fun p => { p with pc := p.pc + width }

/-- Carries out an opcode, and tells whether the run goes on.  The words on the stack are counted
before the first of them is taken off. -/
def carryOutOpcode (place : Nat) (byte : UInt8) (o : Opcode) : Work Bool := do
  if (← get).words.length < o.arity then throw (.stackUnderflow place byte)
  match o with
  | .stop => return false
  | o =>
    act place byte o.action
    return true

/-- Carries out the instruction that starts at `place` with the given byte, and tells whether the
run goes on. -/
def carryOut (place : Nat) (byte : UInt8) : Work Bool := do
  match Push.width? byte with
  | some width =>
    carryOutPush place width
    return true
  | none =>
    match Opcode.ofByte? byte with
    | some o => carryOutOpcode place byte o
    | none =>
      match (← get).policy with
      | .reject => throw (.unknownByte place byte)
      | .skip => return true

/-- Halts, unless the run goes on, and reports which. -/
def conclude : Except Fault Bool × Processor → Signal × Processor
  | (.ok true, p) => (.running, p)
  | (.ok false, p) => (.halted, { p with halted := true })
  | (.error fault, p) => (.failed fault, { p with halted := true })

/-- Carries out one instruction.  At the end of the code the run halts where it is. -/
def step (p : Processor) : Signal × Processor :=
  if p.halted then (.halted, p)
  else
    match p.code[p.pc]? with
    | none => (.halted, { p with halted := true })
    | some byte => conclude ((carryOut p.pc byte).on { p with pc := p.pc + 1 })

end Processor

/-- The same run with its stack in a memory. -/
def State.processor (s : State) : Processor :=
  { code := s.code, capacity := s.capacity, policy := s.policy, pc := s.pc,
    words := s.stack.reverse, halted := s.halted }

end Stack256
