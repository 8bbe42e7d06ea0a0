import Stack256.Processor

/-!
# Stack256.Processor.Register — places in a register

A register holds the numbers up to its limit.  A processor whose place lies in a register cannot add
to it as to a number: a sum above the limit is either held at the limit or no sum at all.  Apart
from that it steps as any other processor.
-/

namespace Stack256

namespace Register

/-- The sum, or the limit where the sum exceeds it. -/
def addHeld (limit a b : Nat) : Nat :=
  if a + b ≤ limit then a + b else limit

/-- The sum, unless it exceeds the limit. -/
def add? (limit a b : Nat) : Option Nat :=
  if a + b ≤ limit then some (a + b) else none

theorem addHeld_of_le {limit a b : Nat} (h : a + b ≤ limit) : addHeld limit a b = a + b :=
  if_pos h

theorem add?_of_le {limit a b : Nat} (h : a + b ≤ limit) : add? limit a b = some (a + b) :=
  if_pos h

end Register

namespace Processor

open Register

/-- The bytes of code from one place up to another, if both lie in it. -/
def dataBetween? (code : List UInt8) (start stop : Nat) : Option (List UInt8) :=
  if start ≤ stop ∧ stop ≤ code.length then some ((code.drop start).take (stop - start)) else none

/-- Reads the data of a push, puts them on the stack and moves behind them in the register. -/
def carryOutPushIn (limit place width : Nat) : Work Unit := do
  let p ← get
  match (add? limit p.pc width).bind (dataBetween? p.code p.pc) with
  | none => throw (.truncatedPush place width (p.code.length - p.pc))
  | some data =>
    push place (Word.ofBytes data)
    modify fun q => { q with pc := addHeld limit p.pc width }

/-- Carries out the instruction that starts at `place` with the given byte.  Only pushes with data
calculate with the place. -/
def carryOutIn (limit place : Nat) (byte : UInt8) : Work Bool :=
  match Push.width? byte with
  | some width => do
    carryOutPushIn limit place width
    return true
  | none => carryOut place byte

/-- Carries out one instruction with the place in the register. -/
def stepIn (limit : Nat) (p : Processor) : Signal × Processor :=
  if p.halted then (.halted, p)
  else
    match p.code[p.pc]? with
    | none => (.halted, { p with halted := true })
    | some byte =>
      conclude ((carryOutIn limit p.pc byte).on { p with pc := addHeld limit p.pc 1 })

end Processor

end Stack256
