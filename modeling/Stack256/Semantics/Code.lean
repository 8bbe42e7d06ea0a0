import Stack256.Layout.Basic
import Stack256.Semantics.Integer
import Stack256.State.Run

/-!
# Stack256.Semantics.Code — the meaning of code

The meaning of code is what its segments do to a stack of integers, one after the other.  Neither a
place in the code nor a byte of it is ever looked up: the layout is made once, before anything is
carried out.
-/

namespace Stack256

namespace Semantics

/-- How the segments end that start at `place`, on the given stack of integers. -/
structure Ending where
  stack : List Nat
  fault : Option Fault
  place : Nat
  deriving DecidableEq, Repr

/-- Carries out segments in order on a stack of at most `capacity` integers, the first segment at
`place`. -/
def exec (capacity : Nat) (policy : UnknownPolicy) : Nat → List Segment → List Nat → Ending
  | place, [], s => ⟨s, none, place⟩
  | place, .truncated width data :: _, s =>
    ⟨s, some (.truncatedPush place width data.length), place + 1⟩
  | place, .push data :: rest, s =>
    if s.length < capacity then
      exec capacity policy (place + 1 + data.length) rest (bigEndian data :: s)
    else ⟨s, some (.stackOverflow place), place + 1⟩
  | place, .unknown byte :: rest, s =>
    match policy with
    | .reject => ⟨s, some (.unknownByte place byte), place + 1⟩
    | .skip => exec capacity policy (place + 1) rest s
  | place, .op .stop :: _, s => ⟨s, none, place + 1⟩
  | place, .op o :: rest, s =>
    match after? o s with
    | none => ⟨s, some (.stackUnderflow place o.byte), place + 1⟩
    | some t =>
      if t.length ≤ capacity then exec capacity policy (place + 1) rest t
      else ⟨s, some (.stackOverflow place), place + 1⟩

/-- The meaning of code, run on an empty stack. -/
def meaning (code : List UInt8) (capacity : Nat) (policy : UnknownPolicy) : Ending :=
  exec capacity policy 0 (Layout.segments code) []

end Semantics

/-- The outcome of a run with its words read as integers. -/
def Outcome.ending (r : Outcome) : Semantics.Ending :=
  ⟨r.stack.map BitVec.toNat, r.fault, r.pc⟩

end Stack256
