import Stack256.Instruction

/-!
# Stack256.Listing.Printer — instructions as lines of a listing

A `Statement` is what a line of a listing says.  It has a text, and it stands for instructions.  The
numbers of a text are in base ten or sixteen, as each statement chooses.
-/

namespace Stack256.Listing

/-- The base in which a number is written. -/
inductive Base
  | ten
  | sixteen
  deriving DecidableEq, Repr

/-- The text of a number in the given base. -/
def Base.text : Base → Nat → List Char
  | ten, n => Nat.toDigits 10 n
  | sixteen, n => '0' :: 'x' :: Nat.toDigits 16 n

/-- What a line of a listing says. -/
inductive Statement
  | op (o : Opcode)
  | push (base : Base) (value : Word)
  | sizedPush (width : Nat) (base : Base) (value : Word)
  /-- Bytes that stand for themselves. -/
  | bytes (values : List (Base × UInt8))
  deriving DecidableEq, Repr

namespace Statement

/-- The line that says it. -/
def text : Statement → List Char
  | op o => o.mnemonic.toList
  | push base value => "PUSH ".toList ++ base.text value.toNat
  | sizedPush width base value =>
    "PUSH".toList ++ Nat.toDigits 10 width ++ ' ' :: base.text value.toNat
  | bytes values =>
    ".byte".toList ++ values.flatMap fun (base, b) => ' ' :: base.text b.toNat

/-- The instructions that it stands for. -/
def instructions : Statement → List Instruction
  | op o => [.op o]
  | push _ value => [.push value]
  | sizedPush width _ value => [.sizedPush width value]
  | bytes values => values.map fun (_, b) => .raw b

end Statement

/-- The text of a listing, a statement on each line. -/
def print (statements : List Statement) : List Char :=
  ['\n'].intercalate (statements.map Statement.text)

end Stack256.Listing
