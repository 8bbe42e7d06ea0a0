import Stack256.CodeBuffer

/-!
# Stack256.Listing.Line — the instructions of one line

A line holds at most one statement, and a semicolon starts a comment.  A statement is a list of
words of text, its tokens, between white space:

* an opcode by its name, `PUSH` and a number, or `PUSH` with a width and a number, as in `PUSH2 7`;
* the directive `.byte` and one or more numbers below 256, which stand for themselves.

Letter case means nothing.  A number is an optional minus sign, then `0x` or `0X` if its digits are
in base sixteen, then a numeral.  The numeral has to be below `2 ^ 256`; a minus sign negates it as
a word.

A line is first turned into a `Plan`, and the plan is then written into a buffer up to its first
error.
-/

namespace Stack256

/-- What is wrong with a line. -/
inductive LineError
  | tooManyTokens
  | unknownDirective
  | unknownInstruction
  | badNumber
  | tooFewOperands
  | tooManyOperands
  /-- The line is well formed, but an instruction of it could not be written. -/
  | emit (cause : EmitError)
  deriving DecidableEq, Repr

namespace Listing

/-! ### Numbers -/

/-- The word with the given unsigned value, if there is one. -/
def wordOf? (n : Nat) : Option Word :=
  let w := BitVec.ofNat 256 n
  if w.toNat = n then some w else none

/-- Reads a number without a minus sign. -/
def magnitude? : List Char → Option Word
  | '0' :: 'x' :: s | '0' :: 'X' :: s => (Text.numeral? 16 s).bind wordOf?
  | s => (Text.numeral? 10 s).bind wordOf?

/-- Reads a number. -/
def number? : List Char → Option Word
  | '-' :: s => (magnitude? s).map (- ·)
  | s => magnitude? s

/-! ### Tokens -/

/-- The largest number of tokens that a line may have. -/
def tokenLimit : Nat := 40

/-- The part of a line before its comment. -/
def beforeComment (line : List Char) : List Char :=
  line.takeWhile (· != ';')

/-- The pieces of a text between white space. -/
def tokens (text : List Char) : List (List Char) :=
  (Text.pieces Text.isBlank text).filter (! ·.isEmpty)

/-! ### Instructions -/

/-- The width in a name such as `PUSH2`.  The digits may have a plus sign and zeros before them. -/
def widthInName? (name : List Char) : Option Nat :=
  if Text.sameLetters (name.take 4) "PUSH".toList then
    (Text.numeral? 10 (name.drop 4)).filter fun width => decide (1 ≤ width ∧ width ≤ 32)
  else none

/-- Reads the only operand of a push. -/
def operand : List (List Char) → Except LineError Word
  | [] => .error .tooFewOperands
  | [token] => (number? token).elim (.error .badNumber) .ok
  | _ => .error .tooManyOperands

/-- The instruction with the given name and operands. -/
def instruction (name : List Char) (operands : List (List Char)) :
    Except LineError Instruction :=
  if Text.sameLetters name "PUSH".toList then (operand operands).map .push
  else
    match widthInName? name with
    | some width => (operand operands).map (.sizedPush width)
    | none =>
      match Opcode.ofMnemonic? name with
      | none => .error .unknownInstruction
      | some o => if operands.isEmpty then .ok (.op o) else .error .tooManyOperands

/-- The byte that an operand of `.byte` stands for. -/
def rawByte (token : List Char) : Except LineError Instruction :=
  match number? token with
  | none => .error .badNumber
  | some value =>
    if value.toNat ≤ 255 then .ok (.raw (UInt8.ofNat value.toNat)) else .error .badNumber

/-! ### Plans -/

/-- What a line asks for: instructions in order, each of which may turn out to be an error. -/
abbrev Plan := List (Except LineError Instruction)

namespace Plan

/-- The plan of a directive: one raw byte for each operand of `.byte`. -/
def ofDirective (name : List Char) (operands : List (List Char)) : Plan :=
  if Text.sameLetters name ".byte".toList then
    if operands.isEmpty then [.error .tooFewOperands] else operands.map rawByte
  else [.error .unknownDirective]

/-- The plan of a line with the given tokens.  A name that starts with a point is a directive. -/
def ofTokens : List (List Char) → Plan
  | [] => []
  | name :: operands =>
    if tokenLimit < operands.length + 1 then [.error .tooManyTokens]
    else if name.head? = some '.' then ofDirective name operands
    else [instruction name operands]

/-- The plan of a line. -/
def ofLine (line : List Char) : Plan :=
  ofTokens (tokens (beforeComment line))

/-- Writes the instructions of a plan up to the first error, which is either one in the plan or one
in writing.  What was written before it stays. -/
def write : Plan → CodeBuffer → Option LineError × CodeBuffer
  | [], b => (none, b)
  | .error e :: _, b => (some e, b)
  | .ok instruction :: rest, b =>
    match b.emit instruction with
    | .error e => (some (.emit e), b)
    | .ok t => write rest t

end Plan

end Listing

end Stack256
