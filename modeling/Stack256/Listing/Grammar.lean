import Mathlib
import Stack256.Listing.Line

/-!
# Stack256.Listing.Grammar — the lines of a listing, rule by rule

`Answer room tokens cause out` says what a line with the given tokens is answered with where a
buffer has room for `room` bytes: an error, or none, and the bytes that are written.  Each rule is
for one kind of line, and what stands before a rule is all that the rule asks for; that no two rules
answer one line differently is a theorem about them.  `LineAnswer` is the same for a line as text.
-/

namespace Stack256.Listing

/-- The text consists of the given tokens, with white space between them and around them. -/
inductive Spaced : List Char → List (List Char) → Prop
  | nil : Spaced [] []
  | blank {c : Char} {text : List Char} {ts : List (List Char)} :
    Text.isBlank c = true → Spaced text ts → Spaced (c :: text) ts
  | token {t text : List Char} {ts : List (List Char)} :
    t ≠ [] → (∀ c ∈ t, Text.isBlank c = false) → (∀ c ∈ text.head?, Text.isBlank c = true) →
    Spaced text ts → Spaced (t ++ text) (t :: ts)

/-- The token is a number below 256, the value of the byte. -/
def StandsFor (token : List Char) (byte : UInt8) : Prop :=
  ∃ value, number? token = some value ∧ value.toNat = byte.toNat

/-- The name is that of a push: `PUSH` alone, or with the width of the push behind it. -/
inductive PushName : List Char → Option ℕ → Prop
  | plain {name : List Char} : Text.sameLetters name "PUSH".toList = true → PushName name none
  | sized {stem digits : List Char} {width : ℕ} :
    Text.sameLetters stem "PUSH".toList = true → Text.numeral? 10 digits = some width →
    1 ≤ width → width ≤ 32 → PushName (stem ++ digits) (some width)

/-- The push of a value that a name with this width asks for. -/
def pushOf : Option ℕ → Word → Instruction
  | none, value => .push value
  | some width, value => .sizedPush width value

/-- What a line is answered with whose first token is `name`. -/
inductive Reply (room : ℕ) (name : List Char) :
    List (List Char) → Option LineError → List UInt8 → Prop
  | unknownDirective {operands : List (List Char)} :
    name.head? = some '.' → Text.sameLetters name ".byte".toList = false →
    Reply room name operands (some .unknownDirective) []
  | noBytes :
    Text.sameLetters name ".byte".toList = true → Reply room name [] (some .tooFewOperands) []
  | bytes {operands : List (List Char)} {out : List UInt8} :
    Text.sameLetters name ".byte".toList = true → operands ≠ [] →
    List.Forall₂ StandsFor operands out → out.length ≤ room → Reply room name operands none out
  | byteNumber {pre post : List (List Char)} {token : List Char} {out : List UInt8} :
    Text.sameLetters name ".byte".toList = true → List.Forall₂ StandsFor pre out →
    out.length ≤ room → (∀ byte, ¬ StandsFor token byte) →
    Reply room name (pre ++ token :: post) (some .badNumber) out
  | byteRoom {pre post : List (List Char)} {token : List Char} {byte : UInt8} {out : List UInt8} :
    Text.sameLetters name ".byte".toList = true → List.Forall₂ StandsFor pre out →
    out.length = room → StandsFor token byte →
    Reply room name (pre ++ token :: post) (some (.emit .full)) out
  | pushMissing {width : Option ℕ} :
    PushName name width → Reply room name [] (some .tooFewOperands) []
  | pushExtra {width : Option ℕ} {operands : List (List Char)} :
    PushName name width → 1 < operands.length → Reply room name operands (some .tooManyOperands) []
  | pushNumber {width : Option ℕ} {token : List Char} :
    PushName name width → number? token = none → Reply room name [token] (some .badNumber) []
  | pushWidth {width : ℕ} {token : List Char} {value : Word} :
    PushName name (some width) → number? token = some value → 256 ^ width ≤ value.toNat →
    Reply room name [token] (some (.emit (.width (.tooNarrow width)))) []
  | pushRoom {width : Option ℕ} {token : List Char} {value : Word} {code : List UInt8} :
    PushName name width → number? token = some value → (pushOf width value).encode = .ok code →
    room < code.length → Reply room name [token] (some (.emit .full)) []
  | push {width : Option ℕ} {token : List Char} {value : Word} {code : List UInt8} :
    PushName name width → number? token = some value → (pushOf width value).encode = .ok code →
    code.length ≤ room → Reply room name [token] none code
  | unknownInstruction {operands : List (List Char)} :
    name.head? ≠ some '.' → (∀ width, ¬ PushName name width) →
    (∀ o : Opcode, Text.sameLetters o.mnemonic.toList name = false) →
    Reply room name operands (some .unknownInstruction) []
  | opExtra {o : Opcode} {operands : List (List Char)} :
    Text.sameLetters o.mnemonic.toList name = true → operands ≠ [] →
    Reply room name operands (some .tooManyOperands) []
  | opRoom {o : Opcode} :
    Text.sameLetters o.mnemonic.toList name = true → room = 0 →
    Reply room name [] (some (.emit .full)) []
  | op {o : Opcode} :
    Text.sameLetters o.mnemonic.toList name = true → 0 < room → Reply room name [] none [o.byte]

/-- What a line with the given tokens is answered with. -/
inductive Answer (room : ℕ) : List (List Char) → Option LineError → List UInt8 → Prop
  | blank : Answer room [] none []
  | tooManyTokens {ts : List (List Char)} :
    tokenLimit < ts.length → Answer room ts (some .tooManyTokens) []
  | reply {name : List Char} {operands : List (List Char)} {cause : Option LineError}
      {out : List UInt8} :
    (name :: operands).length ≤ tokenLimit → Reply room name operands cause out →
    Answer room (name :: operands) cause out

/-- What a line is answered with: its comment counts for nothing. -/
def LineAnswer (room : ℕ) (line : List Char) (cause : Option LineError) (out : List UInt8) : Prop :=
  ∃ ts, Spaced (beforeComment line) ts ∧ Answer room ts cause out

end Stack256.Listing
