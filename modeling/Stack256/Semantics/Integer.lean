import Mathlib
import Stack256.Opcode.Basic

/-!
# Stack256.Semantics.Integer — the opcodes over the integers

What each opcode computes, said in arithmetic: a word is its unsigned value, a natural number below
`modulus`, and `signed` is its signed one.  A result outside that range is brought back into it by
`wrap`, which keeps it modulo `2 ^ 256`.
-/

namespace Stack256.Semantics

/-- The number of words. -/
def modulus : Nat := 2 ^ 256

/-- The word that is congruent to an integer. -/
def wrap (z : Int) : Nat :=
  (z % modulus).toNat

/-- The integer between `-2 ^ 255` and `2 ^ 255 - 1` that is congruent to a word. -/
def signed (n : Nat) : Int :=
  Int.bmod n modulus

/-- One for true, zero for false. -/
def truth (p : Prop) [Decidable p] : Nat :=
  if p then 1 else 0

/-- The value of a byte string: its bytes are the digits in base 256, the highest first. -/
def bigEndian : List UInt8 → Nat
  | [] => 0
  | b :: rest => b.toNat * 256 ^ rest.length + bigEndian rest

/-- The stack after an opcode; none where the stack holds too few words.  `Int.tdiv` rounds toward
zero, `Int.tmod` is the remainder that belongs to it, and `Int.bmod v m` is the integer from
`-m / 2` up to but without `m / 2` that is congruent to `v`. -/
def after? : Opcode → List Nat → Option (List Nat)
  | .stop, s => some s
  | .add, a :: b :: s => some ((a + b) % modulus :: s)
  | .mul, a :: b :: s => some (a * b % modulus :: s)
  | .sub, a :: b :: s => some (wrap ((a : Int) - b) :: s)
  | .div, a :: b :: s => some ((if b = 0 then 0 else a / b) :: s)
  | .sdiv, a :: b :: s => some ((if b = 0 then 0 else wrap (Int.tdiv (signed a) (signed b))) :: s)
  | .mod, a :: b :: s => some ((if b = 0 then 0 else a % b) :: s)
  | .smod, a :: b :: s => some ((if b = 0 then 0 else wrap (Int.tmod (signed a) (signed b))) :: s)
  | .addmod, a :: b :: c :: s => some ((if c = 0 then 0 else (a + b) % modulus % c) :: s)
  | .mulmod, a :: b :: c :: s => some ((if c = 0 then 0 else a * b % c) :: s)
  | .exp, a :: b :: s => some (a ^ b % modulus :: s)
  | .signextend, a :: b :: s =>
    some ((if 31 ≤ a then b else wrap (Int.bmod b (256 ^ (a + 1)))) :: s)
  | .lt, a :: b :: s => some (truth (a < b) :: s)
  | .gt, a :: b :: s => some (truth (b < a) :: s)
  | .slt, a :: b :: s => some (truth (signed a < signed b) :: s)
  | .sgt, a :: b :: s => some (truth (signed b < signed a) :: s)
  | .eq, a :: b :: s => some (truth (a = b) :: s)
  | .iszero, a :: s => some (truth (a = 0) :: s)
  | .pop, _ :: s => some s
  | .push0, s => some (0 :: s)
  | _, _ => none

end Stack256.Semantics
