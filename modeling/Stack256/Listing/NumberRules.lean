import Mathlib
import Stack256.Listing.Line
import Stack256.Listing.Printer
import Stack256.Semantics.Integer

/-!
# Stack256.Listing.NumberRules — the form of a number, rule by rule

`NumberToken token w` says that a token is a number and stands for the word `w`: a minus sign or
none, the mark of base sixteen or none, a plus sign or none, and then digits to the end of the
token.  The value of digits is that of `Nat.ofDigits`, which takes the lowest digit
first.  `integerText` is the other direction: the text of an integer in either base.
-/

namespace Stack256.Listing

open Semantics

/-- The character is the digit `d` of the base, in either letter case. -/
def IsDigit (base : ℕ) (c : Char) (d : ℕ) : Prop :=
  d < base ∧ (c = d.digitChar ∨ c = d.digitChar.toUpper)

/-- The text is one or more digits, the highest first, of the given number. -/
def Digits (base : ℕ) (text : List Char) (n : ℕ) : Prop :=
  text ≠ [] ∧ ∃ values : List ℕ,
    List.Forall₂ (IsDigit base) text values ∧ n = Nat.ofDigits base values.reverse

/-- What stands before the digits of a base. -/
inductive Mark : ℕ → List Char → Prop
  | ten : Mark 10 []
  | sixteen : Mark 16 ['0', 'x']
  | sixteenUpper : Mark 16 ['0', 'X']

/-- The text is a number without a minus sign. -/
inductive Unsigned : List Char → ℕ → Prop
  | bare {base n : ℕ} {mark digits : List Char} :
    Mark base mark → Digits base digits n → Unsigned (mark ++ digits) n
  | plus {base n : ℕ} {mark digits : List Char} :
    Mark base mark → Digits base digits n → Unsigned (mark ++ '+' :: digits) n

/-- The token is a number whose magnitude is a word, and stands for that word or for its negative.
-/
inductive NumberToken : List Char → Word → Prop
  | positive {text : List Char} {n : ℕ} {w : Word} :
    Unsigned text n → n ≤ modulus - 1 → w.toNat = n % modulus → NumberToken text w
  | negative {text : List Char} {n : ℕ} {w : Word} :
    Unsigned text n → n ≤ modulus - 1 → w.toNat = (modulus - n) % modulus →
    NumberToken ('-' :: text) w

/-- The text of an integer in the given base: its sign, if it is negative, and its magnitude. -/
def integerText (base : Base) (z : ℤ) : List Char :=
  if z < 0 then '-' :: base.text z.natAbs else base.text z.natAbs

end Stack256.Listing
