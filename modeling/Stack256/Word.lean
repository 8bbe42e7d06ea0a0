/-!
# Stack256.Word — the 256-bit word and its operations

A word is a bit vector of width 256, so `+`, `-`, `*` and unary `-` wrap modulo `2 ^ 256`, `<`
compares unsigned readings, and `toInt` is the two's-complement reading.  The loops of `mulMod` and
`pow` walk `Word.digits`, the binary digits of a word with the highest first.  Bytes are big-endian.
-/

namespace Stack256

/-- An unsigned integer below `2 ^ 256`: what the stack holds and every opcode computes with. -/
abbrev Word := BitVec 256

namespace Word

/-- The truth values as words: one for true, zero for false. -/
def ofBool (b : Bool) : Word :=
  if b then 1 else 0

@[simp] theorem toNat_ofBool (b : Bool) : (ofBool b).toNat = b.toNat := by
  cases b <;> rfl

/-! ### Binary digits -/

/-- The number of binary digits of `w` without leading zeros, so none for zero. -/
def digitCount (w : Word) : Nat :=
  if w = 0 then 0 else w.toNat.log2 + 1

/-- The bits of `w` at positions `n - 1` down to `0`. -/
def bitsBelow (w : Word) : Nat → List Bool
  | 0 => []
  | n + 1 => w.getLsbD n :: bitsBelow w n

/-- The binary digits of `w`, the highest first and without leading zeros. -/
def digits (w : Word) : List Bool :=
  bitsBelow w (digitCount w)

/-! ### Quotients and remainders

Division by zero is no error: each of these operations is zero when its divisor is. -/

/-- Unsigned quotient, rounded down. -/
def div (a b : Word) : Word :=
  if b = 0 then 0 else a / b

/-- Unsigned remainder. -/
def mod (a b : Word) : Word :=
  if b = 0 then 0 else a % b

/-- Signed quotient, rounded toward zero.  The one that leaves the signed range, `-2 ^ 255` by `-1`,
wraps back to its dividend. -/
def sdiv (a b : Word) : Word :=
  if b = 0 then 0 else BitVec.sdiv a b

/-- Signed remainder, with the sign of the dividend. -/
def smod (a b : Word) : Word :=
  if b = 0 then 0 else BitVec.srem a b

/-- Remainder of the sum, which is wrapped to a word before it is divided. -/
def addMod (a b m : Word) : Word :=
  mod (a + b) m

/-! ### Modular product and power

Both walk the binary digits of one operand: a product doubles and adds, a power squares and
multiplies.  The running result of a product stays below the modulus. -/

/-- The sum of two residues below `m`, as a residue below `m`.  Where the sum leaves the word range,
taking `m` from the wrapped sum gives the same residue, since the exact sum is below `2 * m`. -/
def addBelow (m x y : Word) : Word :=
  if x.uaddOverflow y ∨ m ≤ x + y then x + y - m else x + y

/-- One step of the product: `r` doubled, and `a` added when the digit is set. -/
def mulModStep (a m r : Word) (digit : Bool) : Word :=
  let doubled := addBelow m r r
  if digit then addBelow m doubled a else doubled

/-- Remainder of the exact product, which may have up to 512 bits; zero for modulus zero. -/
def mulMod (a b m : Word) : Word :=
  if m = 0 then 0 else (digits b).foldl (mulModStep (mod a m) m) 0

/-- One step of the power: `r` squared, and multiplied by the base when the digit is set. -/
def powStep (base r : Word) (digit : Bool) : Word :=
  if digit then r * r * base else r * r

/-- The power of `base`, wrapped to a word; every base to the power zero is one. -/
def pow (base exponent : Word) : Word :=
  (digits exponent).foldl (powStep base) 1

/-! ### Sign extension -/

/-- The word whose `n` lowest bits are set. -/
def lowMask (n : Nat) : Word :=
  (1 <<< n) - 1

/-- Reads the bytes `k` down to `0` of `v` as a two's-complement integer and widens it to a word:
the sign bit at position `8 * k + 7` fills every higher bit.  From byte 31 on nothing is left to
fill, and `v` comes back unchanged. -/
def signExtend (k v : Word) : Word :=
  if 31 ≤ k then v
  else
    let sign := 8 * k.toNat + 7
    let mask := lowMask (sign + 1)
    if v.getLsbD sign then v ||| ~~~mask else v &&& mask

/-! ### Bytes -/

/-- The big-endian value of a byte string.  Strings of more than 32 bytes wrap, so that only their
last 32 bytes count. -/
def ofBytes (bytes : List UInt8) : Word :=
  bytes.foldl (fun w b => w * 256 + BitVec.ofNat 256 b.toNat) 0

/-- The byte of weight `256 ^ i`. -/
def byte (w : Word) (i : Nat) : UInt8 :=
  UInt8.ofNat (w >>> (8 * i)).toNat

/-- The `n` lowest bytes of `w`, the highest of them first. -/
def bytes (w : Word) : Nat → List UInt8
  | 0 => []
  | n + 1 => byte w n :: bytes w n

/-- The least number of bytes that hold `w`, so none for zero. -/
def byteCount (w : Word) : Nat :=
  (digitCount w + 7) / 8

@[simp] theorem length_bytes (w : Word) (n : Nat) : (bytes w n).length = n := by
  induction n with
  | zero => rfl
  | succ n ih => simp [bytes, ih]

end Word

end Stack256
