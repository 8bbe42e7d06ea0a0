import Stack256.Word

/-!
# Stack256.Word.Storage — words in registers and blocks of fixed size

The place of a bit in a word is held in a register of 32 bits: sums and products of places wrap
there, and a shift takes its place modulo the width of a word.  The bytes of a word are read from a
block of 32 bytes.  Of a longer byte string the last 32 bytes are cut out first, and what is left is
copied over the end of a block of zeros.  The other way round, the data of a push are cut out of the
block that a word is written to.
-/

namespace Stack256.Word

/-! ### Places of bits -/

/-- The word moved up by the place. -/
def shiftUp (w : Word) (place : UInt32) : Word :=
  w <<< (place.toNat % 256)

/-- The word moved down by the place. -/
def shiftDown (w : Word) (place : UInt32) : Word :=
  w >>> (place.toNat % 256)

/-- The bit at the place is set. -/
def isSet (w : Word) (place : UInt32) : Bool :=
  shiftDown w place &&& 1 != 0

/-- The number of places up to the highest bit that is set. -/
def significant (w : Word) : Nat :=
  256 - w.clz.toNat

/-- The place of the sign bit of a value of `k + 1` bytes.  Of `k` only the lowest 32 bits reach the
register. -/
def signPlace (k : Word) : UInt32 :=
  UInt32.ofNat k.toNat * 8 + 7

/-- The sign extension with its places in registers. -/
def signExtendIn (k v : Word) : Word :=
  if 31 ≤ k then v
  else
    let mask := shiftUp 1 (signPlace k + 1) - 1
    if isSet v (signPlace k) then v ||| ~~~mask else v &&& mask

/-! ### Blocks of bytes -/

/-- The bytes from a place on, unless the place is behind them all. -/
def bytesFrom? (l : List UInt8) (place : Nat) : Option (List UInt8) :=
  if place ≤ l.length then some (l.drop place) else none

/-- Copies bytes over those of a block from a place on.  A place behind the block leaves it as it
is; otherwise the two have to be of one length. -/
def copyFrom? (block : List UInt8) (place : Nat) (l : List UInt8) : Option (List UInt8) :=
  match bytesFrom? block place with
  | none => some block
  | some stretch => if stretch.length = l.length then some (block.take place ++ l) else none

/-- The block that a byte string is read through. -/
def block? (l : List UInt8) : Option (List UInt8) :=
  let last := (bytesFrom? l (l.length - 32)).getD l
  copyFrom? (List.replicate 32 0) (32 - last.length) last

/-- The word that is read through the block. -/
def readBlock? (l : List UInt8) : Option Word :=
  (block? l).map ofBytes

/-- The data of a push of the given width, cut out of the block that the value is written to. -/
def pushData? (width : Nat) (value : Word) : Option (List UInt8) :=
  bytesFrom? (value.bytes 32) (32 - width)

end Stack256.Word
