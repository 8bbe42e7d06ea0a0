/-!
# Stack256.Text — texts as lists of characters

A text may be cut at single characters (`pieces`), and so into lines (`lines`).  White space is what
has the Unicode property `White_Space`; only the letters `A` to `Z` have a case; and a numeral is
read in a base up to sixteen.
-/

namespace Stack256.Text

/-! ### Pieces -/

/-- The pieces of a text between the characters that satisfy `cut`.  These are dropped, and between
two that are neighbours stands an empty piece. -/
def pieces (cut : Char → Bool) : List Char → List (List Char)
  | [] => [[]]
  | c :: rest =>
    if cut c then [] :: pieces cut rest
    else (pieces cut rest).modifyHead (c :: ·)

theorem length_pieces (cut : Char → Bool) (s : List Char) :
    (pieces cut s).length = s.countP cut + 1 := by
  induction s with
  | nil => rfl
  | cons c rest ih => by_cases h : cut c <;> simp [pieces, h, ih]

/-- A text without cuts is its own only piece. -/
theorem pieces_of_all_not {cut : Char → Bool} {s : List Char} (h : ∀ c ∈ s, cut c = false) :
    pieces cut s = [s] := by
  induction s with
  | nil => rfl
  | cons c rest ih =>
    simp only [List.mem_cons, forall_eq_or_imp] at h
    simp [pieces, h.1, ih h.2]

/-! ### Lines -/

/-- The text without the carriage return at its end, if it has one. -/
def dropReturn (s : List Char) : List Char :=
  if s.getLast? = some '\r' then s.dropLast else s

/-- The lines of a text, without their line ends.  A carriage return before a line break belongs to
the line end.  What is behind the last line break is a line only if it is not empty, and a carriage
return at its end belongs to the line. -/
def lines (source : List Char) : List (List Char) :=
  let all := pieces (· == '\n') source
  all.dropLast.map dropReturn ++ all.getLast?.toList.filter (! ·.isEmpty)

/-! ### White space -/

/-- The ranges of the property `White_Space`, both ends included. -/
def blankRanges : List (Nat × Nat) :=
  [(0x09, 0x0d), (0x20, 0x20), (0x85, 0x85), (0xa0, 0xa0), (0x1680, 0x1680), (0x2000, 0x200a),
   (0x2028, 0x2029), (0x202f, 0x202f), (0x205f, 0x205f), (0x3000, 0x3000)]

/-- The character is white space. -/
def isBlank (c : Char) : Bool :=
  blankRanges.any fun (low, high) => decide (low ≤ c.toNat) && decide (c.toNat ≤ high)

/-- The text without the white space at its ends. -/
def trim (s : List Char) : List Char :=
  ((s.dropWhile isBlank).reverse.dropWhile isBlank).reverse

/-! ### Letter case -/

/-- The two texts are equal up to the case of the letters `A` to `Z`. -/
def sameLetters (s t : List Char) : Bool :=
  s.map Char.toLower == t.map Char.toLower

/-- Case is all that `sameLetters` ignores. -/
theorem sameLetters_iff (s t : List Char) :
    sameLetters s t = true ↔ s.map Char.toLower = t.map Char.toLower := by
  simp [sameLetters]

theorem sameLetters_self (s : List Char) : sameLetters s s = true := by
  simp [sameLetters]

/-! ### Numerals -/

/-- The value of a character as a digit of base sixteen, in either letter case. -/
def hexDigit? (c : Char) : Option Nat :=
  if '0' ≤ c ∧ c ≤ '9' then some (c.toNat - '0'.toNat)
  else if 'a' ≤ c ∧ c ≤ 'f' then some (c.toNat - 'a'.toNat + 10)
  else if 'A' ≤ c ∧ c ≤ 'F' then some (c.toNat - 'A'.toNat + 10)
  else none

/-- The value of a character as a digit of the base, which is at most sixteen. -/
def digit? (base : Nat) (c : Char) : Option Nat :=
  (hexDigit? c).filter (· < base)

/-- The number with the given digits, the highest first. -/
def ofDigits (base : Nat) (digits : List Nat) : Nat :=
  digits.foldl (fun n d => base * n + d) 0

/-- The value of one or more digits.  Zeros in front are allowed, and nothing bounds the value. -/
def digits? (base : Nat) (s : List Char) : Option Nat :=
  if s = [] then none else (s.mapM (digit? base)).map (ofDigits base)

/-- The value of a numeral: an optional plus sign, then one or more digits. -/
def numeral? (base : Nat) : List Char → Option Nat
  | '+' :: s => digits? base s
  | s => digits? base s

/-- The byte in base sixteen: two digits, with lower-case letters. -/
def hexByte (b : UInt8) : String :=
  String.ofList [Nat.digitChar (b.toNat / 16), Nat.digitChar (b.toNat % 16)]

end Stack256.Text
