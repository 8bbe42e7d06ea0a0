import Stack256.Listing.Line

/-!
# Stack256.Listing.Assembly — a listing turned into code

The lines of a listing are numbered from one, and every line counts, blank or faulty ones too.  An
`Assembly` takes lines one at a time and goes on after a faulty one.  The number of the line lies in
a register, and a line for which the register holds no number is refused unread
(`Assembly.feedIn`).  `Assembly.ofSourceIn` takes the lines of a text up to the first that is faulty
or refused.
-/

namespace Stack256

/-- What is wrong with a line, and the number of the line. -/
structure ListingError where
  line : Nat
  cause : LineError
  deriving DecidableEq, Repr

/-- Why a line is not taken. -/
inductive RegisterError
  /-- The register holds no number for the line. -/
  | exhausted
  | listing (error : ListingError)
  deriving DecidableEq, Repr

/-- The number of the line at fault, if it has one. -/
def RegisterError.line? : RegisterError → Option Nat
  | exhausted => none
  | listing e => some e.line

/-- Code under construction from a listing. -/
structure Assembly where
  buffer : CodeBuffer
  /-- The number of lines taken so far. -/
  lines : Nat := 0
  deriving DecidableEq, Repr

namespace Assembly

/-- The largest number that a register of 32 bits holds. -/
def lineLimit : Nat := 0xffffffff

/-- Takes one line, if the numbers up to `limit` have one for it.  The line is rid of the white
space at its ends before anything else, and one of which nothing is left is not taken apart.  A line
break within the line is white space like any other. -/
def feedIn (limit : Nat) (a : Assembly) (line : List Char) : Option RegisterError × Assembly :=
  if a.lines < limit then
    let number := a.lines + 1
    let text := Text.trim (Listing.beforeComment line)
    if text.isEmpty then (none, { a with lines := number })
    else
      let (error, buffer) := (Listing.Plan.ofTokens (Listing.tokens text)).write a.buffer
      (error.map fun cause => .listing ⟨number, cause⟩, ⟨buffer, number⟩)
  else (some .exhausted, a)

/-- Takes lines up to the first that is not taken.  What was written before it stays. -/
def feedAllIn (limit : Nat) (a : Assembly) :
    List (List Char) → Option RegisterError × Assembly
  | [] => (none, a)
  | line :: rest =>
    match a.feedIn limit line with
    | (some e, t) => (some e, t)
    | (none, t) => t.feedAllIn limit rest

/-- The code of a whole listing, written into a memory. -/
def ofSourceIn (limit : Nat) (source : List Char) (memory : List UInt8) :
    Option RegisterError × Assembly :=
  feedAllIn limit { buffer := .ofMemory memory } (Text.lines source)

end Assembly

end Stack256
