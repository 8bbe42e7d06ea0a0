import Mathlib
import Stack256.Listing.Assembly
import Stack256.Proofs.CodeBuffer.Extension
import Stack256.Proofs.Listing.Line

/-!
# Stack256.Proofs.Listing.Output — what a line writes

A plan meets its first error on account of the room alone (`Plan.output`), whatever the buffer holds
and whatever was written before.  A line that has a number is taken by `Assembly.feed`, and one that
has none is refused (`feedIn_eq`).  Taking a line is one equation (`feed_eq`): the error, if there
is one, gets the number of the line, and the buffer is extended by the output.
-/

namespace Stack256

namespace Listing.Plan

/-- The error that a plan meets where there is room for `room` bytes, and the bytes it writes. -/
def output : Plan → ℕ → Option LineError × List UInt8
  | [], _ => (none, [])
  | .error e :: _, _ => (some e, [])
  | .ok i :: rest, room =>
    match i.output room with
    | .error e => (some (.emit e), [])
    | .ok code =>
      ((output rest (room - code.length)).1, code ++ (output rest (room - code.length)).2)

variable {i : Instruction} {room : ℕ}

theorem output_ok_of_error {e : EmitError} (h : i.output room = .error e) (p : Plan) :
    output (.ok i :: p) room = (some (.emit e), []) := by
  rw [output, h]

theorem output_ok_of_ok {code : List UInt8} (h : i.output room = .ok code) (p : Plan) :
    output (.ok i :: p) room =
      ((output p (room - code.length)).1, code ++ (output p (room - code.length)).2) := by
  rw [output, h]

theorem length_output_le (p : Plan) (room : ℕ) : (p.output room).2.length ≤ room := by
  induction p generalizing room with
  | nil => exact Nat.zero_le _
  | cons entry p ih =>
    rcases entry with e | i
    · exact Nat.zero_le _
    · cases h : i.output room with
      | error e =>
        rw [output_ok_of_error h]
        exact Nat.zero_le _
      | ok code =>
        have hcode := (Instruction.output_eq_ok_iff.1 h).2
        have hrest := ih (room - code.length)
        rw [output_ok_of_ok h, List.length_append]
        omega

/-- A plan extends the buffer by its output. -/
theorem write_eq (p : Plan) (b : CodeBuffer) :
    p.write b = ((p.output b.spare.length).1, b.extend (p.output b.spare.length).2) := by
  induction p generalizing b with
  | nil => rw [write, output, CodeBuffer.extend_nil]
  | cons entry p ih =>
    rcases entry with e | i
    · rw [write, output, CodeBuffer.extend_nil]
    · rw [write, CodeBuffer.emit_eq_map]
      cases h : i.output b.spare.length with
      | error e =>
        rw [output_ok_of_error h, CodeBuffer.extend_nil]
        rfl
      | ok code =>
        rw [output_ok_of_ok h, CodeBuffer.extend_append, ← CodeBuffer.length_spare_extend]
        exact ih (b.extend code)

end Listing.Plan

namespace Assembly

open Listing

variable {a : Assembly} {line : List Char} {m : List UInt8}

/-- What comes of a line that has a number. -/
def feed (a : Assembly) (line : List Char) : Option ListingError × Assembly :=
  let number := a.lines + 1
  let (error, buffer) := (Plan.ofLine line).write a.buffer
  (error.map fun cause => ⟨number, cause⟩, ⟨buffer, number⟩)

theorem feed_eq (a : Assembly) (line : List Char) :
    a.feed line =
      (((Plan.ofLine line).output a.buffer.spare.length).1.map fun cause => ⟨a.lines + 1, cause⟩,
        ⟨a.buffer.extend ((Plan.ofLine line).output a.buffer.spare.length).2, a.lines + 1⟩) := by
  rw [feed, Plan.write_eq]

theorem lines_feed (a : Assembly) (line : List Char) : (a.feed line).2.lines = a.lines + 1 := rfl

theorem line_of_feed {e : ListingError} (h : (a.feed line).1 = some e) : e.line = a.lines + 1 := by
  rw [feed_eq] at h
  obtain ⟨cause, -, rfl⟩ := Option.map_eq_some_iff.1 h
  rfl

theorem over_feed (h : CodeBuffer.Over m a.buffer) (line : List Char) :
    CodeBuffer.Over m (a.feed line).2.buffer := by
  rw [feed_eq]
  exact h.extend (Plan.length_output_le _ _)

/-! ### Numbers in a register -/

variable {limit : ℕ}

theorem feedIn_of_lt (h : a.lines < limit) (line : List Char) :
    a.feedIn limit line = ((a.feed line).1.map .listing, (a.feed line).2) := by
  have hblank : (Text.trim (beforeComment line)).isEmpty = true →
      Plan.ofLine line = [] := by
    intro hempty
    rw [Plan.ofLine, ← tokens_trim, List.isEmpty_iff.1 hempty]
    rfl
  rw [feedIn, if_pos h, feed]
  dsimp only
  split_ifs with hempty
  · rw [hblank hempty]
    rfl
  · rw [tokens_trim, ← Plan.ofLine, Option.map_map]
    rfl

theorem feedIn_of_le (h : limit ≤ a.lines) (line : List Char) :
    a.feedIn limit line = (some .exhausted, a) :=
  if_neg (not_lt.2 h)

theorem feedIn_eq (limit : ℕ) (a : Assembly) (line : List Char) :
    a.feedIn limit line =
      if a.lines < limit then ((a.feed line).1.map .listing, (a.feed line).2)
      else (some .exhausted, a) := by
  split_ifs with h
  · exact feedIn_of_lt h line
  · exact feedIn_of_le (not_lt.1 h) line

/-- An error is in the line that is taken, unless there is no number for it. -/
theorem line?_of_feedIn {e : RegisterError} (h : (a.feedIn limit line).1 = some e) :
    e.line? = if a.lines < limit then some (a.lines + 1) else none := by
  rw [feedIn_eq] at h
  split_ifs at h ⊢
  · obtain ⟨fault, hfault, rfl⟩ := Option.map_eq_some_iff.1 h
    exact congrArg some (line_of_feed hfault)
  · obtain rfl := Option.some.inj h
    rfl

theorem over_feedIn (h : CodeBuffer.Over m a.buffer) (limit : ℕ) (line : List Char) :
    CodeBuffer.Over m (a.feedIn limit line).2.buffer := by
  rw [feedIn_eq]
  split_ifs
  · exact over_feed h line
  · exact h

end Assembly

end Stack256
