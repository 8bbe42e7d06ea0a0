import Mathlib
import Stack256.Proofs.Listing.Register

/-!
# Stack256.Proofs.Listing.Room — a listing in a larger memory

What comes of the lines of a listing depends on how many bytes there is room for, and not on what
the memory held before (`Listing.outputAll`, `feedAll_eq`).  More room makes a difference only where
the lines ran out of it (`Widens`): they go on from there, so that nothing written is lost, and what
else is wrong with them is not found in an earlier line.  This holds of the instructions of a line
(`outputAt_widens`), and therefore of all lines (`outputAll_widens`).  Main statement:
`ofSourceIn_of_length_le`.
-/

namespace Stack256

namespace Listing

/-- What comes of lines: the first error, if there is one, and the bytes written. -/
abbrev NumberedOutput := Option ListingError × List UInt8

/-- How what comes of lines where there is room for `room` bytes compares with what comes of them in
a larger room. -/
inductive Widens (room : ℕ) : NumberedOutput → NumberedOutput → Prop
  /-- The lines had all the room they needed. -/
  | same {r : NumberedOutput} (h : ∀ line, r.1 ≠ some ⟨line, .emit .full⟩) : Widens room r r
  /-- The lines ran out of room, and get further in the larger one. -/
  | further {line : ℕ} {code : List UInt8} {r : NumberedOutput} (hpre : code <+: r.2)
      (hdone : r.1 = none → room < r.2.length) (hline : ∀ e, r.1 = some e → line ≤ e.line) :
      Widens room (some ⟨line, .emit .full⟩, code) r

namespace Widens

variable {room : ℕ} {r r' : NumberedOutput}

theorem refl (room : ℕ) (r : NumberedOutput) : Widens room r r := by
  by_cases h : ∃ line, r.1 = some ⟨line, .emit .full⟩
  · obtain ⟨error, code⟩ := r
    obtain ⟨line, rfl⟩ := h
    refine .further (List.prefix_refl code) ?_ ?_
    · rintro ⟨⟩
    · rintro e ⟨⟩
      exact le_refl line
  · exact .same (not_exists.1 h)

/-- The same bytes before both take the same room from both. -/
theorem append {code : List UInt8} (hcode : code.length ≤ room)
    (h : Widens (room - code.length) r r') :
    Widens room (r.1, code ++ r.2) (r'.1, code ++ r'.2) := by
  cases h with
  | same h => exact .same h
  | further hpre hdone hline =>
    refine .further ((List.prefix_append_right_inj code).2 hpre) ?_ hline
    intro hnone
    have := hdone hnone
    rw [List.length_append]
    omega

theorem eq_of_ne_full (h : Widens room r r') (hr : ∀ line, r.1 ≠ some ⟨line, .emit .full⟩) :
    r' = r := by
  cases h with
  | same _ => rfl
  | @further line _ _ _ _ _ => exact absurd rfl (hr line)

theorem further_of_full {line : ℕ} (h : Widens room r r')
    (hr : r.1 = some ⟨line, .emit .full⟩) :
    r.2 <+: r'.2 ∧
    (r'.1 = none ∧ room < r'.2.length ∨ ∃ e, r'.1 = some e ∧ line ≤ e.line) := by
  cases h with
  | same hne => exact absurd hr (hne line)
  | further hpre hdone hline =>
    obtain ⟨error, code⟩ := r'
    obtain ⟨⟩ := hr
    cases error with
    | none => exact ⟨hpre, .inl ⟨rfl, hdone rfl⟩⟩
    | some e => exact ⟨hpre, .inr ⟨e, rfl, hline e rfl⟩⟩

end Widens

/-! ### One line -/

namespace Plan

variable {room room' n : ℕ}

/-- The output of a plan that is the one of the given line. -/
def outputAt (n : ℕ) (p : Plan) (room : ℕ) : NumberedOutput :=
  ((p.output room).1.map fun cause => ⟨n, cause⟩, (p.output room).2)

theorem line_of_outputAt {e : ListingError} {p : Plan} (h : (p.outputAt n room).1 = some e) :
    e.line = n := by
  obtain ⟨cause, -, rfl⟩ := Option.map_eq_some_iff.1 h
  rfl

theorem outputAt_ok_of_ok {i : Instruction} {code : List UInt8} (h : i.output room = .ok code)
    (p : Plan) : outputAt n (.ok i :: p) room =
      ((p.outputAt n (room - code.length)).1, code ++ (p.outputAt n (room - code.length)).2) := by
  rw [outputAt, output_ok_of_ok h]
  rfl

theorem outputAt_ok_of_error {i : Instruction} {e : EmitError} (h : i.output room = .error e)
    (p : Plan) : outputAt n (.ok i :: p) room = (some ⟨n, .emit e⟩, []) := by
  rw [outputAt, output_ok_of_error h]
  rfl

/-- An instruction that does not fit where it was refused for want of room is longer than that. -/
theorem lt_length_outputAt_of_full {i : Instruction} (h : i.output room = .error .full) {p : Plan}
    (hdone : (outputAt n (.ok i :: p) room').1 = none) :
    room < (outputAt n (.ok i :: p) room').2.length := by
  obtain ⟨code, hcode, hlt⟩ := Instruction.output_eq_full_iff.1 h
  cases h' : i.output room' with
  | error e =>
    rw [outputAt_ok_of_error h'] at hdone
    cases hdone
  | ok code' =>
    obtain ⟨hcode', -⟩ := Instruction.output_eq_ok_iff.1 h'
    obtain rfl : code = code' := Except.ok.inj (hcode.symm.trans hcode')
    rw [outputAt_ok_of_ok h', List.length_append]
    omega

theorem outputAt_widens (n : ℕ) (h : room ≤ room') (p : Plan) :
    Widens room (p.outputAt n room) (p.outputAt n room') := by
  induction p generalizing room room' with
  | nil => exact .refl room _
  | cons entry p ih =>
    rcases entry with e | i
    · exact .refl room _
    · cases hi : i.output room with
      | ok code =>
        obtain ⟨hcode, hle⟩ := Instruction.output_eq_ok_iff.1 hi
        have hi' : i.output room' = .ok code :=
          Instruction.output_eq_ok_iff.2 ⟨hcode, hle.trans h⟩
        rw [outputAt_ok_of_ok hi, outputAt_ok_of_ok hi']
        exact (ih (Nat.sub_le_sub_right h code.length)).append hle
      | error e =>
        cases e with
        | full =>
          rw [outputAt_ok_of_error hi]
          refine .further List.nil_prefix (lt_length_outputAt_of_full hi) ?_
          intro e he
          exact (line_of_outputAt he).ge
        | width cause =>
          have hi' : i.output room' = .error (.width cause) :=
            Instruction.output_eq_width_iff.2 (Instruction.output_eq_width_iff.1 hi)
          rw [outputAt_ok_of_error hi, outputAt_ok_of_error hi']
          exact .refl room _

end Plan

/-! ### All lines -/

variable {room room' n : ℕ} {line : List Char} {ls : List (List Char)}

/-- The output of the lines behind the first `n`. -/
def outputAll : ℕ → List (List Char) → ℕ → NumberedOutput
  | _, [], _ => (none, [])
  | n, line :: rest, room =>
    match (Plan.ofLine line).outputAt (n + 1) room with
    | (some e, code) => (some e, code)
    | (none, code) =>
      ((outputAll (n + 1) rest (room - code.length)).1,
        code ++ (outputAll (n + 1) rest (room - code.length)).2)

theorem outputAll_cons_of_some {e : ListingError} {code : List UInt8}
    (h : (Plan.ofLine line).outputAt (n + 1) room = (some e, code)) (ls : List (List Char)) :
    outputAll n (line :: ls) room = (some e, code) := by
  rw [outputAll, h]

theorem outputAll_cons_of_none {code : List UInt8}
    (h : (Plan.ofLine line).outputAt (n + 1) room = (none, code)) (ls : List (List Char)) :
    outputAll n (line :: ls) room = ((outputAll (n + 1) ls (room - code.length)).1,
      code ++ (outputAll (n + 1) ls (room - code.length)).2) := by
  rw [outputAll, h]

theorem lt_line_of_outputAll {e : ListingError} (h : (outputAll n ls room).1 = some e) :
    n < e.line := by
  induction ls generalizing n room with
  | nil => cases h
  | cons line ls ih =>
    rcases hl : (Plan.ofLine line).outputAt (n + 1) room with ⟨_ | e', code⟩
    · rw [outputAll_cons_of_none hl] at h
      have := ih h
      omega
    · rw [outputAll_cons_of_some hl] at h
      have : e'.line = n + 1 := Plan.line_of_outputAt (congrArg Prod.fst hl)
      obtain rfl : e' = e := Option.some.inj h
      omega

theorem line_le_of_outputAll {e : ListingError} (h : (outputAll n ls room).1 = some e) :
    e.line ≤ n + ls.length := by
  induction ls generalizing n room with
  | nil => cases h
  | cons line ls ih =>
    rw [List.length_cons]
    rcases hl : (Plan.ofLine line).outputAt (n + 1) room with ⟨_ | e', code⟩
    · rw [outputAll_cons_of_none hl] at h
      have := ih h
      omega
    · rw [outputAll_cons_of_some hl] at h
      have : e'.line = n + 1 := Plan.line_of_outputAt (congrArg Prod.fst hl)
      obtain rfl : e' = e := Option.some.inj h
      omega

theorem outputAll_widens (n : ℕ) (h : room ≤ room') (ls : List (List Char)) :
    Widens room (outputAll n ls room) (outputAll n ls room') := by
  induction ls generalizing n room room' with
  | nil => exact .refl room _
  | cons line ls ih =>
    have hwidens := Plan.outputAt_widens (n + 1) h (Plan.ofLine line)
    have hlength : ((Plan.ofLine line).outputAt (n + 1) room).2.length ≤ room :=
      Plan.length_output_le _ _
    rcases hl : (Plan.ofLine line).outputAt (n + 1) room with ⟨error, code⟩
    rcases hl' : (Plan.ofLine line).outputAt (n + 1) room' with ⟨error', code'⟩
    rw [hl] at hlength
    rw [hl, hl'] at hwidens
    cases hwidens with
    | same hfull =>
      cases error with
      | none =>
        rw [outputAll_cons_of_none hl, outputAll_cons_of_none hl']
        exact (ih (n + 1) (Nat.sub_le_sub_right h code.length)).append hlength
      | some e =>
        rw [outputAll_cons_of_some hl, outputAll_cons_of_some hl']
        exact .refl room _
    | @further number _ _ hpre hdone hline =>
      have hnumber : number = n + 1 := Plan.line_of_outputAt (congrArg Prod.fst hl)
      rw [outputAll_cons_of_some hl]
      cases error' with
      | none =>
        -- the line alone is longer than the smaller room, and any error is in a line behind it
        rw [outputAll_cons_of_none hl']
        refine .further (hpre.trans (List.prefix_append _ _)) ?_ ?_
        · intro _
          have : room < code'.length := hdone rfl
          rw [List.length_append]
          omega
        · intro e he
          have := lt_line_of_outputAll he
          omega
      | some e =>
        rw [outputAll_cons_of_some hl']
        exact .further hpre hdone hline

theorem length_outputAll_le (n : ℕ) (ls : List (List Char)) (room : ℕ) :
    (outputAll n ls room).2.length ≤ room := by
  induction ls generalizing n room with
  | nil => exact Nat.zero_le room
  | cons line ls ih =>
    have hlength : ((Plan.ofLine line).outputAt (n + 1) room).2.length ≤ room :=
      Plan.length_output_le _ _
    rcases hl : (Plan.ofLine line).outputAt (n + 1) room with ⟨_ | e, code⟩
    · rw [hl] at hlength
      have : code.length ≤ room := hlength
      have := ih (n + 1) (room - code.length)
      rw [outputAll_cons_of_none hl, List.length_append]
      omega
    · rw [hl] at hlength
      rw [outputAll_cons_of_some hl]
      exact hlength

/-- Lines that go through somewhere go through wherever there is room for what they write. -/
theorem outputAll_eq_none_iff {code : List UInt8} (h : outputAll n ls room = (none, code)) :
    (outputAll n ls room').1 = none ↔ code.length ≤ room' := by
  have hcode : code.length ≤ room := by
    have := length_outputAll_le n ls room
    rwa [h] at this
  obtain hle | hle := Nat.le_total room room'
  · have hwidens := outputAll_widens n hle ls
    rw [h] at hwidens
    generalize outputAll n ls room' = r at hwidens ⊢
    cases hwidens with
    | same _ => exact iff_of_true rfl (hcode.trans hle)
  · -- the lines went through in the larger room, so that `Widens` is read the other way round
    have hwidens := outputAll_widens n hle ls
    have hlength := length_outputAll_le n ls room'
    rw [h] at hwidens
    generalize outputAll n ls room' = r at hwidens hlength ⊢
    cases hwidens with
    | same _ => exact iff_of_true rfl hlength
    | further _ hdone _ => exact iff_of_false nofun (not_le.2 (hdone rfl))

end Listing

/-! ### Sources -/

namespace Assembly

open Listing

/-- What lines write, and their first error, depend on the number of spare bytes alone. -/
theorem feedAll_eq (a : Assembly) (ls : List (List Char)) :
    (a.feedAll ls).1 = (outputAll a.lines ls a.buffer.spare.length).1 ∧
    (a.feedAll ls).2.buffer = a.buffer.extend (outputAll a.lines ls a.buffer.spare.length).2 := by
  induction ls generalizing a with
  | nil => exact ⟨rfl, (CodeBuffer.extend_nil a.buffer).symm⟩
  | cons line ls ih =>
    have hfeed : a.feed line =
        (((Plan.ofLine line).outputAt (a.lines + 1) a.buffer.spare.length).1,
          ⟨a.buffer.extend ((Plan.ofLine line).outputAt (a.lines + 1) a.buffer.spare.length).2,
            a.lines + 1⟩) := feed_eq a line
    rcases hl : (Plan.ofLine line).outputAt (a.lines + 1) a.buffer.spare.length with ⟨_ | e, code⟩
    · rw [hl] at hfeed
      obtain ⟨herror, hbuffer⟩ := ih ⟨a.buffer.extend code, a.lines + 1⟩
      rw [CodeBuffer.length_spare_extend] at herror hbuffer
      rw [feedAll, hfeed, outputAll_cons_of_none hl, CodeBuffer.extend_append]
      exact ⟨herror, hbuffer⟩
    · rw [hl] at hfeed
      rw [feedAll, hfeed, outputAll_cons_of_some hl]
      exact ⟨rfl, rfl⟩

theorem ofSourceIn_eq_outputAll (limit : ℕ) (source : List Char) (memory : List UInt8) :
    let r := outputAll 0 ((Text.lines source).take limit) memory.length
    (ofSourceIn limit source memory).1 = reportIn limit (Text.lines source).length r.1 ∧
      (ofSourceIn limit source memory).2.buffer.written = r.2 := by
  obtain ⟨herror, hbuffer⟩ :=
    feedAll_eq { buffer := .ofMemory memory } ((Text.lines source).take limit)
  rw [ofSourceIn_eq]
  exact ⟨congrArg (reportIn limit _) herror, congrArg CodeBuffer.written hbuffer⟩

section memories

variable {limit : ℕ} {source : List Char} {memory memory' : List UInt8}

theorem ofSourceIn_congr_outputAll
    (h : outputAll 0 ((Text.lines source).take limit) memory'.length =
      outputAll 0 ((Text.lines source).take limit) memory.length) :
    (ofSourceIn limit source memory').1 = (ofSourceIn limit source memory).1 ∧
      (ofSourceIn limit source memory').2.buffer.written =
        (ofSourceIn limit source memory).2.buffer.written := by
  obtain ⟨herror, hwritten⟩ := ofSourceIn_eq_outputAll limit source memory
  obtain ⟨herror', hwritten'⟩ := ofSourceIn_eq_outputAll limit source memory'
  rw [herror, herror', hwritten, hwritten', h]
  exact ⟨rfl, rfl⟩

/-- Lines that do not run out of room are taken alike in a larger memory. -/
theorem ofSourceIn_eq_of_ne_full (h : memory.length ≤ memory'.length)
    (hne : ∀ line, (ofSourceIn limit source memory).1 ≠ some (.listing ⟨line, .emit .full⟩)) :
    (ofSourceIn limit source memory').1 = (ofSourceIn limit source memory).1 ∧
      (ofSourceIn limit source memory').2.buffer.written =
        (ofSourceIn limit source memory).2.buffer.written := by
  refine ofSourceIn_congr_outputAll ((outputAll_widens 0 h _).eq_of_ne_full fun line hline => ?_)
  have hreport := (ofSourceIn_eq_outputAll limit source memory).1
  exact hne line (hreport.trans (reportIn_eq_listing_iff.2 hline))

/-- Lines that run out of room get further in a larger memory. -/
theorem ofSourceIn_further_of_full (h : memory.length ≤ memory'.length) {line : ℕ}
    (hfull : (ofSourceIn limit source memory).1 = some (.listing ⟨line, .emit .full⟩)) :
    let small := ofSourceIn limit source memory
    let large := ofSourceIn limit source memory'
    small.2.buffer.written <+: large.2.buffer.written ∧
    (large.1 = none ∧ memory.length < large.2.buffer.length ∨
      (∃ e, large.1 = some (.listing e) ∧ line ≤ e.line) ∨
      large.1 = some .exhausted ∧ large.2.lines = limit ∧ line ≤ limit) := by
  intro small large
  obtain ⟨hsmall, hsmallWritten⟩ := ofSourceIn_eq_outputAll limit source memory
  obtain ⟨hlarge, hlargeWritten⟩ := ofSourceIn_eq_outputAll limit source memory'
  have hline := reportIn_eq_listing_iff.1 (hsmall.symm.trans hfull)
  obtain ⟨hpre, hcases⟩ := (outputAll_widens 0 h _).further_of_full hline
  rw [← hsmallWritten, ← hlargeWritten] at hpre
  rw [← hlargeWritten] at hcases
  refine ⟨hpre, ?_⟩
  rcases hcases with ⟨hdone, hlength⟩ | ⟨e, he, hle⟩
  · by_cases hall : (Text.lines source).length ≤ limit
    · exact .inl ⟨hlarge.trans (reportIn_eq_none_iff.2 ⟨hdone, hall⟩), hlength⟩
    · -- all lines that have a number are taken, and the line without room is one of them
      have hexhausted : large.1 = some .exhausted :=
        hlarge.trans (reportIn_eq_exhausted_iff.2 ⟨hdone, not_le.1 hall⟩)
      have hbound : line ≤ 0 + ((Text.lines source).take limit).length :=
        line_le_of_outputAll hline
      rw [Nat.zero_add, List.length_take] at hbound
      exact .inr (.inr ⟨hexhausted, lines_of_exhausted hexhausted,
        hbound.trans (Nat.min_le_left _ _)⟩)
  · exact .inr (.inl ⟨e, hlarge.trans (reportIn_eq_listing_iff.2 he), hle⟩)

theorem ofSourceIn_eq_none_iff (h : (ofSourceIn limit source memory).1 = none)
    (other : List UInt8) :
    (ofSourceIn limit source other).1 = none ↔
      (ofSourceIn limit source memory).2.buffer.length ≤ other.length := by
  obtain ⟨hreport, hwritten⟩ := ofSourceIn_eq_outputAll limit source memory
  obtain ⟨hdone, hall⟩ := reportIn_eq_none_iff.1 (hreport.symm.trans h)
  rw [(ofSourceIn_eq_outputAll limit source other).1, reportIn_eq_none_iff, and_iff_left hall]
  exact outputAll_eq_none_iff (Prod.ext hdone hwritten.symm)

end memories

/-- **The size of the memory.**  `large` ends as `small`, unless this is out of room in some `line`:
then it gets at least as far, and writes at least the same bytes. -/
theorem ofSourceIn_of_length_le (limit : ℕ) (source : List Char) {memory memory' : List UInt8}
    (h : memory.length ≤ memory'.length) :
    let small := ofSourceIn limit source memory
    let large := ofSourceIn limit source memory'
    (small.1 = none →
      large.1 = none ∧ large.2.buffer.length = small.2.buffer.length ∧
      large.2.buffer.written = small.2.buffer.written) ∧
    (∀ e, small.1 = some e → (∀ line, e ≠ .listing ⟨line, .emit .full⟩) →
      large.1 = some e ∧ large.2.buffer.written = small.2.buffer.written) ∧
    (∀ line, small.1 = some (.listing ⟨line, .emit .full⟩) →
      small.2.buffer.written <+: large.2.buffer.written ∧
      (large.1 = none ∧ memory.length < large.2.buffer.length ∨
        (∃ e, large.1 = some (.listing e) ∧ line ≤ e.line) ∨
        large.1 = some .exhausted ∧ large.2.lines = limit ∧ line ≤ limit)) ∧
    (small.1 = none → ∀ other : List UInt8,
      (ofSourceIn limit source other).1 = none ↔ small.2.buffer.length ≤ other.length) ∧
    (memory.length = memory'.length →
      large.1 = small.1 ∧ large.2.buffer.written = small.2.buffer.written) ∧
    small.2.buffer.memory = small.2.buffer.written ++ memory.drop small.2.buffer.length := by
  intro small large
  have hover : CodeBuffer.Over memory small.2.buffer :=
    over_feedAllIn (CodeBuffer.over_ofMemory memory) limit (Text.lines source)
  refine ⟨fun hnone => ?_, fun e he hcause => ?_, fun line => ofSourceIn_further_of_full h,
    ofSourceIn_eq_none_iff, fun heq => ofSourceIn_congr_outputAll (by rw [heq]), hover.memory_eq⟩
  · obtain ⟨herror, hwritten⟩ := ofSourceIn_eq_of_ne_full h fun line hline =>
      Option.some_ne_none _ (hline.symm.trans hnone)
    exact ⟨herror.trans hnone, congrArg List.length hwritten, hwritten⟩
  · obtain ⟨herror, hwritten⟩ := ofSourceIn_eq_of_ne_full h fun line hline =>
      hcause line (Option.some.inj (he.symm.trans hline))
    exact ⟨herror.trans he, hwritten⟩

/-- In the smaller memory the first listing runs out of room before it comes to the bad number; the
second one fits where there is room for three bytes; and the third, which has a line more than there
are numbers, finds this out where it has room. -/
theorem ofSourceIn_of_length_le_more_room :
    ([9] : List UInt8).length ≤ ([5, 5, 5] : List UInt8).length ∧
    (let small := ofSourceIn lineLimit ".byte 1 2 300\nADD".toList [9]
     let large := ofSourceIn lineLimit ".byte 1 2 300\nADD".toList [5, 5, 5]
     small.1 = some (.listing ⟨1, .emit .full⟩) ∧ large.1 = some (.listing ⟨1, .badNumber⟩) ∧
     small.2.buffer.written <+: large.2.buffer.written) ∧
    ([9, 9, 9] : List UInt8).length ≤ ([5, 5, 5, 5] : List UInt8).length ∧
    (let small := ofSourceIn lineLimit "PUSH 7\nADD".toList [9, 9, 9]
     let large := ofSourceIn lineLimit "PUSH 7\nADD".toList [5, 5, 5, 5]
     small.1 = none ∧ small.2.buffer.length = 3 ∧ large.1 = none ∧
     large.2.buffer.written = small.2.buffer.written ∧
     ∀ other, (ofSourceIn lineLimit "PUSH 7\nADD".toList other).1 = none ↔ 3 ≤ other.length) ∧
    ([] : List UInt8).length ≤ ([5] : List UInt8).length ∧
    (let small := ofSourceIn 2 "STOP\n\n\n".toList []
     let large := ofSourceIn 2 "STOP\n\n\n".toList [5]
     small.1 = some (.listing ⟨1, .emit .full⟩) ∧ large.1 = some .exhausted ∧
     large.2.lines = 2) := by
  have hfull : (ofSourceIn lineLimit ".byte 1 2 300\nADD".toList [9]).1 =
      some (.listing ⟨1, .emit .full⟩) := by decide +kernel
  have hdone : (ofSourceIn lineLimit "PUSH 7\nADD".toList [9, 9, 9]).1 = none := by
    decide +kernel
  have hlength : (ofSourceIn lineLimit "PUSH 7\nADD".toList [9, 9, 9]).2.buffer.length = 3 := by
    decide +kernel
  have hnone : (ofSourceIn 2 "STOP\n\n\n".toList []).1 = some (.listing ⟨1, .emit .full⟩) := by
    decide +kernel
  have hlarge : (ofSourceIn 2 "STOP\n\n\n".toList [5]).1 = some .exhausted := by decide +kernel
  obtain ⟨-, -, hmore, -⟩ := ofSourceIn_of_length_le lineLimit ".byte 1 2 300\nADD".toList
    (show ([9] : List UInt8).length ≤ ([5, 5, 5] : List UInt8).length by decide)
  obtain ⟨hsame, -, -, hfits, -⟩ := ofSourceIn_of_length_le lineLimit "PUSH 7\nADD".toList
    (show ([9, 9, 9] : List UInt8).length ≤ ([5, 5, 5, 5] : List UInt8).length by decide)
  obtain ⟨-, -, hend, -⟩ := ofSourceIn_of_length_le 2 "STOP\n\n\n".toList
    (show ([] : List UInt8).length ≤ ([5] : List UInt8).length by decide)
  obtain ⟨herror, -, hwritten⟩ := hsame hdone
  rw [hlength] at hfits
  have hlines : (ofSourceIn 2 "STOP\n\n\n".toList [5]).2.lines = 2 := by
    rcases (hend 1 hnone).2 with ⟨h, -⟩ | ⟨e, h, -⟩ | ⟨-, h, -⟩
    · exact absurd (hlarge.symm.trans h) (by decide)
    · cases hlarge.symm.trans h
    · exact h
  exact ⟨by decide, ⟨hfull, by decide +kernel, (hmore 1 hfull).1⟩,
    by decide, ⟨hdone, hlength, herror, hwritten, hfits hdone⟩,
    by decide, hnone, hlarge, hlines⟩

end Assembly

end Stack256
