import Mathlib
import Stack256.Proofs.Listing.Grammar

/-!
# Stack256.Proofs.Listing.Session — lines taken one by one, faulty or not

An assembly goes on after a faulty line.  Of what a faulty line says nothing is written, unless it
is a line of `.byte`, whose operands are written up to the first at fault
(`lineAnswer_cases_of_error`).  The lines before a line tell it no more than its number and the room
that they have left (`feed_congr`).  Main statement: `session_of_lines`.
-/

namespace Stack256

namespace Listing

open Text

/-! ### Faulty lines -/

/-- The line is the directive `.byte` with the given operands, and not too long to be read. -/
def ByteLine (line : List Char) (operands : List (List Char)) : Prop :=
  ∃ name, Spaced (beforeComment line) (name :: operands) ∧
    sameLetters name ".byte".toList = true ∧ (name :: operands).length ≤ tokenLimit

/-- There are operands, and `out` is the bytes that those before one of them stand for, which is the
first that stands for no byte or finds no room for it. -/
def StopsAt (room : ℕ) (operands : List (List Char)) (cause : LineError) (out : List UInt8) :
    Prop :=
  ∃ pre token post, operands = pre ++ token :: post ∧ List.Forall₂ StandsFor pre out ∧
    ((cause = .badNumber ∧ out.length ≤ room ∧ ∀ byte, ¬ StandsFor token byte) ∨
      (cause = .emit .full ∧ out.length = room ∧ ∃ byte, StandsFor token byte))

variable {room : ℕ} {name line : List Char} {operands : List (List Char)} {cause : LineError}
  {out : List UInt8}

theorem reply_cases_of_error (h : Reply room name operands (some cause) out) :
    (sameLetters name ".byte".toList = false ∧ out = []) ∨
    (sameLetters name ".byte".toList = true ∧
      ((operands = [] ∧ cause = .tooFewOperands ∧ out = []) ∨
        StopsAt room operands cause out)) := by
  have hother : name.head? ≠ some '.' → sameLetters name ".byte".toList = false := fun hhead =>
    Bool.eq_false_iff.2 fun hname => hhead (head?_of_byte hname)
  cases h with
  | unknownDirective hhead hname => exact .inl ⟨hname, rfl⟩
  | noBytes hname => exact .inr ⟨hname, .inl ⟨rfl, rfl, rfl⟩⟩
  | byteNumber hname hpre hroom htoken =>
    exact .inr ⟨hname, .inr ⟨_, _, _, rfl, hpre, .inl ⟨rfl, hroom, htoken⟩⟩⟩
  | byteRoom hname hpre hroom htoken =>
    exact .inr ⟨hname, .inr ⟨_, _, _, rfl, hpre, .inr ⟨rfl, hroom, _, htoken⟩⟩⟩
  | unknownInstruction hhead => exact .inl ⟨hother hhead, rfl⟩
  | pushMissing hname => exact .inl ⟨hother (head?_of_pushName hname), rfl⟩
  | pushExtra hname => exact .inl ⟨hother (head?_of_pushName hname), rfl⟩
  | pushNumber hname => exact .inl ⟨hother (head?_of_pushName hname), rfl⟩
  | pushWidth hname => exact .inl ⟨hother (head?_of_pushName hname), rfl⟩
  | pushRoom hname => exact .inl ⟨hother (head?_of_pushName hname), rfl⟩
  | opExtra hname => exact .inl ⟨hother (head?_of_mnemonic hname), rfl⟩
  | opRoom hname => exact .inl ⟨hother (head?_of_mnemonic hname), rfl⟩

theorem byteLine_iff : ByteLine line operands ↔ ∃ name,
    tokens (beforeComment line) = name :: operands ∧ sameLetters name ".byte".toList = true ∧
      (name :: operands).length ≤ tokenLimit := by
  simp only [ByteLine, spaced_iff]

/-- A faulty line writes nothing, or is a line of `.byte` that stops at an operand at fault. -/
theorem lineAnswer_cases_of_error (h : LineAnswer room line (some cause) out) :
    ((∀ operands, ¬ ByteLine line operands) ∧ out = []) ∨
    ∃ operands, ByteLine line operands ∧
      ((operands = [] ∧ cause = .tooFewOperands ∧ out = []) ∨ StopsAt room operands cause out) := by
  obtain ⟨ts, hts, h⟩ := h
  rcases h with _ | hlimit | ⟨hlen, hreply⟩
  · refine .inl ⟨?_, rfl⟩
    rintro operands ⟨name, hname, -, hlen⟩
    have heq : ts = name :: operands := (spaced_iff.1 hts).symm.trans (spaced_iff.1 hname)
    rw [heq] at hlimit
    omega
  · rename_i name operands
    rcases reply_cases_of_error hreply with ⟨hname, hout⟩ | ⟨hname, hcases⟩
    · refine .inl ⟨?_, hout⟩
      rintro operands' ⟨name', hname', hbyte, -⟩
      have heq : name :: operands = name' :: operands' :=
        (spaced_iff.1 hts).symm.trans (spaced_iff.1 hname')
      cases heq
      rw [hname] at hbyte
      cases hbyte
    · exact .inr ⟨operands, ⟨name, hts, hname, hlen⟩, hcases⟩

end Listing

namespace Assembly

open Listing

/-! ### Lines in order -/

/-- The assembly after lines that are all taken. -/
def takeAll (a : Assembly) (ls : List (List Char)) : Assembly :=
  ls.foldl (fun t l => (t.feed l).2) a

/-- What is reported for the lines, one by one. -/
def reports : Assembly → List (List Char) → List (Option ListingError)
  | _, [] => []
  | a, l :: ls => (a.feed l).1 :: (a.feed l).2.reports ls

/-- The assembly after the lines, where those up to `limit` have a number. -/
def takeAllIn (limit : ℕ) (a : Assembly) (ls : List (List Char)) : Assembly :=
  ls.foldl (fun t l => (t.feedIn limit l).2) a

/-- What is reported for the lines, where those up to `limit` have a number. -/
def reportsIn (limit : ℕ) : Assembly → List (List Char) → List (Option RegisterError)
  | _, [] => []
  | a, l :: ls => (a.feedIn limit l).1 :: (a.feedIn limit l).2.reportsIn limit ls

variable {a b : Assembly} {m : List UInt8} {limit : ℕ}

theorem takeAllIn_of_le {ls : List (List Char)} (h : a.lines + ls.length ≤ limit) :
    a.takeAllIn limit ls = a.takeAll ls ∧
      a.reportsIn limit ls = (a.reports ls).map (Option.map .listing) := by
  induction ls generalizing a with
  | nil => exact ⟨rfl, rfl⟩
  | cons l ls ih =>
    rw [List.length_cons] at h
    have hrest : (a.feed l).2.lines + ls.length ≤ limit := by
      rw [lines_feed]
      omega
    obtain ⟨htaken, hreports⟩ := ih hrest
    rw [takeAllIn, List.foldl_cons, ← takeAllIn, reportsIn, feedIn_of_lt (by omega), htaken,
      hreports]
    exact ⟨rfl, rfl⟩

theorem lines_takeAll (a : Assembly) (ls : List (List Char)) :
    (a.takeAll ls).lines = a.lines + ls.length := by
  induction ls generalizing a with
  | nil => rfl
  | cons l ls ih =>
    rw [takeAll, List.foldl_cons, ← takeAll, ih, lines_feed, List.length_cons]
    omega

theorem over_takeAll (h : CodeBuffer.Over m a.buffer) (ls : List (List Char)) :
    CodeBuffer.Over m (a.takeAll ls).buffer := by
  induction ls generalizing a with
  | nil => exact h
  | cons l ls ih => exact ih (over_feed h l)

theorem line_of_reports {ls : List (List Char)} {k : ℕ} {e : ListingError}
    (h : (a.reports ls)[k]? = some (some e)) : e.line = a.lines + k + 1 := by
  induction ls generalizing a k with
  | nil => cases h
  | cons l ls ih =>
    rcases k with _ | k
    · exact line_of_feed (Option.some.inj h)
    · rw [ih h, lines_feed]
      omega

/-- A line finds out no more about the lines before it than their number and the room they left. -/
theorem feed_congr (hlines : a.lines = b.lines)
    (hroom : a.buffer.spare.length = b.buffer.spare.length) (line : List Char) :
    (a.feed line).1 = (b.feed line).1 ∧ ∃ out,
      (a.feed line).2.buffer = a.buffer.extend out ∧
      (b.feed line).2.buffer = b.buffer.extend out := by
  rw [feed_eq, feed_eq, hlines, hroom]
  exact ⟨rfl, _, rfl, rfl⟩

theorem reports_concat (a : Assembly) (ls : List (List Char)) (l : List Char) :
    a.reports (ls ++ [l]) = a.reports ls ++ [((a.takeAll ls).feed l).1] := by
  induction ls generalizing a with
  | nil => rfl
  | cons l' ls ih => exact congrArg ((a.feed l').1 :: ·) (ih (a.feed l').2)

/-- What a faulty line has written. -/
theorem feed_cases_of_error {line : List Char} {e : ListingError} (he : (a.feed line).1 = some e)
    {out : List UInt8} (hout : (a.feed line).2.buffer = a.buffer.extend out) :
    ((∀ operands, ¬ ByteLine line operands) ∧ out = []) ∨
    ∃ operands, ByteLine line operands ∧
      ((operands = [] ∧ e.cause = .tooFewOperands ∧ out = []) ∨
        StopsAt a.buffer.spare.length operands e.cause out) := by
  have hline : e.line = a.lines + 1 := line_of_feed he
  have hfeed : a.feed line = ((some e.cause).map fun cause => ⟨a.lines + 1, cause⟩,
      ⟨a.buffer.extend out, a.lines + 1⟩) := by
    refine Prod.ext (he.trans ?_) ?_
    · rw [Option.map_some, ← hline]
    · rw [← hout]
      rfl
  exact lineAnswer_cases_of_error (lineAnswer_iff.2 ((output_eq_iff_feed a line _ _).2 hfeed))

/-! ### The law of a session -/

/-- **Sessions.**  What `line` is answered with after the lines `ls`, and the bytes `out` that it
writes, depend on their number and the room only; a faulty `line` writes nothing but operands of
`.byte`. -/
theorem session_of_lines (memory : List UInt8) (ls : List (List Char)) :
    let start : Assembly := { buffer := .ofMemory memory }
    let a := start.takeAll ls
    (∀ limit, ls.length ≤ limit → start.takeAllIn limit ls = a ∧
      start.reportsIn limit ls = (start.reports ls).map (Option.map .listing)) ∧
    (∀ k e, (start.reports ls)[k]? = some (some e) → e.line = k + 1) ∧
    a.buffer.length ≤ memory.length ∧
    a.buffer.memory = a.buffer.written ++ memory.drop a.buffer.length ∧
    ∀ line, start.reports (ls ++ [line]) = start.reports ls ++ [(a.feed line).1] ∧ ∃ out,
      (a.feed line).2.buffer.written = a.buffer.written ++ out ∧
      (∀ e, (a.feed line).1 = some e →
        ((∀ operands, ¬ ByteLine line operands) ∧ out = []) ∨
        ∃ operands, ByteLine line operands ∧
          ((operands = [] ∧ e.cause = .tooFewOperands ∧ out = []) ∨
            StopsAt (memory.length - a.buffer.length) operands e.cause out)) ∧
      ∀ (memory' : List UInt8) (ls' : List (List Char)),
        let b := takeAll { buffer := .ofMemory memory' } ls'
        ls'.length = ls.length →
        memory'.length - b.buffer.length = memory.length - a.buffer.length →
        (b.feed line).1 = (a.feed line).1 ∧
        (b.feed line).2.buffer.written = b.buffer.written ++ out := by
  intro start a
  have hover : CodeBuffer.Over memory a.buffer :=
    over_takeAll (CodeBuffer.over_ofMemory memory) ls
  refine ⟨fun limit hle => takeAllIn_of_le ((Nat.zero_add _).trans_le hle), fun k e he => ?_,
    hover.length_le, hover.memory_eq, fun line => ⟨reports_concat start ls line, ?_⟩⟩
  · rw [line_of_reports he]
    exact congrArg (· + 1) (Nat.zero_add k)
  · obtain ⟨out, hout⟩ : ∃ out, (a.feed line).2.buffer = a.buffer.extend out :=
      ⟨_, congrArg (·.2.buffer) (feed_eq a line)⟩
    refine ⟨out, congrArg CodeBuffer.written hout, fun e he => ?_, ?_⟩
    · rw [← hover.length_spare]
      exact feed_cases_of_error he hout
    · intro memory' ls' b hlen hroom
      have hover' : CodeBuffer.Over memory' b.buffer :=
        over_takeAll (CodeBuffer.over_ofMemory memory') ls'
      have hlines : b.lines = a.lines := by
        rw [lines_takeAll, lines_takeAll, hlen]
      have hspare : b.buffer.spare.length = a.buffer.spare.length := by
        rw [hover'.length_spare, hover.length_spare, hroom]
      obtain ⟨hreport, out', hb, ha⟩ := feed_congr hlines hspare line
      have hsame : out' = out := by
        have hboth := ha.symm.trans hout
        exact List.append_cancel_left (congrArg CodeBuffer.written hboth)
      rw [hb, hsame]
      exact ⟨hreport, rfl⟩

/-- After a faulty line of `.byte`, a comment and a name that means nothing, a line of four bytes
finds room for two of them; and so it does after three blank lines over a memory of two bytes. -/
theorem session_of_lines_bytes :
    let line := ".BYTE 0x7 8 9 10".toList
    let a : Assembly := takeAll { buffer := .ofMemory [9, 9, 9] }
      [".byte 1 300 2".toList, "; note".toList, "NOP".toList]
    let b : Assembly := takeAll { buffer := .ofMemory [5, 5] } [[], [], []]
    takeAllIn lineLimit { buffer := .ofMemory [9, 9, 9] }
      [".byte 1 300 2".toList, "; note".toList, "NOP".toList] = a ∧
    (a.feed line).1 = some ⟨4, .emit .full⟩ ∧
    a.buffer.memory = [1] ++ [9, 9] ∧
    (a.feed line).2.buffer.written = [1] ++ [7, 8] ∧
    (∃ operands, ByteLine line operands ∧ StopsAt 2 operands (.emit .full) [7, 8]) ∧
    (b.feed line).1 = (a.feed line).1 ∧
    (b.feed line).2.buffer.written = [7, 8] := by
  intro line a b
  have ha : a = ⟨⟨[1], [9, 9]⟩, 3⟩ := by decide +kernel
  have hb : b = ⟨⟨[], [5, 5]⟩, 3⟩ := by decide +kernel
  obtain ⟨hregister, -, -, hmemory, hlines⟩ := session_of_lines [9, 9, 9]
    [".byte 1 300 2".toList, "; note".toList, "NOP".toList]
  obtain ⟨-, out, hwritten, hfault, hother⟩ := hlines line
  change a.buffer.memory = a.buffer.written ++ _ at hmemory
  change (a.feed line).2.buffer.written = a.buffer.written ++ out at hwritten
  have hreport : (a.feed line).1 = some ⟨4, .emit .full⟩ := by
    rw [ha]
    decide +kernel
  have hout : out = [7, 8] := by
    have hall : (a.feed line).2.buffer.written = a.buffer.written ++ [7, 8] := by
      rw [ha]
      decide +kernel
    exact List.append_cancel_left (hwritten.symm.trans hall)
  obtain ⟨hsame, hsameWritten⟩ := hother [5, 5] [[], [], []] rfl (by
    change 2 - b.buffer.length = 3 - a.buffer.length
    rw [ha, hb]
    rfl)
  refine ⟨(hregister lineLimit (by decide)).1, hreport, ?_, ?_, ?_, hsame,
    hsameWritten.trans ?_⟩
  · rw [hmemory, ha]
    rfl
  · rw [hwritten, hout, ha]
  · have hbyte : ByteLine line ["0x7".toList, "8".toList, "9".toList, "10".toList] :=
      byteLine_iff.2 ⟨".BYTE".toList, by decide +kernel, by decide, by decide⟩
    rcases hfault _ hreport with ⟨hno, -⟩ | ⟨operands, hop, ⟨-, hcause, -⟩ | hstop⟩
    · exact absurd hbyte (hno _)
    · cases hcause
    · change StopsAt (3 - a.buffer.length) operands _ _ at hstop
      rw [ha, hout] at hstop
      exact ⟨operands, hop, hstop⟩
  · change b.buffer.written ++ out = _
    rw [hb, hout]
    rfl

end Assembly

end Stack256
