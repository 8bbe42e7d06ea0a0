import Mathlib
import Stack256.Proofs.Listing.Register

/-!
# Stack256.Proofs.Listing.Concatenation — a listing behind another

The lines of two texts with a line break between them are those of the first, perhaps an empty one,
and those of the second (`ofSourceIn_append_break`).  The lines of the second are taken as they
would be by themselves, in the memory and with the line numbers that the first has left, except that
they are numbered further down and written further behind (`feedAllIn_behind`).  Main statement:
`ofSourceIn_append`.
-/

namespace Stack256

/-- The error in a line further down. -/
def ListingError.shift (n : ℕ) (e : ListingError) : ListingError :=
  ⟨n + e.line, e.cause⟩

/-- The error further down.  One that is in no line stays as it is. -/
def RegisterError.shift (n : ℕ) : RegisterError → RegisterError
  | exhausted => exhausted
  | listing e => listing (e.shift n)

namespace Assembly

open Listing

/-! ### Lines further down -/

/-- The assembly with other bytes written before its own, and more lines taken. -/
def behind (written : List UInt8) (n : ℕ) (a : Assembly) : Assembly :=
  ⟨⟨written ++ a.buffer.written, a.buffer.spare⟩, n + a.lines⟩

variable (written : List UInt8) (n limit : ℕ)

theorem feed_behind (a : Assembly) (line : List Char) :
    (a.behind written n).feed line =
      ((a.feed line).1.map (.shift n), (a.feed line).2.behind written n) := by
  rw [feed_eq, feed_eq, Option.map_map]
  simp only [behind, CodeBuffer.extend, List.append_assoc]
  rfl

theorem feedIn_behind (a : Assembly) (line : List Char) :
    (a.behind written n).feedIn (n + limit) line =
      ((a.feedIn limit line).1.map (.shift n), (a.feedIn limit line).2.behind written n) := by
  rcases lt_or_ge a.lines limit with h | h
  · have hbehind : (a.behind written n).lines < n + limit := Nat.add_lt_add_left h n
    rw [feedIn_of_lt h, feedIn_of_lt hbehind, feed_behind, Option.map_map, Option.map_map]
    rfl
  · have hbehind : n + limit ≤ (a.behind written n).lines := Nat.add_le_add_left h n
    rw [feedIn_of_le h, feedIn_of_le hbehind]
    rfl

theorem feedAllIn_behind (a : Assembly) (ls : List (List Char)) :
    (a.behind written n).feedAllIn (n + limit) ls =
      ((a.feedAllIn limit ls).1.map (.shift n), (a.feedAllIn limit ls).2.behind written n) := by
  induction ls generalizing a with
  | nil => rfl
  | cons l ls ih =>
    rw [feedAllIn, feedAllIn, feedIn_behind]
    rcases a.feedIn limit l with ⟨_ | e, t⟩
    · exact ih t
    · rfl

/-- What is left of an assembly is a memory of its own, behind what is written. -/
theorem eq_behind (a : Assembly) :
    a = behind a.buffer.written a.lines { buffer := .ofMemory a.buffer.spare } := by
  simp [behind, CodeBuffer.ofMemory]

/-! ### Sources -/

variable {limit}

theorem feedAllIn_blank {a : Assembly} {k : ℕ} (h : a.lines + k ≤ limit) :
    a.feedAllIn limit (List.replicate k []) = (none, { a with lines := a.lines + k }) := by
  induction k generalizing a with
  | zero => rfl
  | succ k ih =>
    have hblank : a.feed [] = (none, { a with lines := a.lines + 1 }) := rfl
    have hrest := ih (a := { a with lines := a.lines + 1 }) (by dsimp only; omega)
    rw [List.replicate_succ, feedAllIn, feedIn_of_lt (by omega), hblank]
    refine hrest.trans ?_
    rw [Nat.add_right_comm, Nat.add_assoc]

theorem ofSourceIn_append_break (limit : ℕ) (s t : List Char) (memory : List UInt8) :
    ∃ k, k ≤ 1 ∧ (Text.lines s).length + k = s.count '\n' + 1 ∧
      ofSourceIn limit (s ++ '\n' :: t) memory = feedAllIn limit { buffer := .ofMemory memory }
        (Text.lines s ++ (List.replicate k [] ++ Text.lines t)) := by
  obtain ⟨ending, hending, hlength, hlines⟩ := feedAllIn_linesOf s
  have hblank : ending = List.replicate ending.length [] ∧ ending.length ≤ 1 := by
    rcases hending with rfl | rfl
    · exact ⟨rfl, Nat.zero_le 1⟩
    · exact ⟨rfl, le_refl 1⟩
  refine ⟨ending.length, hblank.2, hlength, ?_⟩
  rw [ofSourceIn, Text.lines_append_break, feedAllIn_append, feedAllIn_map_dropReturn, ← linesOf,
    hlines, ← feedAllIn_append, ← hblank.1, List.append_assoc]

variable {s t : List Char} {memory : List UInt8} {a : Assembly}

theorem ofSourceIn_append_of_fail {e : RegisterError}
    (h : ofSourceIn limit s memory = (some e, a)) :
    ofSourceIn limit (s ++ '\n' :: t) memory = (some e, a) := by
  obtain ⟨k, -, -, hboth⟩ := ofSourceIn_append_break limit s t memory
  rw [hboth, feedAllIn_append, ← ofSourceIn, h]

theorem ofSourceIn_append_of_done (h : ofSourceIn limit s memory = (none, a))
    (hn : s.count '\n' + 1 ≤ limit) :
    ofSourceIn limit (s ++ '\n' :: t) memory =
      let second := ofSourceIn (limit - (s.count '\n' + 1)) t (memory.drop a.buffer.length)
      (second.1.map (.shift (s.count '\n' + 1)),
        second.2.behind a.buffer.written (s.count '\n' + 1)) := by
  obtain ⟨k, -, hlength, hboth⟩ := ofSourceIn_append_break limit s t memory
  have hlines : a.lines = 0 + (Text.lines s).length := lines_of_feedAllIn h
  have hover : CodeBuffer.Over memory (ofSourceIn limit s memory).2.buffer :=
    over_feedAllIn (CodeBuffer.over_ofMemory memory) limit (Text.lines s)
  rw [h] at hover
  have hblank : a.lines + k = s.count '\n' + 1 := by
    omega
  have hstart : { a with lines := a.lines + k } = behind a.buffer.written (s.count '\n' + 1)
      { buffer := .ofMemory (memory.drop a.buffer.length) } := by
    rw [hblank, ← hover.spare_eq]
    exact eq_behind { a with lines := s.count '\n' + 1 }
  rw [hboth, feedAllIn_append, ← ofSourceIn, h]
  dsimp only
  rw [feedAllIn_append, feedAllIn_blank (hblank.trans_le hn), hstart]
  conv_lhs => rw [← Nat.add_sub_cancel' hn]
  exact feedAllIn_behind _ _ _ _ _

theorem ofSourceIn_append_of_exhausted (h : ofSourceIn limit s memory = (none, a))
    (hn : limit < s.count '\n' + 1) :
    ofSourceIn limit (s ++ '\n' :: t) memory = (some .exhausted, a) := by
  obtain ⟨k, hk, hlength, hboth⟩ := ofSourceIn_append_break limit s t memory
  have hlines : a.lines = 0 + (Text.lines s).length := lines_of_feedAllIn h
  have hfirst : (Text.lines s).length ≤ limit := length_le_of_feedAllIn h
  -- all numbers are taken, and what is left of `s` is an empty line
  obtain rfl : k = 1 := by
    omega
  rw [hboth, feedAllIn_append, ← ofSourceIn, h]
  exact feedAllIn_cons_of_exhausted (by omega) _ _

theorem ofSourceIn_breaks (limit : ℕ) (memory : List UInt8) :
    ofSourceIn limit (List.replicate limit '\n') memory = (none, ⟨.ofMemory memory, limit⟩) := by
  rw [ofSourceIn, Text.lines_replicate_break, feedAllIn_blank (Nat.zero_add limit).le, Nat.zero_add]

/-- **Concatenation.**  `both` ends as `first` if that fails; otherwise `t` is taken as by itself,
in the memory `rest` behind the bytes of `s` and with the numbers behind its `n` lines. -/
theorem ofSourceIn_append (limit : ℕ) (s t : List Char) (memory : List UInt8) :
    let n := s.count '\n' + 1
    let first := ofSourceIn limit s memory
    let rest := memory.drop first.2.buffer.length
    let second := ofSourceIn (limit - n) t rest
    let both := ofSourceIn limit (s ++ '\n' :: t) memory
    (∀ e, first.1 = some e → both = first) ∧
    (first.1 = none → n ≤ limit →
      both.1 = second.1.map (.shift n) ∧
      both.2.buffer.memory = first.2.buffer.written ++ second.2.buffer.memory ∧
      both.2.buffer.length = first.2.buffer.length + second.2.buffer.length) ∧
    (first.1 = none → limit < n → both = (some .exhausted, first.2)) ∧
    (n + (Text.lines t).length ≤ limit → second = ofSourceIn limit t rest) := by
  intro n first rest second both
  refine ⟨fun e he => ?_, fun hnone hn => ?_, fun hnone hn => ?_, fun hall => ?_⟩
  · exact (ofSourceIn_append_of_fail (Prod.ext he rfl)).trans (Prod.ext he.symm rfl)
  · have hboth : both = (second.1.map (.shift n), second.2.behind first.2.buffer.written n) :=
      ofSourceIn_append_of_done (Prod.ext hnone rfl) hn
    rw [hboth]
    exact ⟨rfl, List.append_assoc _ _ _, List.length_append⟩
  · exact ofSourceIn_append_of_exhausted (Prod.ext hnone rfl) hn
  · have hsecond : 0 + (Text.lines t).length ≤ limit - n := by
      omega
    have hwhole : 0 + (Text.lines t).length ≤ limit := by
      omega
    exact (feedAllIn_of_le hsecond).trans (feedAllIn_of_le hwhole).symm

/-- A first listing with a line end of its own takes two numbers, and one without a number for its
last, empty line leaves none for a second. -/
theorem ofSourceIn_append_blank_line :
    let both := ofSourceIn lineLimit "PUSH 7\r\n\nADD\nADD 1".toList [9, 9, 9, 9]
    both.1 = some (.listing ⟨4, .tooManyOperands⟩) ∧ both.2.buffer.memory = [0x60, 7, 1, 9] ∧
    both.2.buffer.length = 3 ∧
    ofSourceIn lineLimit "ADD 1\nSTOP".toList [9] = ofSourceIn lineLimit "ADD 1".toList [9] ∧
    ofSourceIn 1 "STOP\n\nADD".toList [9] = (some .exhausted, ⟨⟨[0], []⟩, 1⟩) ∧
    ofSourceIn (3 - 1) "STOP\nADD".toList [9] = ofSourceIn 3 "STOP\nADD".toList [9] := by
  obtain ⟨-, hdone, -, -⟩ :=
    ofSourceIn_append lineLimit "PUSH 7\r\n".toList "ADD\nADD 1".toList [9, 9, 9, 9]
  obtain ⟨hfail, -, -, -⟩ := ofSourceIn_append lineLimit "ADD 1".toList "STOP".toList [9]
  obtain ⟨-, -, hend, -⟩ := ofSourceIn_append 1 "STOP\n".toList "ADD".toList [9]
  obtain ⟨-, -, -, hsame⟩ := ofSourceIn_append 3 [] "STOP\nADD".toList [9]
  obtain ⟨hreport, hmemory, hlength⟩ := hdone (by decide +kernel) (by decide +kernel)
  refine ⟨hreport.trans ?_, hmemory.trans ?_, hlength.trans ?_,
    hfail (.listing ⟨1, .tooManyOperands⟩) ?_, (hend ?_ ?_).trans ?_, hsame ?_⟩
  all_goals decide +kernel

/-- Line breaks that take all the numbers there are leave none for a second listing, which is
assembled by itself. -/
theorem ofSourceIn_append_line_limit :
    let s := List.replicate lineLimit '\n'
    let first := ofSourceIn lineLimit s [9]
    let second := ofSourceIn lineLimit "STOP".toList ([9].drop first.2.buffer.length)
    first.1 = none ∧ first.2.buffer.length = 0 ∧ second.1 = none ∧ second.2.buffer.length = 1 ∧
    (ofSourceIn lineLimit (s ++ '\n' :: "STOP".toList) [9]).1 = some .exhausted := by
  intro s first second
  have hfirst : first = (none, ⟨.ofMemory [9], lineLimit⟩) := ofSourceIn_breaks lineLimit [9]
  have hcount : s.count '\n' = lineLimit := List.count_replicate_self
  have hboth : ofSourceIn lineLimit (s ++ '\n' :: "STOP".toList) [9] =
      (some .exhausted, ⟨.ofMemory [9], lineLimit⟩) :=
    ofSourceIn_append_of_exhausted hfirst (by omega)
  have hsecond : second = (none, ⟨⟨[0], []⟩, 1⟩) := by
    rw [show second = ofSourceIn lineLimit "STOP".toList ([9].drop first.2.buffer.length) from rfl,
      hfirst]
    decide +kernel
  rw [hboth, hsecond, hfirst]
  exact ⟨rfl, rfl, rfl, rfl, rfl⟩

end Assembly

end Stack256
