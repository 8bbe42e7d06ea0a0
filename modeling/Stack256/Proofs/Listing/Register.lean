import Mathlib
import Stack256.Proofs.Listing.Output
import Stack256.Proofs.Text.Lines

/-!
# Stack256.Proofs.Listing.Register — lines in order, with a number for each

Lines in order are taken up to the first that is not (`feedAllIn_append`).  Of lines that are
numbered in a register, those that there are numbers for are taken as if there were no limit
(`feedAll`), and the next one finds the register exhausted (`feedAllIn_eq`).  How a line ends makes
no difference (`feedAllIn_map_dropReturn`), and so the lines of a source are its pieces between line
breaks (`feedAllIn_linesOf`).  Main statement: a source whose line breaks are fewer than the numbers
is assembled as without a limit (`ofSourceIn_of_lt`).
-/

namespace Stack256.Assembly

open Listing

variable {limit : ℕ} {a t : Assembly} {ls : List (List Char)} {m : List UInt8}

/-! ### Lines without a limit -/

/-- Takes lines up to the first that is faulty, as if there were a number for each. -/
def feedAll (a : Assembly) : List (List Char) → Option ListingError × Assembly
  | [] => (none, a)
  | line :: rest =>
    match a.feed line with
    | (some e, t) => (some e, t)
    | (none, t) => t.feedAll rest

/-- The pieces of a text between line breaks.  They differ from its lines by carriage returns at
their ends, which are white space, and by an empty one behind the last line break. -/
def linesOf (source : List Char) : List (List Char) :=
  Text.pieces (· == '\n') source

/-- The code of a whole listing, as if there were a number for each of its lines. -/
def ofSource (source : List Char) (memory : List UInt8) : Option ListingError × Assembly :=
  feedAll { buffer := .ofMemory memory } (linesOf source)

theorem lines_of_feedAll (h : a.feedAll ls = (none, t)) : t.lines = a.lines + ls.length := by
  induction ls generalizing a with
  | nil =>
    cases h
    rfl
  | cons l ls ih =>
    rw [feedAll] at h
    rcases hl : a.feed l with ⟨_ | e, u⟩
    · rw [hl] at h
      have hu : u.lines = a.lines + 1 := by
        rw [← lines_feed a l, hl]
      rw [ih h, hu, List.length_cons]
      omega
    · rw [hl] at h
      cases h

theorem feedAll_map_dropReturn (a : Assembly) (ls : List (List Char)) :
    a.feedAll (ls.map Text.dropReturn) = a.feedAll ls := by
  induction ls generalizing a with
  | nil => rfl
  | cons l ls ih =>
    have hl : a.feed (Text.dropReturn l) = a.feed l := by
      rw [feed_eq, feed_eq, Plan.ofLine, Plan.ofLine, lineTokens_dropReturn]
    rw [List.map_cons, feedAll, feedAll, hl]
    rcases a.feed l with ⟨_ | e, t⟩
    · exact ih t
    · rfl

/-! ### Lines in a register -/

theorem feedAllIn_append (limit : ℕ) (a : Assembly) (ls ms : List (List Char)) :
    a.feedAllIn limit (ls ++ ms) = match a.feedAllIn limit ls with
      | (some e, t) => (some e, t)
      | (none, t) => t.feedAllIn limit ms := by
  induction ls generalizing a with
  | nil => rfl
  | cons l ls ih =>
    rw [List.cons_append, feedAllIn, feedAllIn]
    rcases a.feedIn limit l with ⟨_ | e, t⟩
    · exact ih t
    · rfl

theorem over_feedAllIn (h : CodeBuffer.Over m a.buffer) (limit : ℕ) (ls : List (List Char)) :
    CodeBuffer.Over m (a.feedAllIn limit ls).2.buffer := by
  induction ls generalizing a with
  | nil => exact h
  | cons l ls ih =>
    have hl := over_feedIn h limit l
    rw [feedAllIn]
    rcases hr : a.feedIn limit l with ⟨_ | e, t⟩
    · rw [hr] at hl
      exact ih hl
    · rw [hr] at hl
      exact hl

/-- What is reported for `n` lines, where `fault` is what is wrong with those that have a number. -/
def reportIn (limit n : ℕ) (fault : Option ListingError) : Option RegisterError :=
  (fault.map .listing).or (if n ≤ limit then none else some .exhausted)

section reportIn

variable {n : ℕ} {fault : Option ListingError}

theorem reportIn_eq_none_iff : reportIn limit n fault = none ↔ fault = none ∧ n ≤ limit := by
  cases fault <;> simp [reportIn]

theorem reportIn_eq_listing_iff {e : ListingError} :
    reportIn limit n fault = some (.listing e) ↔ fault = some e := by
  cases fault <;> simp [reportIn]

theorem reportIn_eq_exhausted_iff :
    reportIn limit n fault = some .exhausted ↔ fault = none ∧ limit < n := by
  cases fault <;> simp [reportIn]

end reportIn

/-- The lines that there are numbers for are taken as without a limit. -/
theorem feedAllIn_eq (limit : ℕ) (a : Assembly) (ls : List (List Char)) :
    a.feedAllIn limit ls =
      (reportIn (limit - a.lines) ls.length (a.feedAll (ls.take (limit - a.lines))).1,
        (a.feedAll (ls.take (limit - a.lines))).2) := by
  induction ls generalizing a with
  | nil =>
    rw [List.take_nil]
    rfl
  | cons l ls ih =>
    rw [feedAllIn]
    rcases lt_or_ge a.lines limit with h | h
    · obtain ⟨n, hn⟩ : ∃ n, limit - a.lines = n + 1 := Nat.exists_eq_succ_of_ne_zero (by omega)
      rw [feedIn_of_lt h, hn, List.take_succ_cons, feedAll, List.length_cons]
      rcases hl : a.feed l with ⟨_ | e, t⟩
      · have hlines : t.lines = a.lines + 1 := by
          rw [← lines_feed a l, hl]
        have hnext : limit - t.lines = n := by
          omega
        simp only [Option.map_none, ih, hnext, reportIn, Nat.add_le_add_iff_right]
      · rfl
    · rw [feedIn_of_le h, Nat.sub_eq_zero_of_le h]
      rfl

theorem feedAllIn_of_le (h : a.lines + ls.length ≤ limit) :
    a.feedAllIn limit ls = ((a.feedAll ls).1.map .listing, (a.feedAll ls).2) := by
  have hall : ls.length ≤ limit - a.lines := by
    omega
  rw [feedAllIn_eq, List.take_of_length_le hall, reportIn, if_pos hall, Option.or_none]

theorem length_le_of_feedAllIn (h : a.feedAllIn limit ls = (none, t)) :
    ls.length ≤ limit - a.lines := by
  rw [feedAllIn_eq] at h
  exact (reportIn_eq_none_iff.1 (congrArg Prod.fst h)).2

theorem lines_of_feedAllIn (h : a.feedAllIn limit ls = (none, t)) :
    t.lines = a.lines + ls.length := by
  have hall := length_le_of_feedAllIn h
  rw [feedAllIn_eq, List.take_of_length_le hall] at h
  obtain ⟨herror, ht⟩ := Prod.mk.inj h
  exact lines_of_feedAll (Prod.ext (reportIn_eq_none_iff.1 herror).1 ht)

theorem feedAllIn_cons_of_exhausted (h : limit ≤ a.lines) (l : List Char) (ls : List (List Char)) :
    a.feedAllIn limit (l :: ls) = (some .exhausted, a) := by
  rw [feedAllIn, feedIn_of_le h]

theorem feedAllIn_map_dropReturn (limit : ℕ) (a : Assembly) (ls : List (List Char)) :
    a.feedAllIn limit (ls.map Text.dropReturn) = a.feedAllIn limit ls := by
  rw [feedAllIn_eq, feedAllIn_eq, ← List.map_take, feedAll_map_dropReturn, List.length_map]

/-! ### Sources -/

theorem ofSourceIn_eq (limit : ℕ) (source : List Char) (memory : List UInt8) :
    ofSourceIn limit source memory =
      let r := feedAll { buffer := .ofMemory memory } ((Text.lines source).take limit)
      (reportIn limit (Text.lines source).length r.1, r.2) :=
  feedAllIn_eq limit { buffer := .ofMemory memory } (Text.lines source)

/-- Where the numbers are used up, as many lines are taken as there are numbers. -/
theorem lines_of_exhausted {source : List Char} {memory : List UInt8}
    (h : (ofSourceIn limit source memory).1 = some .exhausted) :
    (ofSourceIn limit source memory).2.lines = limit := by
  rw [ofSourceIn_eq] at h ⊢
  obtain ⟨hnone, hlt⟩ := reportIn_eq_exhausted_iff.1 h
  refine (lines_of_feedAll (Prod.ext hnone rfl)).trans ?_
  rw [List.length_take, Nat.min_eq_left hlt.le, Nat.zero_add]

theorem length_linesOf (s : List Char) : (linesOf s).length = s.count '\n' + 1 :=
  Text.length_pieces _ s

/-- The pieces of a source between line breaks are taken as its lines, and perhaps an empty one. -/
theorem feedAllIn_linesOf (s : List Char) :
    ∃ ending, (ending = [] ∨ ending = [[]]) ∧
      (Text.lines s).length + ending.length = s.count '\n' + 1 ∧
      ∀ limit (a : Assembly),
        a.feedAllIn limit (linesOf s) = a.feedAllIn limit (Text.lines s ++ ending) := by
  obtain ⟨above, last, ending, hending, hs, hlines⟩ := Text.exists_ending s
  refine ⟨ending, hending, ?_, fun limit a => ?_⟩
  · rw [← length_linesOf, linesOf, hs, ← List.length_append, hlines, List.length_append,
      List.length_append, List.length_map]
  · rw [linesOf, hs, hlines, feedAllIn_append, feedAllIn_append, feedAllIn_map_dropReturn]

theorem ofSourceIn_of_lt {source : List Char} (h : source.count '\n' < limit)
    (memory : List UInt8) :
    (ofSourceIn limit source memory).1 = (ofSource source memory).1.map .listing ∧
      (ofSourceIn limit source memory).2.buffer = (ofSource source memory).2.buffer := by
  obtain ⟨ending, hending, hlength, hlines⟩ := feedAllIn_linesOf source
  have hall : 0 + (linesOf source).length ≤ limit := by
    rw [length_linesOf]
    omega
  have hsource : ((ofSource source memory).1.map .listing, (ofSource source memory).2) =
      match ofSourceIn limit source memory with
      | (some e, t) => (some e, t)
      | (none, t) => t.feedAllIn limit ending :=
    (feedAllIn_of_le hall).symm.trans ((hlines limit _).trans (feedAllIn_append _ _ _ _))
  rcases hr : ofSourceIn limit source memory with ⟨_ | e, t⟩
  · have htaken : t.lines = 0 + (Text.lines source).length := lines_of_feedAllIn hr
    rw [hr] at hsource
    -- an empty line changes nothing but the number of lines
    have hlast : (t.feedAllIn limit ending).1 = none ∧
        (t.feedAllIn limit ending).2.buffer = t.buffer := by
      rcases hending with rfl | rfl
      · exact ⟨rfl, rfl⟩
      · have hlt : t.lines < limit := by
          rw [List.length_singleton] at hlength
          omega
        rw [feedAllIn, feedIn_of_lt hlt]
        exact ⟨rfl, rfl⟩
    exact ⟨hlast.1.symm.trans (congrArg Prod.fst hsource).symm,
      hlast.2.symm.trans (congrArg (·.2.buffer) hsource).symm⟩
  · rw [hr] at hsource
    exact ⟨(congrArg Prod.fst hsource).symm, (congrArg (·.2.buffer) hsource).symm⟩

end Stack256.Assembly
