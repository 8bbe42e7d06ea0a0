import Mathlib
import Stack256.Proofs.Layout.Boundary

/-!
# Stack256.Proofs.Layout.Known — code without the bytes that mean nothing

Taking out the bytes that stand for no instruction leaves all other segments as they are
(`segments_known`): nothing that was data becomes an instruction, and a push that was cut off stays
so.  How far a place moves is counted by `unknownBefore`, which grows at the bytes that are taken
out and nowhere else (`unknownBefore_next`).
-/

namespace Stack256.Layout

variable {code : List UInt8} {place place' first : ℕ} {g : Segment} {gs : List Segment}

theorem segments_known (code : List UInt8) :
    segments (known code) = (segments code).filter (! ·.isUnknown) := by
  unfold known
  generalize hgs : segments code = gs
  induction gs generalizing code with
  | nil => exact segments_nil
  | cons g gs ih =>
    obtain ⟨byte, rest, behind, rfl, hf, hrest⟩ := segments_eq_cons hgs
    cases g with
    | unknown b => exact ih behind hrest
    | truncated width data =>
      -- nothing stands behind a push that is cut off, so that the whole code is this one segment
      have hcode : (Segment.truncated width data).bytes = byte :: rest := by
        rw [← hf.bytes_append]
        cases hf
        rw [List.append_nil]
      obtain rfl : gs = [] := by
        cases hf
        rw [← hrest, segments_nil]
      rw [List.filter_cons_of_pos rfl, List.filter_nil, List.flatMap_singleton, hcode, hgs]
    | _ =>
      rw [List.filter_cons_of_pos rfl, List.flatMap_cons,
        segments_bytes_append hf.valid fun _ _ => Segment.noConfusion, ih behind hrest]

/-! ### Counting -/

/-- The number of bytes without meaning that stand before `place` in segments from `first` on. -/
def countUnknown (place first : ℕ) (gs : List Segment) : ℕ :=
  (placed first gs).countP fun (start, s) => decide (start < place) && s.isUnknown

theorem countUnknown_cons (place first : ℕ) (g : Segment) (gs : List Segment) :
    countUnknown place first (g :: gs) =
      countUnknown place (first + g.bytes.length) gs +
        if first < place ∧ g.isUnknown = true then 1 else 0 := by
  rw [countUnknown, placed, List.countP_cons, countUnknown]
  simp

theorem countUnknown_append (place first : ℕ) (gs hs : List Segment) :
    countUnknown place first (gs ++ hs) =
      countUnknown place first gs + countUnknown place (first + extent gs) hs := by
  rw [countUnknown, placed_append, List.countP_append, countUnknown, countUnknown]

theorem countUnknown_of_le (h : place ≤ first) (gs : List Segment) :
    countUnknown place first gs = 0 := by
  induction gs generalizing first with
  | nil => rfl
  | cons g gs ih =>
    rw [countUnknown_cons, ih (h.trans (Nat.le_add_right _ _)), if_neg fun hlt => hlt.1.not_ge h]

theorem bytes_length_pos (g : Segment) : 0 < g.bytes.length := by
  cases g <;> exact Nat.succ_pos _

/-- Behind the last of the segments the place does not matter any more. -/
theorem countUnknown_of_extent_le (h : first + extent gs ≤ place)
    (h' : first + extent gs ≤ place') :
    countUnknown place first gs = countUnknown place' first gs := by
  induction gs generalizing first with
  | nil => rfl
  | cons g gs ih =>
    have hpos := bytes_length_pos g
    rw [extent_cons] at h h'
    rw [countUnknown_cons, countUnknown_cons, ih (by omega) (by omega)]
    simp only [show first < place by omega, show first < place' by omega]

/-- From a boundary to any place up to the next one, one more byte is counted where the segment
between them is such a byte. -/
theorem unknownBefore_next (hb : IsBoundary code place) (hg : segments (code.drop place) = g :: gs)
    (hlt : place < place') (hle : place' ≤ place + g.bytes.length) :
    unknownBefore code place' = unknownBefore code place + if g.isUnknown then 1 else 0 := by
  obtain ⟨pre, hgs, rfl⟩ := isBoundary_iff.1 hb
  have hcount : ∀ p, unknownBefore code p = countUnknown p 0 pre +
      (countUnknown p (extent pre + g.bytes.length) gs +
        if extent pre < p ∧ g.isUnknown = true then 1 else 0) := by
    intro p
    rw [unknownBefore, ← countUnknown, hgs, hg, countUnknown_append, zero_add, countUnknown_cons]
  have hpre : countUnknown place' 0 pre = countUnknown (extent pre) 0 pre :=
    countUnknown_of_extent_le (by omega) (by omega)
  rw [hcount, hcount, hpre, countUnknown_of_le hle, countUnknown_of_le (Nat.le_add_right _ _)]
  simp [hlt]

end Stack256.Layout
