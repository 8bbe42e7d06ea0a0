import Mathlib
import Stack256.Proofs.Layout.Segments

/-!
# Stack256.Proofs.Layout.Boundary — the places between segments

A boundary of code is a place where one of its segments starts, or its end.  Read from a boundary
on, code falls into the last of its segments (`isBoundary_iff`), so that behind the first segment
found there stands the next boundary (`IsBoundary.next`).
-/

namespace Stack256.Layout

/-- A segment starts at the place, or the code ends there. -/
def IsBoundary (code : List UInt8) (place : ℕ) : Prop :=
  place ∈ starts code ∨ place = code.length

/-- The number of bytes of segments that stand one behind the other. -/
def extent (gs : List Segment) : ℕ :=
  (gs.flatMap Segment.bytes).length

variable {code : List UInt8} {place : ℕ} {g : Segment} {gs : List Segment}

@[simp] theorem extent_nil : extent [] = 0 := rfl

@[simp] theorem extent_cons (g : Segment) (gs : List Segment) :
    extent (g :: gs) = g.bytes.length + extent gs := by
  rw [extent, List.flatMap_cons, List.length_append, extent]

@[simp] theorem extent_append (gs hs : List Segment) :
    extent (gs ++ hs) = extent gs + extent hs := by
  rw [extent, List.flatMap_append, List.length_append, extent, extent]

@[simp] theorem extent_segments (code : List UInt8) : extent (segments code) = code.length := by
  rw [extent, flatMap_bytes_segments]

/-! ### Places of segments -/

theorem placed_append (place : ℕ) (gs hs : List Segment) :
    placed place (gs ++ hs) = placed place gs ++ placed (place + extent gs) hs := by
  induction gs generalizing place with
  | nil => rfl
  | cons g gs ih =>
    rw [List.cons_append, placed, placed, ih, extent_cons, List.cons_append, add_assoc]

theorem mem_starts_iff : place ∈ starts code ↔
    ∃ pre g post, segments code = pre ++ g :: post ∧ place = extent pre := by
  rw [starts, List.mem_map]
  constructor
  · rintro ⟨⟨place, g⟩, hmem, rfl⟩
    -- the segments in front of an entry are found along the list, from any first place on
    have key : ∀ gs first, (place, g) ∈ placed first gs →
        ∃ pre post, gs = pre ++ g :: post ∧ place = first + extent pre := by
      intro gs
      induction gs with
      | nil => exact fun first h => absurd h List.not_mem_nil
      | cons g' gs ih =>
        intro first h
        rw [placed, List.mem_cons] at h
        obtain h | h := h
        · obtain ⟨rfl, rfl⟩ := Prod.mk.inj h
          exact ⟨[], gs, rfl, rfl⟩
        · obtain ⟨pre, post, rfl, rfl⟩ := ih _ h
          exact ⟨g' :: pre, post, rfl, by rw [extent_cons, add_assoc]⟩
    obtain ⟨pre, post, hgs, hplace⟩ := key _ _ hmem
    exact ⟨pre, g, post, hgs, by rw [hplace, zero_add]⟩
  · rintro ⟨pre, g, post, hgs, rfl⟩
    refine ⟨(extent pre, g), ?_, rfl⟩
    rw [hgs, placed_append, placed, zero_add]
    exact List.mem_append_right _ List.mem_cons_self

theorem segments_drop_extent {pre post : List Segment} (h : segments code = pre ++ post) :
    segments (code.drop (extent pre)) = post := by
  induction pre generalizing code with
  | nil => exact h
  | cons g pre ih => rw [extent_cons, ← List.drop_drop, ih (segments_drop h)]

/-! ### Boundaries -/

theorem isBoundary_iff : IsBoundary code place ↔
    ∃ pre, segments code = pre ++ segments (code.drop place) ∧ place = extent pre := by
  rw [IsBoundary, mem_starts_iff]
  constructor
  · rintro (⟨pre, g, post, hgs, rfl⟩ | rfl)
    · exact ⟨pre, by rw [segments_drop_extent hgs, hgs], rfl⟩
    · exact ⟨segments code, by simp, by simp⟩
  · rintro ⟨pre, hgs, hplace⟩
    cases hd : segments (code.drop place) with
    | nil =>
      rw [hd, List.append_nil] at hgs
      exact .inr (by rw [hplace, ← hgs, extent_segments])
    | cons g post => exact .inl ⟨pre, g, post, by rw [hgs, hd], hplace⟩

theorem isBoundary_zero (code : List UInt8) : IsBoundary code 0 :=
  isBoundary_iff.2 ⟨[], rfl, rfl⟩

theorem IsBoundary.le (h : IsBoundary code place) : place ≤ code.length := by
  obtain ⟨pre, hgs, rfl⟩ := isBoundary_iff.1 h
  rw [← extent_segments code, hgs, extent_append]
  exact Nat.le_add_right _ _

/-- Behind a segment stands a boundary. -/
theorem IsBoundary.next (h : IsBoundary code place) (hg : segments (code.drop place) = g :: gs) :
    IsBoundary code (place + g.bytes.length) := by
  obtain ⟨pre, hgs, hplace⟩ := isBoundary_iff.1 h
  refine isBoundary_iff.2 ⟨pre ++ [g], ?_, by simp [hplace]⟩
  rw [← List.drop_drop, segments_drop hg, hgs, hg, List.append_assoc, List.singleton_append]

end Stack256.Layout
