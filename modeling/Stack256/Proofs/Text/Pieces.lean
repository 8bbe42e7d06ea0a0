import Mathlib
import Stack256.Text

/-!
# Stack256.Proofs.Text.Pieces — texts that are joined and cut again

Parts without cuts that are joined by a cut character come back as the pieces (`pieces_join`,
`pieces_intercalate`).  Where a text is cut depends only on which of its characters are cuts
(`pieces_map`), and what is put into a piece changes that piece only (`exists_pieces_insert`).
-/

namespace Stack256.Text

variable {cut : Char → Bool} {c : Char}

theorem pieces_append (hc : cut c = true) {s : List Char} (hs : ∀ a ∈ s, cut a = false)
    (t : List Char) : pieces cut (s ++ c :: t) = s :: pieces cut t := by
  induction s with
  | nil => simp [pieces, hc]
  | cons a s ih =>
    obtain ⟨ha, hs⟩ := List.forall_mem_cons.1 hs
    simp [pieces, ha, ih hs]

theorem pieces_ne_nil (cut : Char → Bool) (s : List Char) : pieces cut s ≠ [] :=
  List.ne_nil_of_length_pos (length_pieces cut s ▸ Nat.succ_pos _)

/-- A cut parts the pieces of a text in two. -/
theorem pieces_append_cons (hc : cut c = true) (s t : List Char) :
    pieces cut (s ++ c :: t) = pieces cut s ++ pieces cut t := by
  induction s with
  | nil => simp [pieces, hc]
  | cons a s ih =>
    rw [List.cons_append, pieces, pieces, ih]
    split_ifs
    · rfl
    · obtain ⟨p, ps, hp⟩ := List.exists_cons_of_ne_nil (pieces_ne_nil cut s)
      rw [hp]
      rfl

/-- A text is cut at the same places if its characters are replaced by others of their kind. -/
theorem pieces_map {f : Char → Char} (hf : ∀ a, cut (f a) = cut a) (s : List Char) :
    pieces cut (s.map f) = (pieces cut s).map (List.map f) := by
  induction s with
  | nil => rfl
  | cons a s ih =>
    rw [List.map_cons, pieces, pieces, hf, ih]
    split_ifs
    · rfl
    · obtain ⟨p, ps, hp⟩ := List.exists_cons_of_ne_nil (pieces_ne_nil cut s)
      rw [hp]
      rfl

theorem pieces_eq_cons (cut : Char → Bool) (s : List Char) :
    pieces cut s = s.takeWhile (! cut ·) :: (pieces cut s).tail := by
  induction s with
  | nil => rfl
  | cons a s ih =>
    by_cases ha : cut a = true
    · simp [pieces, ha]
    · rw [pieces, if_neg ha, ih, List.takeWhile_cons_of_pos (by simpa using ha)]
      rfl

theorem pieces_append_of_all_not {s : List Char} (hs : ∀ a ∈ s, cut a = false) (t : List Char) :
    pieces cut (s ++ t) = (s ++ t.takeWhile (! cut ·)) :: (pieces cut t).tail := by
  induction s with
  | nil => exact pieces_eq_cons cut t
  | cons a s ih =>
    obtain ⟨ha, hs⟩ := List.forall_mem_cons.1 hs
    rw [List.cons_append, pieces, ih hs, ha, if_neg Bool.false_ne_true]
    rfl

/-- A text has no cut, or has a last one. -/
theorem last_cut (cut : Char → Bool) (s : List Char) :
    (∀ a ∈ s, cut a = false) ∨
      ∃ r c p, s = r ++ c :: p ∧ cut c = true ∧ ∀ a ∈ p, cut a = false := by
  induction s with
  | nil => exact .inl (List.forall_mem_nil _)
  | cons a s ih =>
    rcases ih with hs | ⟨r, c, p, rfl, hc, hp⟩
    · by_cases ha : cut a = true
      · exact .inr ⟨[], a, s, rfl, ha, hs⟩
      · exact .inl (List.forall_mem_cons.2 ⟨by simpa using ha, hs⟩)
    · exact .inr ⟨a :: r, c, p, rfl, hc, hp⟩

theorem exists_pieces_insert (cut : Char → Bool) (s t : List Char) :
    ∃ above below p, p <:+ s ∧ ∀ x, (∀ a ∈ x, cut a = false) →
      pieces cut (s ++ x ++ t) = above ++ (p ++ x ++ t.takeWhile (! cut ·)) :: below := by
  have hpiece : ∀ p x : List Char, (∀ a ∈ p, cut a = false) → (∀ a ∈ x, cut a = false) →
      pieces cut (p ++ x ++ t) = (p ++ x ++ t.takeWhile (! cut ·)) :: (pieces cut t).tail :=
    fun p x hp hx => pieces_append_of_all_not (List.forall_mem_append.2 ⟨hp, hx⟩) t
  rcases last_cut cut s with hs | ⟨r, c, p, rfl, hc, hp⟩
  · exact ⟨[], (pieces cut t).tail, s, List.suffix_rfl, fun x hx => hpiece s x hs hx⟩
  · refine ⟨pieces cut r, (pieces cut t).tail, p, ⟨r ++ [c], by simp⟩, fun x hx => ?_⟩
    rw [List.append_assoc, List.append_assoc, List.cons_append, pieces_append_cons hc,
      ← List.append_assoc, hpiece p x hp hx]

/-- The last piece is empty if the text is, or if it ends with a cut. -/
theorem getLast?_pieces_eq_nil_iff {s : List Char} :
    (pieces cut s).getLast? = some [] ↔ ∀ c ∈ s.getLast?, cut c = true := by
  have hend : ∀ p : List Char, p ≠ [] → (∀ a ∈ p, cut a = false) →
      ¬ ∀ c ∈ p.getLast?, cut c = true := by
    intro p hne hp h
    have hlast := h _ (List.getLast?_eq_some_getLast hne)
    rw [hp _ (List.getLast_mem hne)] at hlast
    cases hlast
  rcases last_cut cut s with hs | ⟨r, c, p, rfl, hc, hp⟩
  · rw [pieces_of_all_not hs]
    rcases eq_or_ne s [] with rfl | hne
    · simp
    · simpa [hne] using hend s hne hs
  · rw [pieces_append_cons hc, pieces_of_all_not hp]
    rcases eq_or_ne p [] with rfl | hne
    · simp [hc]
    · simpa [List.getLast?_cons_of_ne_nil hne, hne] using hend p hne hp

theorem pieces_join (hc : cut c = true) {s : List Char} {parts : List (List Char)}
    (hs : ∀ a ∈ s, cut a = false) (hp : ∀ p ∈ parts, ∀ a ∈ p, cut a = false) :
    pieces cut (s ++ parts.flatMap (c :: ·)) = s :: parts := by
  induction parts generalizing s with
  | nil => simpa using pieces_of_all_not hs
  | cons p parts ih =>
    obtain ⟨hp, hparts⟩ := List.forall_mem_cons.1 hp
    rw [List.flatMap_cons, List.cons_append, pieces_append hc hs, ih hp hparts]

theorem intercalate_cons (c : Char) (s : List Char) (parts : List (List Char)) :
    [c].intercalate (s :: parts) = s ++ parts.flatMap (c :: ·) := by
  induction parts generalizing s with
  | nil => simp
  | cons p parts ih =>
    rw [List.intercalate_cons_cons, ih, List.flatMap_cons]
    simp

theorem pieces_intercalate (hc : cut c = true) {parts : List (List Char)} (hne : parts ≠ [])
    (hp : ∀ p ∈ parts, ∀ a ∈ p, cut a = false) : pieces cut ([c].intercalate parts) = parts := by
  obtain _ | ⟨s, parts⟩ := parts
  · exact absurd rfl hne
  · obtain ⟨hs, hparts⟩ := List.forall_mem_cons.1 hp
    rw [intercalate_cons, pieces_join hc hs hparts]

end Stack256.Text
