import Mathlib
import Stack256.Proofs.Text.LetterCase
import Stack256.Proofs.Text.Pieces

/-!
# Stack256.Proofs.Text.Lines — texts with lines of the same kind

The lines of a text are its pieces between line breaks, less a carriage return at the end of each
and less the last piece if it is empty.  Two texts whose pieces are alike therefore have lines that
are alike, if text is behind the last line break of both or of neither (`forall₂_lines`).
-/

namespace Stack256.Text

variable {s t : List Char}

/-- Nothing is behind the last line break. -/
def Ended (s : List Char) : Prop :=
  ∀ c ∈ s.getLast?, c = '\n'

theorem ended_iff (s : List Char) : Ended s ↔ (pieces (· == '\n') s).getLast? = some [] := by
  rw [getLast?_pieces_eq_nil_iff]
  simp only [Ended, beq_iff_eq]

theorem ended_append {u v : List Char} (hv : v ≠ []) : Ended (u ++ v) ↔ Ended v := by
  have hlast : v.getLast?.isSome := List.getLast?_isSome.2 hv
  rw [Ended, Ended, List.getLast?_append, Option.or_of_isSome hlast]

theorem ended_append_of_no_break {u x : List Char} (hx : '\n' ∉ x) :
    Ended (u ++ x) ↔ x = [] ∧ Ended u := by
  rcases eq_or_ne x [] with rfl | hne
  · simp
  · rw [ended_append hne]
    refine iff_of_false (fun h => hx ?_) fun h => hne h.1
    rw [← h _ (List.getLast?_eq_some_getLast hne)]
    exact List.getLast_mem hne

/-- What is put into a text leaves its end as it is, unless it makes a last line or is all of it. -/
theorem ended_insert_iff {u v x y : List Char} (hx : '\n' ∉ x) (hy : '\n' ∉ y)
    (h : (x = [] ↔ y = []) ∨ (Ended u → v ≠ [])) : Ended (u ++ x ++ v) ↔ Ended (u ++ y ++ v) := by
  rcases eq_or_ne v [] with rfl | hv
  · rw [List.append_nil, List.append_nil, ended_append_of_no_break hx, ended_append_of_no_break hy]
    rcases h with h | h
    · rw [h]
    · simp [show ¬ Ended u from fun hu => h hu rfl]
  · rw [ended_append hv, ended_append hv]

theorem ended_map_toLower (s : List Char) : Ended (s.map Char.toLower) ↔ Ended s := by
  simp only [Ended, List.getLast?_map, Option.mem_map, forall_exists_index, and_imp,
    forall_apply_eq_imp_iff₂, toLower_eq_iff (d := '\n') rfl]

theorem dropReturn_of_not_mem (h : '\r' ∉ s) : dropReturn s = s :=
  if_neg fun hlast => h (List.mem_of_getLast? hlast)

theorem exists_last_piece (s : List Char) :
    ∃ above last, pieces (· == '\n') s = above ++ [last] ∧
      lines s = above.map dropReturn ++ [last].filter (! ·.isEmpty) := by
  obtain ⟨above, last, h⟩ :=
    (List.eq_nil_or_concat' _).resolve_left (pieces_ne_nil (· == '\n') s)
  exact ⟨above, last, h, by simp [lines, h]⟩

/-- The lines of a text, and perhaps an empty one behind them, are its pieces less carriage returns.
-/
theorem exists_ending (s : List Char) :
    ∃ above last ending, (ending = [] ∨ ending = [[]]) ∧
      pieces (· == '\n') s = above ++ [last] ∧
      lines s ++ ending = above.map dropReturn ++ [last] := by
  obtain ⟨above, last, hs, hlines⟩ := exists_last_piece s
  by_cases hempty : last = []
  · exact ⟨above, last, [[]], .inr rfl, hs, by simp [hlines, hempty]⟩
  · exact ⟨above, last, [], .inl rfl, hs, by simp [hlines, hempty]⟩

/-- A line break ends a line, whatever stands before it. -/
theorem lines_append_break (s t : List Char) :
    lines (s ++ '\n' :: t) = (pieces (· == '\n') s).map dropReturn ++ lines t := by
  have ht := pieces_ne_nil (· == '\n') t
  rw [lines, lines, pieces_append_cons (by rfl), List.dropLast_append_of_ne_nil ht, List.map_append,
    List.getLast?_append_of_ne_nil _ ht, List.append_assoc]

/-- Lines that are not empty are joined by line breaks and come back. -/
theorem lines_intercalate {parts : List (List Char)}
    (h : ∀ p ∈ parts, p ≠ [] ∧ '\n' ∉ p ∧ '\r' ∉ p) :
    lines (['\n'].intercalate parts) = parts := by
  rcases parts.eq_nil_or_concat' with rfl | ⟨above, last, rfl⟩
  · rfl
  · have hpieces : pieces (· == '\n') (['\n'].intercalate (above ++ [last])) = above ++ [last] := by
      refine pieces_intercalate (by rfl) (List.concat_ne_nil last above) fun p hp c hc => ?_
      rw [beq_eq_false_iff_ne]
      rintro rfl
      exact (h p hp).2.1 hc
    have habove : above.map dropReturn = above :=
      (List.map_congr_left fun p hp =>
        dropReturn_of_not_mem (h p (List.mem_append_left _ hp)).2.2).trans (List.map_id above)
    have hlast : last ≠ [] := (h last (by simp)).1
    simp [lines, hpieces, habove, hlast]

theorem lines_replicate_break (k : ℕ) :
    lines (List.replicate k '\n') = List.replicate k [] := by
  induction k with
  | zero => rfl
  | succ k ih =>
    rw [List.replicate_succ, List.replicate_succ, ← ih]
    exact lines_append_break [] _

theorem forall₂_lines {R : List Char → List Char → Prop}
    (h : List.Forall₂ R (pieces (· == '\n') s) (pieces (· == '\n') t))
    (hreturn : ∀ l m, R l m → R (dropReturn l) (dropReturn m)) (hend : Ended s ↔ Ended t) :
    List.Forall₂ R (lines s) (lines t) := by
  obtain ⟨above, last, hs, hlines⟩ := exists_last_piece s
  obtain ⟨above', last', ht, hlines'⟩ := exists_last_piece t
  rw [ended_iff, ended_iff, hs, ht, List.getLast?_concat, List.getLast?_concat, Option.some_inj,
    Option.some_inj] at hend
  rw [hs, ht, ← List.forall₂_reverse_iff, List.reverse_concat, List.reverse_concat,
    List.forall₂_cons, List.forall₂_reverse_iff] at h
  obtain ⟨hlast, habove⟩ := h
  rw [hlines, hlines']
  refine List.rel_append ?_ ?_
  · exact List.forall₂_map_left_iff.2 (List.forall₂_map_right_iff.2 (habove.imp hreturn))
  · by_cases hempty : last = []
    · rw [hempty, hend.1 hempty]
      exact .nil
    · rw [List.filter_cons_of_pos (by simpa using hempty),
        List.filter_cons_of_pos (by simpa using mt hend.2 hempty)]
      exact .cons hlast .nil

end Stack256.Text
