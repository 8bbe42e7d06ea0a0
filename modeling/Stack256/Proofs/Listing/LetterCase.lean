import Mathlib
import Stack256.Proofs.Listing.Grammar

/-!
# Stack256.Proofs.Listing.LetterCase — a line means the same in either letter case

Each reader of a line gives the same answer for a text and for the text in lower case: the mark of
base sixteen and the digits of a number (`number?_map_toLower`), the names of instructions
(`instruction_map_toLower`) and that of the directive (`ofDirective_map_toLower`).  Lower case does
not move a comment or a token either.  Main statement: `ofTokens_congr`.
-/

namespace Stack256.Listing

open Text

/-! ### Numbers -/

theorem magnitude?_eq (s : List Char) :
    magnitude? s =
      if (s.take 2).map Char.toLower = ['0', 'x'] then (numeral? 16 (s.drop 2)).bind wordOf?
      else (numeral? 10 s).bind wordOf? := by
  unfold magnitude?
  split
  · rfl
  · rfl
  · next hlower hupper =>
    refine (if_neg fun h => ?_).symm
    obtain _ | ⟨c, _ | ⟨d, s⟩⟩ := s
    · simp at h
    · simp at h
    · obtain ⟨hzero, hx⟩ : c.toLower = '0' ∧ d.toLower = 'x' := by simpa using h
      obtain rfl := (toLower_eq_iff rfl).1 hzero
      rcases toLower_eq_x_iff.1 hx with rfl | rfl
      · exact hlower s rfl
      · exact hupper s rfl

theorem magnitude?_map_toLower (s : List Char) :
    magnitude? (s.map Char.toLower) = magnitude? s := by
  rw [magnitude?_eq, magnitude?_eq, ← List.map_take, ← List.map_drop, map_toLower_map_toLower,
    numeral?_map_toLower, numeral?_map_toLower]

theorem number?_cons (c : Char) (s : List Char) :
    number? (c :: s) = if c = '-' then (magnitude? s).map (- ·) else magnitude? (c :: s) := by
  by_cases h : c = '-'
  · subst h
    rfl
  · rw [if_neg h, number?]
    rintro s' ⟨rfl, -⟩
    exact h rfl

theorem number?_map_toLower (token : List Char) :
    number? (token.map Char.toLower) = number? token := by
  rcases token with _ | ⟨c, s⟩
  · rfl
  · rw [List.map_cons, number?_cons, number?_cons, ← List.map_cons, magnitude?_map_toLower,
      magnitude?_map_toLower]
    exact if_congr (toLower_eq_iff rfl) rfl rfl

/-! ### Instructions and bytes -/

theorem operand_map_toLower (operands : List (List Char)) :
    operand (operands.map (List.map Char.toLower)) = operand operands := by
  match operands with
  | [] | _ :: _ :: _ => rfl
  | [token] => rw [List.map_singleton, operand, operand, number?_map_toLower]

theorem instruction_map_toLower (name : List Char) (operands : List (List Char)) :
    instruction (name.map Char.toLower) (operands.map (List.map Char.toLower)) =
      instruction name operands := by
  rw [instruction, instruction, sameLetters_map_toLower, operand_map_toLower,
    widthInName?_map_toLower, ofMnemonic?_map_toLower, List.isEmpty_map]

theorem rawByte_map_toLower (token : List Char) :
    rawByte (token.map Char.toLower) = rawByte token := by
  rw [rawByte, rawByte, number?_map_toLower]

theorem ofDirective_map_toLower (name : List Char) (operands : List (List Char)) :
    Plan.ofDirective (name.map Char.toLower) (operands.map (List.map Char.toLower)) =
      Plan.ofDirective name operands := by
  rw [Plan.ofDirective, Plan.ofDirective, sameLetters_map_toLower, List.isEmpty_map, List.map_map]
  simp only [Function.comp_def, rawByte_map_toLower]

theorem ofTokens_map_toLower (ts : List (List Char)) :
    Plan.ofTokens (ts.map (List.map Char.toLower)) = Plan.ofTokens ts := by
  rcases ts with _ | ⟨name, operands⟩
  · rfl
  · have hsame : sameLetters (name.map Char.toLower) name = true := by
      rw [sameLetters_map_toLower, sameLetters_self]
    rw [List.map_cons, Plan.ofTokens, Plan.ofTokens, List.length_map, ofDirective_map_toLower,
      instruction_map_toLower]
    simp only [head?_eq_iff_of_sameLetters hsame (d := '.') rfl]

/-! ### Tokens -/

theorem ofTokens_congr {ts us : List (List Char)} (h : SameTexts ts us) :
    Plan.ofTokens ts = Plan.ofTokens us := by
  rw [← ofTokens_map_toLower ts, sameTexts_iff.1 h, ofTokens_map_toLower]

theorem tokens_map_toLower (text : List Char) :
    tokens (text.map Char.toLower) = (tokens text).map (List.map Char.toLower) := by
  rw [tokens, tokens, pieces_map isBlank_toLower, List.filter_map]
  simp only [Function.comp_def, List.isEmpty_map]

theorem beforeComment_map_toLower (line : List Char) :
    beforeComment (line.map Char.toLower) = (beforeComment line).map Char.toLower := by
  have hcut : ∀ c : Char, (c.toLower != ';') = (c != ';') := fun c =>
    congrArg not (toLower_beq rfl c)
  rw [beforeComment, beforeComment, List.takeWhile_map]
  simp only [Function.comp_def, hcut]

end Stack256.Listing
