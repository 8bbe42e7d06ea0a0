import Mathlib
import Stack256.Text

/-!
# Stack256.Proofs.Text.LetterCase — where letter case means nothing

Lower case changes no character but the letters from `A` to `Z`, so that a text that equals one
without letters up to case is that text (`toLower_eq_iff`).  White space and its absence stay what
they are (`isBlank_toLower`), and digits and numerals have the same value in either case
(`numeral?_map_toLower`).
-/

namespace Stack256.Text

/-- No other character becomes one that is no letter. -/
theorem toLower_eq_iff {c d : Char} (hd : d.isAlpha = false) : c.toLower = d ↔ c = d := by
  constructor
  · rintro rfl
    have hc : ¬ c.isUpper := by
      intro hu
      rw [Char.isAlpha_toLower_eq_isAlpha, Char.isAlpha, hu] at hd
      cases hd
    rw [Char.toLower_eq_of_not_isUpper hc]
  · rintro rfl
    exact Char.toLower_eq_of_not_isUpper fun hu => by
      rw [Char.isAlpha, hu] at hd
      cases hd

theorem toLower_beq {d : Char} (hd : d.isAlpha = false) (c : Char) :
    (c.toLower == d) = (c == d) := by
  rw [Bool.eq_iff_iff, beq_iff_eq, beq_iff_eq, toLower_eq_iff hd]

theorem exists_of_isUpper {c : Char} (h : c.isUpper) : ∃ n, 65 ≤ n ∧ n ≤ 90 ∧ c = Char.ofNat n := by
  refine ⟨c.toNat, ?_, ?_, (Char.ofNat_toNat c).symm⟩
  all_goals
    simp only [Char.isUpper, decide_eq_true_eq, UInt32.le_iff_toNat_le] at h
  · exact h.1
  · exact h.2

theorem toLower_eq_x_iff {c : Char} : c.toLower = 'x' ↔ c = 'x' ∨ c = 'X' := by
  by_cases h : c.isUpper
  · obtain ⟨n, hlow, hhigh, rfl⟩ := exists_of_isUpper h
    interval_cases n <;> decide
  · rw [Char.toLower_eq_of_not_isUpper h]
    refine ⟨.inl, fun hc => hc.resolve_right ?_⟩
    rintro rfl
    exact h rfl

theorem isBlank_toLower (c : Char) : isBlank c.toLower = isBlank c := by
  by_cases h : c.isUpper
  · obtain ⟨n, hlow, hhigh, rfl⟩ := exists_of_isUpper h
    interval_cases n <;> rfl
  · rw [Char.toLower_eq_of_not_isUpper h]

theorem map_toLower_map_toLower (s : List Char) :
    (s.map Char.toLower).map Char.toLower = s.map Char.toLower := by
  rw [List.map_map]
  exact List.map_congr_left fun c _ => Char.toLower_toLower_eq_toLower c

theorem sameLetters_map_toLower (s t : List Char) :
    sameLetters (s.map Char.toLower) t = sameLetters s t := by
  rw [sameLetters, sameLetters, map_toLower_map_toLower]

theorem sameLetters_map_toUpper (s : List Char) : sameLetters (s.map Char.toUpper) s = true := by
  rw [sameLetters_iff, List.map_map]
  exact List.map_congr_left fun c _ => Char.toLower_toUpper_eq_toLower c

/-- The texts of the one list are those of the other up to letter case. -/
def SameTexts (ts us : List (List Char)) : Prop :=
  List.Forall₂ (fun t u => sameLetters t u = true) ts us

theorem sameTexts_iff {ts us : List (List Char)} :
    SameTexts ts us ↔ ts.map (List.map Char.toLower) = us.map (List.map Char.toLower) := by
  have heq : ∀ xs ys : List (List Char), xs = ys ↔ List.Forall₂ (· = ·) xs ys := fun xs ys => by
    rw [List.forall₂_eq_eq_eq]
  rw [heq, List.forall₂_map_left_iff, List.forall₂_map_right_iff]
  simp only [SameTexts, sameLetters_iff]

theorem hexDigit?_toLower (c : Char) : hexDigit? c.toLower = hexDigit? c := by
  by_cases h : c.isUpper
  · obtain ⟨n, hlow, hhigh, rfl⟩ := exists_of_isUpper h
    interval_cases n <;> rfl
  · rw [Char.toLower_eq_of_not_isUpper h]

theorem digits?_map_toLower (base : ℕ) (s : List Char) :
    digits? base (s.map Char.toLower) = digits? base s := by
  have hdigit : digit? base ∘ Char.toLower = digit? base := by
    funext c
    rw [Function.comp_apply, digit?, hexDigit?_toLower, digit?]
  have hmapM : (s.map Char.toLower).mapM (digit? base) = s.mapM (digit? base) := by
    rw [List.mapM_map, hdigit]
  unfold digits?
  rw [hmapM]
  simp only [List.map_eq_nil_iff]

theorem numeral?_cons (base : ℕ) (c : Char) (s : List Char) :
    numeral? base (c :: s) = if c = '+' then digits? base s else digits? base (c :: s) := by
  by_cases h : c = '+'
  · subst h
    rfl
  · rw [if_neg h, numeral?]
    rintro s' ⟨rfl, -⟩
    exact h rfl

theorem numeral?_map_toLower (base : ℕ) (s : List Char) :
    numeral? base (s.map Char.toLower) = numeral? base s := by
  rcases s with _ | ⟨c, s⟩
  · rfl
  · rw [List.map_cons, numeral?_cons, numeral?_cons, ← List.map_cons, digits?_map_toLower,
      digits?_map_toLower]
    exact if_congr (toLower_eq_iff rfl) rfl rfl

end Stack256.Text
