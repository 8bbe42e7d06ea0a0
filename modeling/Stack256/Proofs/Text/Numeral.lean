import Mathlib
import Stack256.Text

/-!
# Stack256.Proofs.Text.Numeral — digits as they are written and read

`Nat.toDigits` writes a number in a base, `digits?` reads it (`digits?_toDigits`).  What is read as
digits holds no white space and none of the signs that stand before a number.
-/

namespace Stack256.Text

/-! ### Digits -/

/-- The characters that are digits in base sixteen, by their code points. -/
theorem toNat_of_hexDigit? {c : Char} {d : ℕ} (h : hexDigit? c = some d) :
    (48 ≤ c.toNat ∧ c.toNat ≤ 57) ∨ (97 ≤ c.toNat ∧ c.toNat ≤ 102) ∨
      (65 ≤ c.toNat ∧ c.toNat ≤ 70) := by
  unfold hexDigit? at h
  split_ifs at h with h1 h2 h3
  · exact .inl h1
  · exact .inr (.inl h2)
  · exact .inr (.inr h3)

theorem not_blank_of_hexDigit? {c : Char} {d : ℕ} (h : hexDigit? c = some d) :
    isBlank c = false := by
  have hc := toNat_of_hexDigit? h
  simp only [isBlank, blankRanges, List.any_cons, List.any_nil, Bool.or_eq_false_iff,
    Bool.and_eq_false_iff, decide_eq_false_iff_not, and_true]
  omega

theorem hexDigit?_of_digit? {base d : ℕ} {c : Char} (h : digit? base c = some d) :
    hexDigit? c = some d :=
  (Option.filter_eq_some_iff.1 h).1

theorem digit?_digitChar {base d : ℕ} (hb : base ≤ 16) (hd : d < base) :
    digit? base d.digitChar = some d := by
  have h16 : d < 16 := by omega
  have h : hexDigit? d.digitChar = some d := by
    interval_cases d <;> rfl
  exact Option.filter_eq_some_iff.2 ⟨h, decide_eq_true hd⟩

/-! ### Numbers -/

theorem ofDigits_append (base : ℕ) (l m : List ℕ) :
    ofDigits base (l ++ m) = m.foldl (fun n d => base * n + d) (ofDigits base l) :=
  List.foldl_append

theorem mapM_digit?_toDigits {base : ℕ} (h₁ : 1 < base) (hb : base ≤ 16) (n : ℕ) :
    ∃ ds, (Nat.toDigits base n).mapM (digit? base) = some ds ∧ ofDigits base ds = n := by
  induction n using Nat.base_induction base h₁ with
  | single m hm =>
    refine ⟨[m], ?_, by simp [ofDigits]⟩
    rw [Nat.toDigits_of_lt_base hm, List.mapM_cons, digit?_digitChar hb hm]
    rfl
  | digit m k hk hm ih =>
    obtain ⟨ds, hds, hv⟩ := ih
    refine ⟨ds ++ [k], ?_, by rw [ofDigits_append, hv]; rfl⟩
    rw [← Nat.toDigits_append_toDigits h₁ hm hk, Nat.toDigits_of_lt_base hk, List.mapM_append, hds,
      List.mapM_cons, digit?_digitChar hb hk]
    rfl

theorem digits?_toDigits {base : ℕ} (h₁ : 1 < base) (hb : base ≤ 16) (n : ℕ) :
    digits? base (Nat.toDigits base n) = some n := by
  obtain ⟨ds, hds, hv⟩ := mapM_digit?_toDigits h₁ hb n
  rw [digits?, if_neg Nat.toDigits_ne_nil, hds, Option.map_some, hv]

theorem digit?_of_mapM {base : ℕ} {s : List Char} {ds : List ℕ}
    (h : s.mapM (digit? base) = some ds) {c : Char} (hc : c ∈ s) : ∃ d, digit? base c = some d := by
  induction s generalizing ds with
  | nil => cases hc
  | cons a s ih =>
    rw [List.mapM_cons] at h
    obtain ⟨d, hd, h⟩ := Option.bind_eq_some_iff.1 h
    obtain ⟨es, hes, -⟩ := Option.bind_eq_some_iff.1 h
    obtain rfl | hc := List.mem_cons.1 hc
    · exact ⟨d, hd⟩
    · exact ih hes hc

/-- Every character of a text that is read as digits is a digit. -/
theorem digit?_of_mem {base n : ℕ} {s : List Char} (h : digits? base s = some n) {c : Char}
    (hc : c ∈ s) : ∃ d, digit? base c = some d := by
  unfold digits? at h
  split_ifs at h
  obtain ⟨ds, hds, -⟩ := Option.map_eq_some_iff.1 h
  exact digit?_of_mapM hds hc

theorem numeral?_of_digits? {base n : ℕ} {s : List Char} (h : digits? base s = some n) :
    numeral? base s = some n := by
  unfold numeral?
  split
  · -- a plus sign is no digit
    obtain ⟨d, hd⟩ := digit?_of_mem h List.mem_cons_self
    cases hexDigit?_of_digit? hd
  · exact h

end Stack256.Text
