import Mathlib
import Stack256.Listing.NumberRules
import Stack256.Proofs.Text.LetterCase
import Stack256.Proofs.Text.Numeral

/-!
# Stack256.Proofs.Listing.Number — exactly the numbers are read

Each reader accepts what its rule says and gives its value: a digit (`digit?_eq_some_iff`), digits
(`digits?_eq_some_iff`), an unsigned number (`magnitude?_eq_some_iff`) and a number with its sign
(`number?_eq_some_iff`).  No rule overlaps another, since neither a sign nor an `x` is a digit.  The
texts of an integer are read as the integer, modulo `2 ^ 256`.  Main statement: `number_reads`.
-/

namespace Stack256.Listing

open Text Semantics

/-! ### Digits -/

theorem eq_digitChar_of_hexDigit? {c : Char} {d : ℕ} (h : hexDigit? c = some d) :
    c = d.digitChar ∨ c = d.digitChar.toUpper := by
  have hrange := toNat_of_hexDigit? h
  obtain ⟨n, hn⟩ : ∃ n, c.toNat = n := ⟨_, rfl⟩
  obtain rfl : c = Char.ofNat n := by rw [← hn, Char.ofNat_toNat]
  rw [hn] at hrange
  clear hn
  rcases hrange with ⟨hlow, hhigh⟩ | ⟨hlow, hhigh⟩ | ⟨hlow, hhigh⟩
  all_goals
    interval_cases n <;> cases h <;> decide

theorem hexDigit?_toUpper_digitChar {d : ℕ} (hd : d < 16) :
    hexDigit? d.digitChar.toUpper = some d := by
  interval_cases d <;> rfl

/-- A character is read as the digit that it is. -/
theorem digit?_eq_some_iff {base d : ℕ} {c : Char} (hb : base ≤ 16) :
    digit? base c = some d ↔ IsDigit base c d := by
  constructor
  · intro h
    have hlt : d < base := of_decide_eq_true (Option.filter_eq_some_iff.1 h).2
    exact ⟨hlt, eq_digitChar_of_hexDigit? (hexDigit?_of_digit? h)⟩
  · rintro ⟨hd, rfl | rfl⟩
    · exact digit?_digitChar hb hd
    · exact Option.filter_eq_some_iff.2 ⟨hexDigit?_toUpper_digitChar (by omega), decide_eq_true hd⟩

theorem mapM_digit?_eq_some_iff {base : ℕ} (hb : base ≤ 16) {s : List Char} {values : List ℕ} :
    s.mapM (digit? base) = some values ↔ List.Forall₂ (IsDigit base) s values := by
  induction s generalizing values with
  | nil => simp [List.forall₂_nil_left_iff, eq_comm]
  | cons c s ih =>
    rw [List.mapM_cons, List.forall₂_cons_left_iff]
    constructor
    · intro h
      obtain ⟨d, hd, h⟩ := Option.bind_eq_some_iff.1 h
      obtain ⟨ds, hds, h⟩ := Option.bind_eq_some_iff.1 h
      exact ⟨d, ds, (digit?_eq_some_iff hb).1 hd, ih.1 hds, (Option.some.inj h).symm⟩
    · rintro ⟨d, ds, hd, hds, rfl⟩
      rw [(digit?_eq_some_iff hb).2 hd, ih.2 hds]
      rfl

/-- The highest digit first, or the lowest first. -/
theorem ofDigits_eq (base : ℕ) (values : List ℕ) :
    Text.ofDigits base values = Nat.ofDigits base values.reverse := by
  rw [Nat.ofDigits_eq_foldr, List.foldr_reverse, Text.ofDigits]
  simp only [Nat.cast_id, add_comm]

theorem digits?_eq_some_iff {base n : ℕ} (hb : base ≤ 16) {s : List Char} :
    digits? base s = some n ↔ Digits base s n := by
  unfold digits? Digits
  by_cases hs : s = []
  · simp [hs]
  · rw [if_neg hs, Option.map_eq_some_iff, and_iff_right hs]
    refine exists_congr fun values => ?_
    rw [mapM_digit?_eq_some_iff hb, ofDigits_eq, eq_comm]

theorem not_digits_of_mem {base n : ℕ} (hb : base ≤ 16) {s : List Char} {c : Char} (hc : c ∈ s)
    (hd : digit? base c = none) : ¬ Digits base s n := by
  intro h
  obtain ⟨d, h⟩ := digit?_of_mem ((digits?_eq_some_iff hb).2 h) hc
  rw [hd] at h
  cases h

/-! ### Numbers without a minus sign -/

theorem numeral?_eq_some_iff {base n : ℕ} (hb : base ≤ 16) {s : List Char} :
    numeral? base s = some n ↔ Digits base s n ∨ ∃ t, s = '+' :: t ∧ Digits base t n := by
  have hplus : ∀ t, ¬ Digits base ('+' :: t) n := fun t =>
    not_digits_of_mem hb List.mem_cons_self rfl
  cases s with
  | nil =>
    rw [show numeral? base [] = digits? base [] from rfl, digits?_eq_some_iff hb]
    exact ⟨.inl, fun h => h.resolve_right fun ⟨_, ht, _⟩ => List.cons_ne_nil _ _ ht.symm⟩
  | cons c t =>
    rw [numeral?_cons]
    by_cases hc : c = '+'
    · subst hc
      rw [if_pos rfl, digits?_eq_some_iff hb, or_iff_right (hplus t)]
      constructor
      · intro h
        exact ⟨t, rfl, h⟩
      · rintro ⟨u, hu, h⟩
        rwa [(List.cons.inj hu).2]
    · rw [if_neg hc, digits?_eq_some_iff hb]
      exact ⟨.inl, fun h => h.resolve_right fun ⟨_, ht, _⟩ => hc (List.cons.inj ht).1⟩

theorem numeral?_ne_some_of_mem {base n : ℕ} (hb : base ≤ 16) {s : List Char} {c : Char}
    (hc : c ∈ s) (hplus : c ≠ '+') (hd : digit? base c = none) : numeral? base s ≠ some n := by
  intro h
  obtain hs | ⟨t, rfl, ht⟩ := (numeral?_eq_some_iff hb).1 h
  · exact not_digits_of_mem hb hc hd hs
  · exact not_digits_of_mem hb (List.mem_of_ne_of_mem hplus hc) hd ht

theorem Mark.base_le {base : ℕ} {mark : List Char} (h : Mark base mark) : base ≤ 16 := by
  cases h <;> decide

/-- An unsigned number is a numeral behind the mark of its base. -/
theorem unsigned_iff {s : List Char} {n : ℕ} :
    Unsigned s n ↔ ∃ base mark t, Mark base mark ∧ s = mark ++ t ∧ numeral? base t = some n := by
  constructor
  · intro h
    cases h with
    | bare hm hd => exact ⟨_, _, _, hm, rfl, (numeral?_eq_some_iff hm.base_le).2 (.inl hd)⟩
    | plus hm hd =>
      exact ⟨_, _, _, hm, rfl, (numeral?_eq_some_iff hm.base_le).2 (.inr ⟨_, rfl, hd⟩)⟩
  · rintro ⟨base, mark, t, hm, rfl, h⟩
    obtain hd | ⟨u, rfl, hd⟩ := (numeral?_eq_some_iff hm.base_le).1 h
    · exact .bare hm hd
    · exact .plus hm hd

theorem wordOf?_toNat (w : Word) : wordOf? w.toNat = some w := by
  rw [wordOf?, BitVec.ofNat_toNat, BitVec.setWidth_eq, if_pos rfl]

theorem wordOf?_eq_some_iff {n : ℕ} {w : Word} :
    wordOf? n = some w ↔ n ≤ modulus - 1 ∧ w.toNat = n := by
  constructor
  · intro h
    unfold wordOf? at h
    dsimp only at h
    split_ifs at h with hn
    obtain rfl := Option.some.inj h
    have hlt := (BitVec.ofNat 256 n).isLt
    rw [hn] at hlt
    exact ⟨Nat.le_sub_one_of_lt hlt, hn⟩
  · rintro ⟨-, rfl⟩
    exact wordOf?_toNat w

/-- Behind the mark of its base a numeral is read in that base. -/
theorem magnitude?_append {base n : ℕ} {mark t : List Char} (hm : Mark base mark)
    (h : numeral? base t = some n) : magnitude? (mark ++ t) = wordOf? n := by
  have hread : (numeral? base t).bind wordOf? = wordOf? n := by rw [h, Option.bind_some]
  cases hm with
  | ten =>
    -- `x` is no decimal digit, so that the text does not start as one in base sixteen
    rw [List.nil_append]
    unfold magnitude?
    split
    · exact absurd h (numeral?_ne_some_of_mem (by decide) (show 'x' ∈ _ by simp) (by decide) rfl)
    · exact absurd h (numeral?_ne_some_of_mem (by decide) (show 'X' ∈ _ by simp) (by decide) rfl)
    · exact hread
  | sixteen => exact hread
  | sixteenUpper => exact hread

theorem magnitude?_eq_some_iff {s : List Char} {w : Word} :
    magnitude? s = some w ↔ ∃ n, Unsigned s n ∧ n ≤ modulus - 1 ∧ w.toNat = n := by
  constructor
  · intro h
    unfold magnitude? at h
    split at h
    all_goals
      obtain ⟨n, hn, hw⟩ := Option.bind_eq_some_iff.1 h
      refine ⟨n, unsigned_iff.2 ?_, wordOf?_eq_some_iff.1 hw⟩
    · exact ⟨16, ['0', 'x'], _, .sixteen, rfl, hn⟩
    · exact ⟨16, ['0', 'X'], _, .sixteenUpper, rfl, hn⟩
    · exact ⟨10, [], _, .ten, rfl, hn⟩
  · rintro ⟨n, hu, hw⟩
    obtain ⟨base, mark, t, hm, rfl, ht⟩ := unsigned_iff.1 hu
    rw [magnitude?_append hm ht, wordOf?_eq_some_iff.2 hw]

/-! ### Numbers -/

theorem not_unsigned_minus (s : List Char) (n : ℕ) : ¬ Unsigned ('-' :: s) n := by
  intro h
  obtain ⟨base, mark, t, hm, hs, ht⟩ := unsigned_iff.1 h
  cases hm with
  | ten =>
    obtain rfl : '-' :: s = t := hs
    exact numeral?_ne_some_of_mem (by decide) List.mem_cons_self (by decide) rfl ht
  | sixteen => cases hs
  | sixteenUpper => cases hs

/-- A token is read as a word exactly if it is a number that stands for it. -/
theorem number?_eq_some_iff {token : List Char} {w : Word} :
    number? token = some w ↔ NumberToken token w := by
  constructor
  · intro h
    unfold number? at h
    split at h
    · obtain ⟨v, hv, rfl⟩ := Option.map_eq_some_iff.1 h
      obtain ⟨n, hu, hn, rfl⟩ := magnitude?_eq_some_iff.1 hv
      exact .negative hu hn (BitVec.toNat_neg v)
    · obtain ⟨n, hu, hn, rfl⟩ := magnitude?_eq_some_iff.1 h
      exact .positive hu hn (Nat.mod_eq_of_lt w.isLt).symm
  · intro h
    cases h with
    | @positive _ n _ hu hn hw =>
      rw [Nat.mod_eq_of_lt (Nat.lt_of_le_sub_one (by decide) hn)] at hw
      have hm := magnitude?_eq_some_iff.2 ⟨n, hu, hn, hw⟩
      unfold number?
      split
      · exact absurd hu (not_unsigned_minus _ n)
      · exact hm
    | @negative text n _ hu hn hw =>
      have hlt : n < modulus := Nat.lt_of_le_sub_one (by decide) hn
      have hv : (BitVec.ofNat 256 n).toNat = n := Nat.mod_eq_of_lt hlt
      have hm := magnitude?_eq_some_iff.2 ⟨n, hu, hn, hv⟩
      have hneg : -BitVec.ofNat 256 n = w := by
        apply BitVec.eq_of_toNat_eq
        rw [BitVec.toNat_neg, hv, hw]
        rfl
      rw [number?, hm, Option.map_some, hneg]

theorem number?_eq_none_iff {token : List Char} :
    number? token = none ↔ ∀ w, ¬ NumberToken token w := by
  simp only [← number?_eq_some_iff, Option.eq_none_iff_forall_ne_some, ne_eq]

theorem operand_eq_ok_iff {token : List Char} {w : Word} :
    operand [token] = .ok w ↔ number? token = some w := by
  rw [operand]
  cases number? token <;> simp

theorem operand_eq_badNumber_iff {token : List Char} :
    operand [token] = .error .badNumber ↔ number? token = none := by
  rw [operand]
  cases number? token <;> simp

/-! ### Texts of integers -/

theorem unsigned_text (base : Base) (n : ℕ) : Unsigned (base.text n) n := by
  cases base with
  | ten =>
    have h := numeral?_of_digits? (digits?_toDigits (by decide : 1 < 10) (by decide) n)
    exact unsigned_iff.2 ⟨10, [], _, .ten, rfl, h⟩
  | sixteen =>
    have h := numeral?_of_digits? (digits?_toDigits (by decide : 1 < 16) (by decide) n)
    exact unsigned_iff.2 ⟨16, ['0', 'x'], _, .sixteen, rfl, h⟩

/-- A printed number is read as the word it was printed for. -/
theorem number?_text (base : Base) (w : Word) : number? (base.text w.toNat) = some w :=
  number?_eq_some_iff.2 <| .positive (unsigned_text base w.toNat) (Nat.le_sub_one_of_lt w.isLt)
    (Nat.mod_eq_of_lt w.isLt).symm

/-- The text of an integer is a number that stands for its residue. -/
theorem numberToken_integerText (base : Base) {z : ℤ} (hz : |z| < 2 ^ 256) :
    NumberToken (integerText base z) (BitVec.ofInt 256 z) := by
  have hbounds := abs_lt.1 hz
  have hmagnitude : z.natAbs ≤ modulus - 1 := by
    rw [modulus]
    omega
  unfold integerText
  split_ifs with hneg
  · refine .negative (unsigned_text base z.natAbs) hmagnitude ?_
    rw [BitVec.toNat_ofInt, modulus]
    omega
  · refine .positive (unsigned_text base z.natAbs) hmagnitude ?_
    rw [BitVec.toNat_ofInt, modulus]
    omega

theorem toList_toString_int (z : ℤ) : (toString z).toList = integerText .ten z := by
  rw [Int.toString_eq_repr, Int.repr_eq_if, integerText]
  split_ifs with h1 h2 h2
  · omega
  · have habs : z.toNat = z.natAbs := by omega
    rw [habs, Nat.repr_eq_ofList_toDigits, String.toList_ofList]
    rfl
  · have habs : (-z).toNat = z.natAbs := by omega
    rw [habs, String.toList_append, Nat.repr_eq_ofList_toDigits, String.toList_ofList,
      String.toList_ofList]
    rfl
  · omega

/-! ### Main statement -/

/-- Exactly the numbers are read, each as the word it stands for, and every other token is refused
as no number.  The decimal text of an integer and its text in base sixteen are read as the integer
modulo `2 ^ 256`. -/
theorem number_reads :
    (∀ token : List Char,
      (∀ w, number? token = some w ↔ NumberToken token w) ∧
      (number? token = none ↔ ∀ w, ¬ NumberToken token w) ∧
      (∀ w, operand [token] = .ok w ↔ NumberToken token w) ∧
      (operand [token] = .error .badNumber ↔ ∀ w, ¬ NumberToken token w)) ∧
    ∀ z : ℤ, |z| < 2 ^ 256 → ∃ w : Word, (w.toNat : ℤ) = z % 2 ^ 256 ∧
      number? (toString z).toList = some w ∧ number? (integerText .sixteen z) = some w := by
  refine ⟨fun token => ?_, fun z hz => ?_⟩
  · refine ⟨fun w => number?_eq_some_iff, number?_eq_none_iff, fun w => ?_, ?_⟩
    · rw [operand_eq_ok_iff, number?_eq_some_iff]
    · rw [operand_eq_badNumber_iff, number?_eq_none_iff]
  · have hread : ∀ base, number? (integerText base z) = some (BitVec.ofInt 256 z) := fun base =>
      number?_eq_some_iff.2 (numberToken_integerText base hz)
    refine ⟨BitVec.ofInt 256 z, ?_, ?_, hread .sixteen⟩
    · rw [BitVec.toNat_ofInt]
      exact Int.toNat_of_nonneg (Int.emod_nonneg z (by norm_num))
    · rw [toList_toString_int, hread]

/-- `-255` is read from either text, signs and zeros may be added, and `2 ^ 256` is refused. -/
theorem number_reads_negative :
    (|(-255 : ℤ)| < 2 ^ 256 ∧ ∃ w : Word, (w.toNat : ℤ) = -255 % 2 ^ 256 ∧
      number? (toString (-255 : ℤ)).toList = some w ∧
      number? (integerText .sixteen (-255)) = some w) ∧
    (toString (-255 : ℤ)).toList = "-255".toList ∧
    integerText .sixteen (-255) = "-0xff".toList ∧
    NumberToken "-0X+00fF".toList (-255) ∧
    (integerText .sixteen (2 ^ 256) = "0x1".toList ++ List.replicate 64 '0' ∧
      operand [integerText .sixteen (2 ^ 256)] = .error .badNumber ∧
      ∀ w, ¬ NumberToken (integerText .sixteen (2 ^ 256)) w) := by
  have hz : |(-255 : ℤ)| < 2 ^ 256 := by norm_num
  have hread : number? "-0X+00fF".toList = some (-255) := by decide +kernel
  have hbad : operand [integerText .sixteen (2 ^ 256)] = .error .badNumber := by decide +kernel
  obtain ⟨htokens, hintegers⟩ := number_reads
  exact ⟨⟨hz, hintegers (-255) hz⟩, by decide +kernel, by decide +kernel,
    ((htokens _).1 _).1 hread, by decide +kernel, hbad, (htokens _).2.2.2.1 hbad⟩

end Stack256.Listing
