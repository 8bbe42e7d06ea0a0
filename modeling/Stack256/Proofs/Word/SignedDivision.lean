import Mathlib
import Stack256.Proofs.Word.Signed

/-!
# Stack256.Proofs.Word.SignedDivision — quotient and remainder of signed words

For a divisor other than zero, `Word.sdiv` and `Word.smod` are congruent to the truncated quotient
and to the rest that it leaves, so that they make up the dividend (`sdiv_mul_add_smod_modEq`).  The
rest is smaller than the divisor and is never changed by the wrap; the quotient is for one pair of
words only, the least word by `-1` (`toInt_sdiv_eq_iff`).  Main statement: `truncated_division`.
-/

namespace Stack256.Word

open Semantics

variable {a b : Word}

theorem toInt_ne_zero (hb : b ≠ 0) : b.toInt ≠ 0 :=
  fun h => hb (BitVec.eq_of_toInt_eq h)

/-! ### Quotient and rest -/

theorem modEq_tdiv_iff (hb : b ≠ 0) (w : Word) :
    (w.toNat : ℤ) ≡ a.toInt.tdiv b.toInt [ZMOD modulus] ↔ w = Word.sdiv a b := by
  rw [modEq_iff_toNat_eq_wrap, ← BitVec.toNat_inj, toNat_sdiv hb, signed_toNat, signed_toNat]

theorem modEq_tmod_iff (hb : b ≠ 0) (w : Word) :
    (w.toNat : ℤ) ≡ a.toInt.tmod b.toInt [ZMOD modulus] ↔ w = Word.smod a b := by
  rw [modEq_iff_toNat_eq_wrap, ← BitVec.toNat_inj, toNat_smod hb, signed_toNat, signed_toNat]

/-- Quotient and rest make up the dividend. -/
theorem sdiv_mul_add_smod_modEq (hb : b ≠ 0) :
    (Word.sdiv a b).toNat * b.toNat + (Word.smod a b).toNat ≡ a.toNat [MOD modulus] := by
  have hq := (modEq_tdiv_iff (a := a) hb _).2 rfl
  have hr := (modEq_tmod_iff (a := a) hb _).2 rfl
  apply Int.natCast_modEq_iff.1
  push_cast
  calc ((Word.sdiv a b).toNat * b.toNat + (Word.smod a b).toNat : ℤ)
      ≡ a.toInt.tdiv b.toInt * b.toInt + a.toInt.tmod b.toInt [ZMOD modulus] :=
        (hq.mul (toNat_modEq_toInt b)).add hr
    _ = a.toInt := Int.tdiv_mul_add_tmod a.toInt b.toInt
    _ ≡ a.toNat [ZMOD modulus] := (toNat_modEq_toInt a).symm

theorem toInt_smod (hb : b ≠ 0) : (Word.smod a b).toInt = a.toInt.tmod b.toInt := by
  rw [Word.smod, if_neg hb, BitVec.toInt_srem]

theorem abs_toInt_smod_lt (hb : b ≠ 0) : |(Word.smod a b).toInt| < |b.toInt| := by
  have hpos : 0 < b.toInt.natAbs := Int.natAbs_pos.2 (toInt_ne_zero hb)
  rw [toInt_smod hb, Int.abs_eq_natAbs, Int.abs_eq_natAbs, Int.natAbs_tmod, Int.ofNat_lt]
  exact Nat.mod_lt _ hpos

theorem sign_toInt_smod (hb : b ≠ 0) :
    (Word.smod a b).toInt = 0 ∨ (Word.smod a b).toInt.sign = a.toInt.sign := by
  rw [toInt_smod hb]
  by_cases h : b.toInt ∣ a.toInt
  · exact .inl (Int.tmod_eq_zero_of_dvd h)
  · exact .inr (by rw [Int.sign_tmod, if_neg h])

/-! ### The quotient that wraps -/

theorem toInt_eq_least_iff : a.toInt = -2 ^ 255 ↔ a = BitVec.intMin 256 := by
  rw [← BitVec.toInt_inj]
  rfl

theorem toInt_eq_neg_one_iff : b.toInt = -1 ↔ b = -1 := by
  rw [← BitVec.toInt_inj]
  rfl

/-- The quotient is a signed word in all cases but one, where it is `2 ^ 255`. -/
theorem toInt_sdiv_eq_iff (hb : b ≠ 0) :
    (Word.sdiv a b).toInt = a.toInt.tdiv b.toInt ↔ ¬ (a.toInt = -2 ^ 255 ∧ b.toInt = -1) := by
  constructor
  · rintro h ⟨ha, hb'⟩
    have hlt := BitVec.two_mul_toInt_lt (x := Word.sdiv a b)
    rw [h, ha, hb'] at hlt
    exact absurd hlt (by decide)
  · intro h
    rw [toInt_eq_least_iff, toInt_eq_neg_one_iff, not_and_or] at h
    rw [Word.sdiv, if_neg hb]
    exact BitVec.toInt_sdiv_of_ne_or_ne a b h

/-! ### Main statement -/

/-- **Signed division** truncates: `quotient` and `rest` are those of the signed readings, and both
are read back from the words, except the quotient of the least word by `-1`. -/
theorem truncated_division (a b : Word) :
    (b = 0 → Word.sdiv a b = 0 ∧ Word.smod a b = 0) ∧
    (b ≠ 0 →
      let quotient := a.toInt.tdiv b.toInt
      let rest := a.toInt - quotient * b.toInt
      (∀ w : Word, (w.toNat : ℤ) ≡ quotient [ZMOD modulus] ↔ w = Word.sdiv a b) ∧
      (∀ w : Word, (w.toNat : ℤ) ≡ rest [ZMOD modulus] ↔ w = Word.smod a b) ∧
      (Word.sdiv a b).toNat * b.toNat + (Word.smod a b).toNat ≡ a.toNat [MOD modulus] ∧
      ((Word.smod a b).toInt = rest ∧ |(Word.smod a b).toInt| < |b.toInt| ∧
        ((Word.smod a b).toInt = 0 ∨ (Word.smod a b).toInt.sign = a.toInt.sign)) ∧
      ((Word.sdiv a b).toInt = quotient ↔ ¬ (a.toInt = -2 ^ 255 ∧ b.toInt = -1)) ∧
      (a.toInt = -2 ^ 255 → b.toInt = -1 →
        (Word.sdiv a b).toNat = 2 ^ 255 ∧ Word.smod a b = 0)) := by
  refine ⟨fun hb => ⟨if_pos hb, if_pos hb⟩, fun hb => ?_⟩
  have hrest : a.toInt - a.toInt.tdiv b.toInt * b.toInt = a.toInt.tmod b.toInt := by
    have h := Int.tdiv_mul_add_tmod a.toInt b.toInt
    omega
  dsimp only
  rw [hrest]
  refine ⟨modEq_tdiv_iff hb, modEq_tmod_iff hb, sdiv_mul_add_smod_modEq hb,
    ⟨toInt_smod hb, abs_toInt_smod_lt hb, sign_toInt_smod hb⟩, toInt_sdiv_eq_iff hb,
    fun ha hb' => ?_⟩
  · obtain rfl := toInt_eq_least_iff.1 ha
    obtain rfl := toInt_eq_neg_one_iff.1 hb'
    exact ⟨by decide +kernel, by decide +kernel⟩

/-- The least word by `-1` wraps, `-7` by `2` is rounded toward zero, and by zero both are zero. -/
theorem truncated_division_least :
    ((BitVec.intMin 256).toInt = -2 ^ 255 ∧ (-1 : Word).toInt = -1 ∧ (-1 : Word) ≠ 0 ∧
      (Word.sdiv (BitVec.intMin 256) (-1)).toNat = 2 ^ 255 ∧
      Word.smod (BitVec.intMin 256) (-1) = 0) ∧
    ((2 : Word) ≠ 0 ∧ (Word.sdiv (-7) 2).toInt = Int.tdiv (-7) 2 ∧ Int.tdiv (-7) 2 = -3 ∧
      (Word.smod (-7) 2).toInt = -1) ∧
    Word.sdiv (-7) 0 = 0 ∧ Word.smod (-7) 0 = 0 := by
  have hmin : (BitVec.intMin 256).toInt = -2 ^ 255 := toInt_eq_least_iff.2 rfl
  have hneg : (-1 : Word).toInt = -1 := toInt_eq_neg_one_iff.2 rfl
  have hseven : ¬ ((-7 : Word).toInt = -2 ^ 255 ∧ (2 : Word).toInt = -1) := by decide
  have hne : (-1 : Word) ≠ 0 := by decide
  have htwo : (2 : Word) ≠ 0 := by decide
  obtain ⟨-, -, -, -, -, hwrap⟩ := (truncated_division (BitVec.intMin 256) (-1)).2 hne
  obtain ⟨-, -, -, ⟨hrest, -, -⟩, hquotient, -⟩ := (truncated_division (-7) 2).2 htwo
  exact ⟨⟨hmin, hneg, hne, hwrap hmin hneg⟩, ⟨htwo, hquotient.2 hseven, rfl, hrest⟩,
    (truncated_division (-7) 0).1 rfl⟩

end Stack256.Word
