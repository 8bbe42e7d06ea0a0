import Mathlib
import Stack256.Semantics.Integer
import Stack256.Word

/-!
# Stack256.Proofs.Word.Signed — words as signed integers

A word is determined by its two's-complement reading (`toNat_eq_wrap_toInt`), so that the signed
quotient, the signed remainder and the sign extension are each given by one integer.
-/

namespace Stack256.Word

open Semantics

theorem signed_toNat (w : Word) : signed w.toNat = w.toInt := by
  rw [signed, modulus, BitVec.toInt_eq_toNat_bmod]

theorem wrap_bmod (z : ℤ) : wrap (z.bmod modulus) = wrap z := by
  rw [wrap, wrap, Int.bmod_emod]

theorem wrap_natCast (n : ℕ) : wrap n = n % modulus := by
  rw [wrap, ← Int.natCast_emod, Int.toNat_natCast]

/-- The signed reading determines the word. -/
theorem toNat_eq_wrap_toInt (w : Word) : w.toNat = wrap w.toInt := by
  rw [← signed_toNat, signed, wrap_bmod, wrap_natCast]
  exact (Nat.mod_eq_of_lt w.isLt).symm

/-- There is one word that is congruent to an integer. -/
theorem modEq_iff_toNat_eq_wrap (w : Word) (z : ℤ) :
    (w.toNat : ℤ) ≡ z [ZMOD modulus] ↔ w.toNat = wrap z := by
  have hw : (w.toNat : ℤ) % modulus = w.toNat :=
    Int.emod_eq_of_lt (Int.natCast_nonneg _) (Int.ofNat_lt.2 w.isLt)
  have hz : 0 ≤ z % modulus := Int.emod_nonneg z (by norm_num [modulus])
  rw [Int.ModEq, hw, wrap]
  constructor
  · intro h
    exact congrArg Int.toNat h
  · intro h
    rw [h]
    exact Int.toNat_of_nonneg hz

theorem toNat_modEq_toInt (w : Word) : (w.toNat : ℤ) ≡ w.toInt [ZMOD modulus] :=
  (modEq_iff_toNat_eq_wrap w _).2 (toNat_eq_wrap_toInt w)

theorem toNat_sub_eq_wrap (a b : Word) : (a - b).toNat = wrap ((a.toNat : ℤ) - b.toNat) := by
  have ha := a.isLt
  have hb := b.isLt
  rw [BitVec.toNat_sub, wrap, modulus]
  omega

/-! ### Division -/

theorem toNat_sdiv {a b : Word} (hb : b ≠ 0) :
    (Word.sdiv a b).toNat = wrap (Int.tdiv (signed a.toNat) (signed b.toNat)) := by
  rw [Word.sdiv, if_neg hb, toNat_eq_wrap_toInt, BitVec.toInt_sdiv, signed_toNat, signed_toNat]
  exact wrap_bmod _

theorem toNat_smod {a b : Word} (hb : b ≠ 0) :
    (Word.smod a b).toNat = wrap (Int.tmod (signed a.toNat) (signed b.toNat)) := by
  rw [Word.smod, if_neg hb, toNat_eq_wrap_toInt, BitVec.toInt_srem, signed_toNat, signed_toNat]

/-! ### Sign extension -/

theorem toNat_lowMask {n : ℕ} (hn : n < 256) : (lowMask n).toNat = 2 ^ n - 1 := by
  have hpos : 1 ≤ 2 ^ n := Nat.one_le_two_pow
  have hlt : 2 ^ n < 2 ^ 256 := Nat.pow_lt_pow_right (by decide) hn
  rw [lowMask, Nat.one_shiftLeft, BitVec.toNat_sub, BitVec.natCast_eq_ofNat, BitVec.toNat_ofNat,
    Nat.mod_eq_of_lt hlt, show (1 : Word).toNat = 1 from rfl]
  omega

theorem getLsbD_lowMask {n : ℕ} (hn : n < 256) (i : ℕ) :
    (lowMask n).getLsbD i = decide (i < n) := by
  rw [BitVec.getLsbD, toNat_lowMask hn, Nat.testBit_two_pow_sub_one]

/-- Below byte 31, sign extension reads the low bytes as a shorter bit vector and widens that. -/
theorem signExtend_eq {k : Word} (hk : k < 31) (v : Word) :
    Word.signExtend k v = BitVec.signExtend 256 (v.setWidth (8 * k.toNat + 8)) := by
  have hk' : k.toNat < 31 := hk
  have hmask : ∀ i, (lowMask (8 * k.toNat + 7 + 1)).getLsbD i = decide (i < 8 * k.toNat + 8) :=
    getLsbD_lowMask (by omega)
  rw [Word.signExtend, if_neg (by simpa using hk)]
  apply BitVec.eq_of_getLsbD_eq
  intro i hi
  rw [BitVec.getLsbD_signExtend, BitVec.msb_setWidth'', BitVec.getLsbD_setWidth,
    decide_eq_true hi, Bool.true_and]
  by_cases hs : v.getLsbD (8 * k.toNat + 7)
  · rw [if_pos hs, BitVec.getLsbD_or, BitVec.getLsbD_not, hmask, decide_eq_true hi]
    by_cases hin : i < 8 * k.toNat + 8 <;> simp [hs, hin]
  · rw [if_neg hs, BitVec.getLsbD_and, hmask]
    by_cases hin : i < 8 * k.toNat + 8 <;> simp [hs, hin]

/-- Below byte 31, sign extension is the reduction into the signed range of `k + 1` bytes. -/
theorem toInt_signExtend {k : Word} (hk : k < 31) (v : Word) :
    (Word.signExtend k v).toInt = Int.bmod v.toNat (256 ^ (k.toNat + 1)) := by
  have hk' : k.toNat < 31 := hk
  rw [signExtend_eq hk, BitVec.toInt_signExtend_of_le (by omega), BitVec.toInt_setWidth,
    show 8 * k.toNat + 8 = 8 * (k.toNat + 1) by ring, pow_mul]
  norm_num

theorem toNat_signExtend (k v : Word) :
    (Word.signExtend k v).toNat =
      if 31 ≤ k.toNat then v.toNat else wrap (Int.bmod v.toNat (256 ^ (k.toNat + 1))) := by
  by_cases hk : 31 ≤ k.toNat
  · rw [if_pos hk, Word.signExtend, if_pos (show 31 ≤ k from hk)]
  · rw [if_neg hk, toNat_eq_wrap_toInt, toInt_signExtend (show k < 31 from Nat.not_le.1 hk)]

end Stack256.Word
