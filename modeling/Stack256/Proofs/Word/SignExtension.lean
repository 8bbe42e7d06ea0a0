import Mathlib
import Stack256.Proofs.Word.Place
import Stack256.Proofs.Word.Signed

/-!
# Stack256.Proofs.Word.SignExtension — sign extension as a reading of low bytes

Below byte 31, the extension from byte `k` is the only word in the signed range of `k + 1` bytes
that is congruent to its operand modulo `2 ^ (8 * k + 8)` (`eq_signExtend_iff`).  All else follows
from that: higher bits count for nothing, and of two extensions the narrower one decides.  Main
statement: `signExtend_exact`.
-/

namespace Stack256.Word

open Semantics

variable {i j k u v : Word}

/-! ### The range and the residue -/

theorem signExtend_of_le (hk : 31 ≤ k.toNat) (v : Word) : Word.signExtend k v = v :=
  if_pos (show 31 ≤ k from hk)

/-- Modulo a power of two up to the width, the signed reading of a word may stand for the unsigned.
-/
theorem toInt_modEq_iff {n : ℕ} (hn : n ≤ 256) (w v : Word) :
    w.toInt ≡ v.toNat [ZMOD (2 ^ n : ℕ)] ↔ w.toNat ≡ v.toNat [MOD 2 ^ n] := by
  have hpow : ((2 ^ n : ℕ) : ℤ) ∣ modulus := Int.natCast_dvd_natCast.2 (Nat.pow_dvd_pow 2 hn)
  have hw : (w.toNat : ℤ) ≡ w.toInt [ZMOD (2 ^ n : ℕ)] := (toNat_modEq_toInt w).of_dvd hpow
  rw [← Int.natCast_modEq_iff]
  exact ⟨hw.trans, hw.symm.trans⟩

/-- The extension from byte `k` is one word of the signed range of `k + 1` bytes. -/
theorem eq_signExtend_iff (hk : k.toNat < 31) (v w : Word) :
    w = Word.signExtend k v ↔
      -2 ^ (8 * k.toNat + 7) ≤ w.toInt ∧ w.toInt < 2 ^ (8 * k.toNat + 7) ∧
      w.toNat ≡ v.toNat [MOD 2 ^ (8 * k.toNat + 8)] := by
  have hpow : 256 ^ (k.toNat + 1) = 2 ^ (8 * k.toNat + 8) := by
    rw [show 8 * k.toNat + 8 = 8 * (k.toNat + 1) by ring, pow_mul]
    norm_num
  have hhalf : ((2 ^ (8 * k.toNat + 8) : ℕ) : ℤ) = 2 * 2 ^ (8 * k.toNat + 7) := by
    push_cast
    exact pow_succ' 2 _
  rw [← toInt_modEq_iff (by omega), Int.modEq_comm, Int.modEq_iff_dvd, ← BitVec.toInt_inj,
    toInt_signExtend (show k < 31 from hk), hpow, eq_comm, Int.bmod_eq_iff (Nat.two_pow_pos _),
    hhalf]
  constructor
  · rintro ⟨hlow, hhigh, hdvd⟩
    exact ⟨by omega, by omega, hdvd⟩
  · rintro ⟨hlow, hhigh, hdvd⟩
    exact ⟨by omega, by omega, hdvd⟩

/-- Bits above the sign bit count for nothing. -/
theorem signExtend_congr (hk : k.toNat < 31)
    (h : ∀ i ≤ 8 * k.toNat + 7, u.getLsbD i = v.getLsbD i) :
    Word.signExtend k u = Word.signExtend k v := by
  have hlow : u.setWidth (8 * k.toNat + 8) = v.setWidth (8 * k.toNat + 8) := by
    apply BitVec.eq_of_getLsbD_eq
    intro i hi
    rw [BitVec.getLsbD_setWidth, BitVec.getLsbD_setWidth, h i (by omega)]
  rw [signExtend_eq (show k < 31 from hk), signExtend_eq (show k < 31 from hk), hlow]

/-! ### Extensions of extensions -/

theorem signExtend_signExtend_of_le (hij : i.toNat ≤ j.toNat) (v : Word) :
    Word.signExtend i (Word.signExtend j v) = Word.signExtend i v := by
  by_cases hj : 31 ≤ j.toNat
  · rw [signExtend_of_le hj]
  · have hj : j.toNat < 31 := by omega
    have hi : i.toNat < 31 := by omega
    have hpow : 2 ^ (8 * i.toNat + 8) ∣ 2 ^ (8 * j.toNat + 8) := Nat.pow_dvd_pow 2 (by omega)
    obtain ⟨-, -, hv⟩ := (eq_signExtend_iff hj v _).1 rfl
    obtain ⟨hlow, hhigh, hres⟩ := (eq_signExtend_iff hi (Word.signExtend j v) _).1 rfl
    exact (eq_signExtend_iff hi v _).2 ⟨hlow, hhigh, hres.trans (hv.of_dvd hpow)⟩

theorem signExtend_signExtend_of_lt (hji : j.toNat < i.toNat) (v : Word) :
    Word.signExtend i (Word.signExtend j v) = Word.signExtend j v := by
  by_cases hi : 31 ≤ i.toNat
  · rw [signExtend_of_le hi]
  · have hi : i.toNat < 31 := by omega
    have hj : j.toNat < 31 := by omega
    have hrange : (2 : ℤ) ^ (8 * j.toNat + 7) ≤ 2 ^ (8 * i.toNat + 7) :=
      pow_le_pow_right₀ (by norm_num) (by omega)
    obtain ⟨hlow, hhigh, -⟩ := (eq_signExtend_iff hj v _).1 rfl
    exact ((eq_signExtend_iff hi _ _).2 ⟨by omega, by omega, rfl⟩).symm

/-! ### Places in registers -/

/-- Below byte 31 the place of the sign bit lies in the register. -/
theorem toNat_signPlace (hk : k.toNat < 31) : (signPlace k).toNat = 8 * k.toNat + 7 := by
  rw [signPlace, UInt32.toNat_add, UInt32.toNat_mul, UInt32.toNat_ofNat']
  simp only [UInt32.reduceToNat]
  omega

theorem shiftUp_one_sub_one {place : UInt32} (h : place.toNat < 256) :
    shiftUp 1 place - 1 = lowMask place.toNat := by
  rw [shiftUp, Nat.mod_eq_of_lt h]
  rfl

/-- With its places in registers the extension is the same. -/
theorem signExtendIn_eq_signExtend (k v : Word) : signExtendIn k v = Word.signExtend k v := by
  unfold signExtendIn Word.signExtend
  by_cases hle : 31 ≤ k
  · rw [if_pos hle, if_pos hle]
  · have hk : k.toNat < 31 := Nat.not_le.1 hle
    have hsign := toNat_signPlace hk
    have hnext : (signPlace k + 1).toNat = 8 * k.toNat + 7 + 1 := by
      rw [UInt32.toNat_add, hsign, UInt32.toNat_one]
      omega
    rw [if_neg hle, if_neg hle]
    dsimp only
    rw [isSet_eq v (by omega), hsign, shiftUp_one_sub_one (by omega), hnext]

/-! ### Main statement -/

/-- **Sign extension.**  Below byte 31 the result is the only word in the signed range of `k + 1`
bytes that is congruent to `v`; of two extensions the narrower decides. -/
theorem signExtend_exact (k v : Word) :
    (31 ≤ k.toNat → Word.signExtend k v = v) ∧
    (k.toNat < 31 →
      (∀ w : Word, w = Word.signExtend k v ↔
        -2 ^ (8 * k.toNat + 7) ≤ w.toInt ∧ w.toInt < 2 ^ (8 * k.toNat + 7) ∧
        w.toNat ≡ v.toNat [MOD 2 ^ (8 * k.toNat + 8)]) ∧
      ∀ u : Word, (∀ i ≤ 8 * k.toNat + 7, u.getLsbD i = v.getLsbD i) →
        Word.signExtend k u = Word.signExtend k v) ∧
    (∀ j : Word, Word.signExtend k (Word.signExtend j v) =
      Word.signExtend (if k ≤ j then k else j) v) ∧
    signExtendIn k v = Word.signExtend k v := by
  refine ⟨fun hk => signExtend_of_le hk v,
    fun hk => ⟨eq_signExtend_iff hk v, fun u hu => signExtend_congr hk hu⟩, fun j => ?_,
    signExtendIn_eq_signExtend k v⟩
  by_cases hkj : k ≤ j
  · rw [if_pos hkj]
    exact signExtend_signExtend_of_le hkj v
  · rw [if_neg hkj]
    exact signExtend_signExtend_of_lt (Nat.not_le.1 hkj) v

/-- Of `0x1ff` byte zero is read as `-1`, whatever stands above it, and byte one as positive; an
index whose lowest bits are zero is no index below 31. -/
theorem signExtend_exact_high_index :
    (31 ≤ (2 ^ 32 : Word).toNat ∧ Word.signExtend (2 ^ 32) 0x1ff = 0x1ff) ∧
    ((0 : Word).toNat < 31 ∧ (-2 ^ (8 * (0 : Word).toNat + 7) ≤ (-1 : Word).toInt ∧
        (-1 : Word).toInt < 2 ^ (8 * (0 : Word).toNat + 7) ∧
        (-1 : Word).toNat ≡ (0x1ff : Word).toNat [MOD 2 ^ (8 * (0 : Word).toNat + 8)]) ∧
      -1 = Word.signExtend 0 0x1ff) ∧
    ((∀ i ≤ 8 * (0 : Word).toNat + 7, (0xff : Word).getLsbD i = (0x1ff : Word).getLsbD i) ∧
      Word.signExtend 0 0xff = Word.signExtend 0 0x1ff) ∧
    Word.signExtend 1 (Word.signExtend 0 0x1ff) = Word.signExtend 0 0x1ff := by
  have hhigh : 31 ≤ (2 ^ 32 : Word).toNat := by decide
  have hlow : (0 : Word).toNat < 31 := by decide
  have hrange : -2 ^ (8 * (0 : Word).toNat + 7) ≤ (-1 : Word).toInt ∧
      (-1 : Word).toInt < 2 ^ (8 * (0 : Word).toNat + 7) ∧
      (-1 : Word).toNat ≡ (0x1ff : Word).toNat [MOD 2 ^ (8 * (0 : Word).toNat + 8)] := by decide
  have hbits : ∀ i ≤ 8 * (0 : Word).toNat + 7,
      (0xff : Word).getLsbD i = (0x1ff : Word).getLsbD i := by decide
  obtain ⟨hunique, hcongr⟩ := (signExtend_exact 0 0x1ff).2.1 hlow
  exact ⟨⟨hhigh, (signExtend_exact (2 ^ 32) 0x1ff).1 hhigh⟩,
    ⟨hlow, hrange, (hunique (-1)).2 hrange⟩, ⟨hbits, hcongr 0xff hbits⟩,
    (signExtend_exact 1 0x1ff).2.2.1 0⟩

end Stack256.Word
