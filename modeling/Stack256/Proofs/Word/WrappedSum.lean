import Mathlib
import Stack256.Proofs.Opcode.Integer

/-!
# Stack256.Proofs.Word.WrappedSum — the sum that is wrapped before it is reduced

A sum of two words that is no word loses `2 ^ 256` before `addMod` divides it.  Its residue stays
what it was exactly for the divisors of `2 ^ 256` (`wrapped_mod_eq_iff`), and these are the powers
of two (`dvd_modulus_iff`).  Main statement: `addMod_exact_iff`.
-/

namespace Stack256.Word

open Semantics

/-- A sum below `2 * n`, less `n` where it reaches `n`, has the residue of the sum in two cases: it
does not reach `n`, or nothing is lost modulo the divisor. -/
theorem wrapped_mod_eq_iff {n sum : ℕ} (h : sum < 2 * n) (m : ℕ) :
    sum % n % m = sum % m ↔ sum < n ∨ m ∣ n := by
  by_cases hlt : sum < n
  · rw [Nat.mod_eq_of_lt hlt]
    exact iff_of_true rfl (.inl hlt)
  · have hwrap : sum % n = sum - n := by
      rw [Nat.mod_eq_sub_mod (not_lt.1 hlt), Nat.mod_eq_of_lt (by omega)]
    have hlost : sum - (sum - n) = n := by omega
    rw [or_iff_right hlt, hwrap]
    change sum - n ≡ sum [MOD m] ↔ m ∣ n
    rw [Nat.modEq_iff_dvd' (Nat.sub_le sum n), hlost]

/-- The words that divide the number of words are the powers of two. -/
theorem dvd_modulus_iff (m : Word) : m.toNat ∣ modulus ↔ m.toNat.isPowerOfTwo := by
  rw [modulus, Nat.dvd_prime_pow Nat.prime_two]
  constructor
  · rintro ⟨k, -, hk⟩
    exact ⟨k, hk⟩
  · rintro ⟨k, hk⟩
    have hlt : 2 ^ k < 2 ^ 256 := hk ▸ m.isLt
    exact ⟨k, ((Nat.pow_lt_pow_iff_right (by decide)).1 hlt).le, hk⟩

/-- For a modulus other than zero, the result is the residue of the wrapped sum.  It is the residue
of the exact sum if that is a word or the modulus is a power of two, which means that it divides
`2 ^ 256`, and in no other case. -/
theorem addMod_exact_iff (a b m : Word) :
    (m = 0 → addMod a b m = 0) ∧
    (m ≠ 0 →
      (addMod a b m).toNat = (a.toNat + b.toNat) % modulus % m.toNat ∧
      ((addMod a b m).toNat = (a.toNat + b.toNat) % m.toNat ↔
        a.toNat + b.toNat < modulus ∨ m.toNat.isPowerOfTwo)) ∧
    (m.toNat.isPowerOfTwo ↔ m.toNat ∣ modulus) := by
  refine ⟨fun hm => if_pos hm, fun hm => ?_, (dvd_modulus_iff m).symm⟩
  have hvalue : (addMod a b m).toNat = (a.toNat + b.toNat) % modulus % m.toNat := by
    rw [Opcode.toNat_addMod, if_neg (mt (Opcode.eq_zero_iff_toNat m).2 hm)]
  have hsum : a.toNat + b.toNat < 2 * modulus := by
    have ha := a.isLt
    have hb := b.isLt
    rw [modulus]
    omega
  refine ⟨hvalue, ?_⟩
  rw [hvalue, wrapped_mod_eq_iff hsum, dvd_modulus_iff]

/-- The sum of `2 ^ 256 - 1` and `2` is wrapped to one.  That is the exact residue modulo two, but
not modulo three, where the exact sum leaves two. -/
theorem addMod_exact_iff_wrapped :
    ((2 : Word) ≠ 0 ∧ (2 : Word).toNat.isPowerOfTwo ∧ addMod (-1) 2 2 = 1 ∧
      (addMod (-1) 2 2).toNat = ((-1 : Word).toNat + (2 : Word).toNat) % (2 : Word).toNat) ∧
    ((3 : Word) ≠ 0 ∧ addMod (-1) 2 3 = 1 ∧
      ((-1 : Word).toNat + (2 : Word).toNat) % (3 : Word).toNat = 2 ∧
      ¬ ((-1 : Word).toNat + (2 : Word).toNat < modulus ∨ (3 : Word).toNat.isPowerOfTwo)) ∧
    addMod (-1) 2 0 = 0 := by
  have htwo : (2 : Word) ≠ 0 := by decide
  have hthree : (3 : Word) ≠ 0 := by decide
  have hpower : (2 : Word).toNat.isPowerOfTwo := ⟨1, rfl⟩
  have hexact := ((addMod_exact_iff (-1) 2 2).2.1 htwo).2.2 (.inr hpower)
  have hother := mt ((addMod_exact_iff (-1) 2 3).2.1 hthree).2.2 (by decide +kernel)
  exact ⟨⟨htwo, hpower, by decide +kernel, hexact⟩,
    ⟨hthree, by decide +kernel, by decide +kernel, hother⟩, (addMod_exact_iff (-1) 2 0).1 rfl⟩

end Stack256.Word
