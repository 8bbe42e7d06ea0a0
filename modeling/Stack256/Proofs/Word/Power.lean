import Mathlib
import Stack256.Proofs.Word.Place
import Stack256.Semantics.Integer

/-!
# Stack256.Proofs.Word.Power — the modular power at every place

`powFrom base exponent i` is the running result of the power once the bits of the exponent from
place `i` up are read: the power to the exponent shifted down by `i` places, modulo `2 ^ 256`
(`toNat_powFrom`).  Above the highest bit that is set nothing is read and the power is one; at place
zero all is read.  Main statement: `pow_exact`.
-/

namespace Stack256.Word

open Semantics

variable {base exponent : Word}

/-- The running result of the power once the bits of the exponent from place `i` up are read. -/
def powFrom (base exponent : Word) (i : ℕ) : Word :=
  foldFrom (powStep base) 1 exponent i

theorem significant_le (w : Word) : significant w ≤ 256 :=
  Nat.sub_le _ _

theorem powFrom_significant : powFrom base exponent (significant exponent) = 1 := by
  rw [significant_eq_digitCount]
  exact foldFrom_digitCount exponent

/-- Each place adds one step to the places above it: a square, and a product if its bit is set. -/
theorem powFrom_eq_step {i : ℕ} (hi : i < significant exponent) :
    powFrom base exponent i =
      powStep base (powFrom base exponent (i + 1)) (isSet exponent (UInt32.ofNat i)) := by
  rw [isSet_ofNat exponent (hi.trans_le (significant_le exponent))]
  exact foldFrom_eq_step exponent (significant_eq_digitCount exponent ▸ hi)

/-- The running result is the power to the number read so far. -/
theorem toNat_powFrom {i : ℕ} (hi : i ≤ significant exponent) :
    (powFrom base exponent i).toNat = base.toNat ^ (exponent.toNat >>> i) % modulus := by
  rw [significant_eq_digitCount] at hi
  have h : (powFrom base exponent i).toNat ≡ base.toNat ^ (exponent.toNat >>> i) [MOD 2 ^ 256] :=
    foldFrom_keeps (fun n (r : Word) => r.toNat ≡ base.toNat ^ n [MOD 2 ^ 256])
      (fun _ _ d hr => powStep_modEq hr d) 1 rfl exponent hi
  rwa [Nat.ModEq, Nat.mod_eq_of_lt (powFrom base exponent i).isLt] at h

theorem lt_two_pow_significant (w : Word) : w.toNat < 2 ^ significant w := by
  rw [significant_eq_digitCount]
  exact toNat_lt_pow_digitCount w

/-- **Powers.**  The power is that of the integers modulo `2 ^ 256`; before place `i` the running
result of the loop is the power to the exponent without its `i` lowest places. -/
theorem pow_exact (base exponent : Word) :
    (pow base exponent).toNat = base.toNat ^ exponent.toNat % modulus ∧
    pow base 0 = 1 ∧
    (powFrom base exponent (significant exponent) = 1 ∧
      powFrom base exponent 0 = pow base exponent) ∧
    (∀ i < significant exponent, powFrom base exponent i =
      powStep base (powFrom base exponent (i + 1)) (isSet exponent (UInt32.ofNat i))) ∧
    (∀ i ≤ significant exponent, (powFrom base exponent i).toNat =
      base.toNat ^ (exponent.toNat >>> i) % modulus) ∧
    exponent.toNat < 2 ^ significant exponent ∧ significant exponent ≤ 256 := by
  exact ⟨toNat_pow base exponent, rfl, ⟨powFrom_significant, foldFrom_zero exponent⟩,
    fun i hi => powFrom_eq_step hi, fun i hi => toNat_powFrom hi,
    lt_two_pow_significant exponent, significant_le exponent⟩

/-- Over the greatest exponent the loop takes all 256 places, and `-1` to an odd power is `-1`; `2`
to the power `256` is zero, and zero to the power zero is one. -/
theorem pow_exact_greatest :
    (0 < significant (-1) ∧ significant (-1) = 256 ∧ isSet (-1) (UInt32.ofNat 0) = true ∧
      powFrom (-1) (-1) 0 = powStep (-1) (powFrom (-1) (-1) 1) true ∧
      powFrom (-1) (-1) 1 = -1 ∧ pow (-1) (-1) = -1) ∧
    (255 ≤ significant (-1) ∧
      (powFrom 3 (-1) 255).toNat = (3 : Word).toNat ^ ((-1 : Word).toNat >>> 255) % modulus) ∧
    ((pow 2 256).toNat = (2 : Word).toNat ^ (256 : Word).toNat % modulus ∧ pow 2 256 = 0) ∧
    pow 0 0 = 1 := by
  have hcount : significant (-1) = 256 := by decide +kernel
  have hset : isSet (-1) (UInt32.ofNat 0) = true := by decide +kernel
  have hpos : 0 < significant (-1) := by omega
  have hhigh : 255 ≤ significant (-1) := by omega
  obtain ⟨-, -, -, hstep, -⟩ := pow_exact (-1) (-1)
  obtain ⟨-, -, -, -, hvalue, -⟩ := pow_exact 3 (-1)
  have h := hstep 0 hpos
  rw [hset] at h
  exact ⟨⟨hpos, hcount, hset, h, by decide +kernel, by decide +kernel⟩, ⟨hhigh, hvalue 255 hhigh⟩,
    ⟨(pow_exact 2 256).1, by decide +kernel⟩, (pow_exact 0 0).2.1⟩

end Stack256.Word
