import Mathlib
import Stack256.Word

/-!
# Stack256.Proofs.Word.BitFold — the values of the modular product and of the power

Both loops walk the binary digits of a word, the highest first, and so both keep a relation between
the number whose digits have been read and the running result (`foldl_digits`).  The product keeps
`r = a * n mod m` (`toNat_mulModStep`), the power keeps `r = base ^ n` modulo `2 ^ 256`
(`powStep_modEq`).
-/

namespace Stack256.Word

/-- The number with the given binary digits, the highest first, read behind the number `n`. -/
def readDigits (n : ℕ) (l : List Bool) : ℕ :=
  l.foldl (fun n d => 2 * n + d.toNat) n

/-- A word has as many digits as its value needs. -/
theorem digitCount_le_iff (w : Word) (n : ℕ) : digitCount w ≤ n ↔ w.toNat < 2 ^ n := by
  unfold digitCount
  by_cases h : w = 0
  · simp [h]
  · have hw : w.toNat ≠ 0 := fun h0 => h (BitVec.eq_of_toNat_eq h0)
    rw [if_neg h, Nat.succ_le_iff, Nat.log2_lt hw]

theorem toNat_lt_pow_digitCount (w : Word) : w.toNat < 2 ^ digitCount w :=
  (digitCount_le_iff w _).1 le_rfl

/-- The bits of `w` below `k` continue the number `n` by the `k` lowest binary places of `w`. -/
theorem readDigits_bitsBelow (w : Word) (k n : ℕ) :
    readDigits n (bitsBelow w k) = n * 2 ^ k + w.toNat % 2 ^ k := by
  induction k generalizing n with
  | zero => simp [readDigits, bitsBelow, Nat.mod_one]
  | succ k ih =>
    have h := ih (2 * n + (w.getLsbD k).toNat)
    rw [show readDigits n (bitsBelow w (k + 1)) =
      readDigits (2 * n + (w.getLsbD k).toNat) (bitsBelow w k) from rfl, h, Nat.mod_pow_succ,
      BitVec.getLsbD, Nat.toNat_testBit]
    ring

theorem readDigits_digits (w : Word) : readDigits 0 (digits w) = w.toNat := by
  unfold digits
  rw [readDigits_bitsBelow, Nat.mod_eq_of_lt (toNat_lt_pow_digitCount w), zero_mul, zero_add]

/-- A relation between the number read and the running result that every digit keeps is kept by
every list of digits. -/
theorem foldl_readDigits {α : Type} {step : α → Bool → α} {R : ℕ → α → Prop}
    (hstep : ∀ n r d, R n r → R (2 * n + d.toNat) (step r d)) :
    ∀ (l : List Bool) {n : ℕ} {r : α}, R n r → R (readDigits n l) (l.foldl step r)
  | [], _, _, h => h
  | d :: l, _, _, h => foldl_readDigits hstep l (hstep _ _ d h)

/-- Over the digits of a word, such a relation ends at the word. -/
theorem foldl_digits {α : Type} {step : α → Bool → α} (R : ℕ → α → Prop)
    (hstep : ∀ n r d, R n r → R (2 * n + d.toNat) (step r d)) (r₀ : α) (h₀ : R 0 r₀)
    (w : Word) :
    R w.toNat ((digits w).foldl step r₀) := by
  have h := foldl_readDigits hstep (digits w) h₀
  rwa [readDigits_digits] at h

/-! ### The modular product -/

theorem toNat_pos {m : Word} (hm : m ≠ 0) : 0 < m.toNat :=
  Nat.pos_of_ne_zero fun h => hm (BitVec.eq_of_toNat_eq h)

theorem lt_of_toNat_eq_mod {r m : Word} {n : ℕ} (hm : m ≠ 0) (h : r.toNat = n % m.toNat) :
    r < m := by
  rw [BitVec.lt_def, h]
  exact Nat.mod_lt _ (toNat_pos hm)

theorem toNat_mod {a m : Word} (hm : m ≠ 0) : (mod a m).toNat = a.toNat % m.toNat := by
  rw [mod, if_neg hm, BitVec.toNat_umod]

theorem overflow_or_le_iff {m x y : Word} (hx : x < m) :
    x.uaddOverflow y ∨ m ≤ x + y ↔ m.toNat ≤ x.toNat + y.toNat := by
  rw [BitVec.lt_def] at hx
  have hm := m.isLt
  simp only [BitVec.uaddOverflow, decide_eq_true_eq, BitVec.le_def, BitVec.toNat_add]
  omega

/-- Residues are added as residues, also where their sum is no word. -/
theorem toNat_addBelow {m x y : Word} (hx : x < m) (hy : y < m) :
    (addBelow m x y).toNat = (x.toNat + y.toNat) % m.toNat := by
  have hc := overflow_or_le_iff (y := y) hx
  rw [BitVec.lt_def] at hx hy
  have hm := m.isLt
  unfold addBelow
  by_cases h : m.toNat ≤ x.toNat + y.toNat
  · rw [if_pos (hc.2 h), BitVec.toNat_sub, BitVec.toNat_add, Nat.mod_eq_sub_mod h,
      Nat.mod_eq_of_lt (by omega : x.toNat + y.toNat - m.toNat < m.toNat)]
    omega
  · rw [if_neg (mt hc.1 h), BitVec.toNat_add, Nat.mod_eq_of_lt (by omega : _ < m.toNat)]
    omega

/-- One digit of the product: the running result stays the residue of `a` times the number read. -/
theorem toNat_mulModStep {a m r : Word} {n : ℕ} (hm : m ≠ 0) (ha : a < m)
    (hr : r.toNat = a.toNat * n % m.toNat) (d : Bool) :
    (mulModStep a m r d).toNat = a.toNat * (2 * n + d.toNat) % m.toNat := by
  have hrm : r < m := lt_of_toNat_eq_mod hm hr
  have hdouble : (addBelow m r r).toNat = a.toNat * (2 * n) % m.toNat := by
    rw [toNat_addBelow hrm hrm, hr, ← Nat.add_mod]
    congr 1
    ring
  unfold mulModStep
  cases d with
  | false => simpa using hdouble
  | true =>
    have hdm : addBelow m r r < m := lt_of_toNat_eq_mod hm hdouble
    rw [if_pos rfl, toNat_addBelow hdm ha, hdouble, Nat.mod_add_mod, Bool.toNat_true, mul_add,
      mul_one]

/-- The product is exact before it is reduced. -/
theorem toNat_mulMod {a b m : Word} (hm : m ≠ 0) :
    (mulMod a b m).toNat = a.toNat * b.toNat % m.toNat := by
  have ha : mod a m < m := lt_of_toNat_eq_mod hm (toNat_mod hm)
  have h := foldl_digits (fun n (r : Word) => r.toNat = (mod a m).toNat * n % m.toNat)
    (fun _ _ d hr => toNat_mulModStep hm ha hr d) 0 (by simp) b
  rw [mulMod, if_neg hm, h, toNat_mod hm, Nat.mod_mul_mod]

/-! ### The power -/

/-- One digit of the power: the running result stays the power to the number read. -/
theorem powStep_modEq {base r : Word} {n : ℕ} (hr : r.toNat ≡ base.toNat ^ n [MOD 2 ^ 256])
    (d : Bool) : (powStep base r d).toNat ≡ base.toNat ^ (2 * n + d.toNat) [MOD 2 ^ 256] := by
  have hsquare : (r * r).toNat ≡ base.toNat ^ (2 * n) [MOD 2 ^ 256] := by
    rw [BitVec.toNat_mul, two_mul, pow_add]
    exact (Nat.mod_modEq _ _).trans (hr.mul hr)
  unfold powStep
  cases d with
  | false => simpa using hsquare
  | true =>
    rw [if_pos rfl, BitVec.toNat_mul, Bool.toNat_true, pow_succ]
    exact (Nat.mod_modEq _ _).trans (hsquare.mul_right _)

/-- The power is exact up to the wrap to a word. -/
theorem toNat_pow (base exponent : Word) :
    (pow base exponent).toNat = base.toNat ^ exponent.toNat % 2 ^ 256 := by
  have h : (pow base exponent).toNat ≡ base.toNat ^ exponent.toNat [MOD 2 ^ 256] :=
    foldl_digits (fun n (r : Word) => r.toNat ≡ base.toNat ^ n [MOD 2 ^ 256])
      (fun _ _ d hr => powStep_modEq hr d) 1 rfl exponent
  rwa [Nat.ModEq, Nat.mod_eq_of_lt (pow base exponent).isLt] at h

end Stack256.Word
