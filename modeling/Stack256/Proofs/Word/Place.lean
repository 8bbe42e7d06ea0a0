import Mathlib
import Stack256.Proofs.Word.BitFold
import Stack256.Word.Storage

/-!
# Stack256.Proofs.Word.Place — words place by place

The digits of a word from place `i` up write the word shifted down by `i` places
(`readDigits_take_digits`).  `foldFrom` is the running result of a loop once these digits are read:
one step leads from each place to the one below it (`foldFrom_eq_step`), and a relation that every
step keeps holds between the shifted word and the running result (`foldFrom_keeps`).  Places in
registers are those places: the highest digit is at the highest set bit
(`significant_eq_digitCount`), and bits are read where they are (`isSet_ofNat`).
-/

namespace Stack256.Word

/-! ### The digits above a place -/

@[simp] theorem length_bitsBelow (w : Word) (n : ℕ) : (bitsBelow w n).length = n := by
  induction n with
  | zero => rfl
  | succ n ih => rw [bitsBelow, List.length_cons, ih]

/-- The digits from place `i` up are those above it, and then the one at `i`. -/
theorem take_bitsBelow (w : Word) {n i : ℕ} (hi : i < n) :
    (bitsBelow w n).take (n - i) = (bitsBelow w n).take (n - (i + 1)) ++ [w.getLsbD i] := by
  induction n with
  | zero => omega
  | succ n ih =>
    rw [bitsBelow, Nat.add_sub_add_right]
    obtain rfl | hlt := Nat.eq_or_lt_of_le (Nat.le_of_lt_succ hi)
    · simp
    · obtain ⟨k, hk⟩ : ∃ k, n - i = k + 1 := ⟨n - i - 1, by omega⟩
      rw [show n + 1 - i = n - i + 1 by omega, List.take_succ_cons, ih hlt,
        show n - i = n - (i + 1) + 1 by omega, List.take_succ_cons, List.cons_append]

/-- Shifted by one place less, a word has one digit more. -/
theorem shiftRight_toNat (w : Word) (i : ℕ) :
    w.toNat >>> i = 2 * (w.toNat >>> (i + 1)) + (w.getLsbD i).toNat := by
  rw [BitVec.getLsbD, Nat.toNat_testBit, ← Nat.shiftRight_eq_div_pow, Nat.shiftRight_succ]
  omega

theorem shiftRight_digitCount (w : Word) : w.toNat >>> digitCount w = 0 := by
  rw [Nat.shiftRight_eq_div_pow]
  exact Nat.div_eq_of_lt (toNat_lt_pow_digitCount w)

theorem readDigits_take_digits (w : Word) {i : ℕ} (hi : i ≤ digitCount w) :
    readDigits 0 ((digits w).take (digitCount w - i)) = w.toNat >>> i := by
  -- The loop goes down the places, so the induction starts at the highest.
  induction hi using Nat.decreasingInduction with
  | self => simp [readDigits, shiftRight_digitCount]
  | of_succ i hi ih =>
    rw [digits, readDigits] at ih ⊢
    rw [take_bitsBelow w hi, List.foldl_append, ih, shiftRight_toNat w i]
    rfl

/-! ### The running result of a loop -/

section Loop

variable {α : Type} {step : α → Bool → α} {r₀ : α}

/-- The running result of a loop over the digits of `w`, once those from place `i` up are read. -/
def foldFrom (step : α → Bool → α) (r₀ : α) (w : Word) (i : ℕ) : α :=
  ((digits w).take (digitCount w - i)).foldl step r₀

@[simp] theorem foldFrom_digitCount (w : Word) : foldFrom step r₀ w (digitCount w) = r₀ := by
  simp [foldFrom]

theorem foldFrom_zero (w : Word) : foldFrom step r₀ w 0 = (digits w).foldl step r₀ := by
  rw [foldFrom, Nat.sub_zero, List.take_of_length_le]
  rw [digits, length_bitsBelow]

/-- Each place adds one step to the places above it. -/
theorem foldFrom_eq_step (w : Word) {i : ℕ} (hi : i < digitCount w) :
    foldFrom step r₀ w i = step (foldFrom step r₀ w (i + 1)) (w.getLsbD i) := by
  rw [foldFrom, digits, take_bitsBelow w hi, List.foldl_append]
  rfl

/-- What every step keeps holds at every place. -/
theorem foldFrom_keeps (R : ℕ → α → Prop) (hstep : ∀ n r d, R n r → R (2 * n + d.toNat) (step r d))
    (r₀ : α) (h₀ : R 0 r₀) (w : Word) {i : ℕ} (hi : i ≤ digitCount w) :
    R (w.toNat >>> i) (foldFrom step r₀ w i) := by
  have h := foldl_readDigits hstep ((digits w).take (digitCount w - i)) h₀
  rwa [readDigits_take_digits w hi] at h

end Loop

/-! ### Places in registers -/

/-- The highest digit of a word is its highest bit that is set. -/
theorem significant_eq_digitCount (w : Word) : significant w = digitCount w := by
  by_cases hw : w = 0
  · rw [significant, BitVec.clz_eq_iff_eq_zero.2 hw, digitCount, if_pos hw]
    rfl
  · have hlow := BitVec.two_pow_sub_clz_le_toNat_of_ne_zero (by decide) hw
    have hhigh := BitVec.toNat_lt_two_pow_sub_clz (x := w)
    apply le_antisymm
    · by_contra hlt
      have h := (digitCount_le_iff w (256 - 1 - w.clz.toNat)).1 (by rw [significant] at hlt; omega)
      omega
    · exact (digitCount_le_iff w _).2 hhigh

theorem isSet_eq (w : Word) {place : UInt32} (h : place.toNat < 256) :
    isSet w place = w.getLsbD place.toNat := by
  rw [isSet, shiftDown, Nat.mod_eq_of_lt h]
  cases hb : w.getLsbD place.toNat <;> simp [BitVec.and_one_eq_setWidth_ofBool_getLsbD, hb]

theorem isSet_ofNat (w : Word) {i : ℕ} (h : i < 256) :
    isSet w (UInt32.ofNat i) = w.getLsbD i := by
  have hi : (UInt32.ofNat i).toNat = i := by
    rw [UInt32.toNat_ofNat']
    omega
  rw [isSet_eq w (by omega), hi]

end Stack256.Word
