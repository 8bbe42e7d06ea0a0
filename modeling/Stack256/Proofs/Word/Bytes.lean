import Mathlib
import Stack256.Proofs.Word.BitFold
import Stack256.Semantics.Integer

/-!
# Stack256.Proofs.Word.Bytes — reading and writing words as bytes

Up to 32 bytes, `Word.ofBytes` and `Word.bytes` are inverse to each other: the bytes of a word are
its lowest digits in base 256 (`bigEndian_bytes`), and byte strings of one length are determined by
their values (`bigEndian_inj`).
-/

namespace Stack256.Word

open Semantics

/-! ### Reading -/

theorem bigEndian_lt (l : List UInt8) : bigEndian l < 256 ^ l.length := by
  induction l with
  | nil => simp [bigEndian]
  | cons b l ih =>
    have hb : b.toNat + 1 ≤ 256 := b.toNat_lt
    calc bigEndian (b :: l) < b.toNat * 256 ^ l.length + 256 ^ l.length := by
          rw [bigEndian]
          omega
      _ = (b.toNat + 1) * 256 ^ l.length := by ring
      _ ≤ 256 * 256 ^ l.length := Nat.mul_le_mul_right _ hb
      _ = 256 ^ (b :: l).length := by rw [List.length_cons, pow_succ']

/-- Bytes read behind a word continue it in base 256. -/
theorem toNat_foldl_bytes (l : List UInt8) (w : Word) :
    (l.foldl (fun w b => w * 256 + BitVec.ofNat 256 b.toNat) w).toNat =
      (w.toNat * 256 ^ l.length + bigEndian l) % modulus := by
  induction l generalizing w with
  | nil => simpa [bigEndian, modulus] using (Nat.mod_eq_of_lt w.isLt).symm
  | cons b l ih =>
    have hb : b.toNat < 2 ^ 256 := b.toNat_lt.trans (by norm_num)
    have hw : (w * 256 + BitVec.ofNat 256 b.toNat).toNat
        ≡ w.toNat * 256 + b.toNat [MOD modulus] := by
      rw [BitVec.toNat_add, BitVec.toNat_mul, BitVec.toNat_ofNat, Nat.mod_eq_of_lt hb]
      exact (Nat.mod_modEq _ _).trans ((Nat.mod_modEq _ _).add_right _)
    rw [List.foldl_cons, ih, bigEndian, List.length_cons, pow_succ']
    refine ((hw.mul_right _).add_right _).trans ?_
    rw [show (w.toNat * 256 + b.toNat) * 256 ^ l.length + bigEndian l =
      w.toNat * (256 * 256 ^ l.length) + (b.toNat * 256 ^ l.length + bigEndian l) by ring]

theorem toNat_ofBytes (l : List UInt8) : (ofBytes l).toNat = bigEndian l % modulus := by
  rw [ofBytes, toNat_foldl_bytes]
  simp

theorem toNat_ofBytes_of_length_le {l : List UInt8} (h : l.length ≤ 32) :
    (ofBytes l).toNat = bigEndian l := by
  have hlt : bigEndian l < modulus :=
    calc bigEndian l < 256 ^ l.length := bigEndian_lt l
      _ ≤ 256 ^ 32 := Nat.pow_le_pow_right (by decide) h
      _ = modulus := by norm_num [modulus]
  rw [toNat_ofBytes, Nat.mod_eq_of_lt hlt]

/-- Byte strings of one length are determined by their values. -/
theorem bigEndian_inj {l m : List UInt8} (hlen : l.length = m.length)
    (h : bigEndian l = bigEndian m) : l = m := by
  induction l generalizing m with
  | nil => exact (List.length_eq_zero_iff.1 hlen.symm).symm
  | cons b l ih =>
    obtain _ | ⟨c, m⟩ := m
    · simp at hlen
    have hlen' : l.length = m.length := by simpa using hlen
    have hl := bigEndian_lt l
    have hm := bigEndian_lt m
    rw [bigEndian, bigEndian, ← hlen'] at h
    rw [← hlen'] at hm
    have hpos : 0 < 256 ^ l.length := Nat.pow_pos (by decide)
    have hbc : b.toNat = c.toNat := by
      have hd := congrArg (· / 256 ^ l.length) h
      simpa [Nat.mul_add_div hpos, Nat.div_eq_of_lt hl, Nat.div_eq_of_lt hm, mul_comm] using hd
    rw [UInt8.toNat_inj.1 hbc, ih hlen' (by rw [hbc] at h; omega)]

/-! ### Writing -/

theorem toNat_byte (w : Word) (i : ℕ) : (byte w i).toNat = w.toNat / 256 ^ i % 256 := by
  rw [byte, UInt8.toNat_ofNat', BitVec.toNat_ushiftRight, Nat.shiftRight_eq_div_pow, pow_mul]
  norm_num

theorem bigEndian_bytes (w : Word) (n : ℕ) : bigEndian (bytes w n) = w.toNat % 256 ^ n := by
  induction n with
  | zero => simp [bytes, bigEndian, Nat.mod_one]
  | succ n ih =>
    rw [bytes, bigEndian, ih, toNat_byte, length_bytes, Nat.mod_pow_succ]
    ring

theorem byteCount_le_iff (w : Word) (n : ℕ) : byteCount w ≤ n ↔ w.toNat < 256 ^ n := by
  have h : byteCount w ≤ n ↔ digitCount w ≤ 8 * n := by
    unfold byteCount
    omega
  rw [h, digitCount_le_iff, pow_mul]
  norm_num

theorem byteCount_le (w : Word) : byteCount w ≤ 32 :=
  (byteCount_le_iff w 32).2 (lt_of_lt_of_eq w.isLt (by norm_num))

theorem byteCount_pos {w : Word} (h : w ≠ 0) : 1 ≤ byteCount w := by
  by_contra hc
  have hw := (byteCount_le_iff w 0).1 (by omega)
  exact h (BitVec.eq_of_toNat_eq (by simpa using hw))

/-! ### Round trips -/

/-- Enough bytes of a word give the word back. -/
theorem ofBytes_bytes {w : Word} {n : ℕ} (h : byteCount w ≤ n) (hn : n ≤ 32) :
    ofBytes (bytes w n) = w := by
  apply BitVec.eq_of_toNat_eq
  rw [toNat_ofBytes_of_length_le (by simpa using hn), bigEndian_bytes,
    Nat.mod_eq_of_lt ((byteCount_le_iff w n).1 h)]

theorem byteCount_ofBytes_le {l : List UInt8} (h : l.length ≤ 32) :
    byteCount (ofBytes l) ≤ l.length := by
  rw [byteCount_le_iff, toNat_ofBytes_of_length_le h]
  exact bigEndian_lt l

/-- At most 32 bytes, leading zeros included, are the bytes of their word. -/
theorem bytes_ofBytes {l : List UInt8} (h : l.length ≤ 32) : bytes (ofBytes l) l.length = l := by
  apply bigEndian_inj (length_bytes _ _)
  rw [bigEndian_bytes, toNat_ofBytes_of_length_le h, Nat.mod_eq_of_lt (bigEndian_lt l)]

end Stack256.Word
