import Mathlib
import Stack256.Proofs.Word.Bytes
import Stack256.Proofs.Word.Place

/-!
# Stack256.Proofs.Word.Block — what is read through a block is the big-endian value

No byte string is too long or too short for the block (`block?_eq_some`), and neither the zeros in
front nor the bytes that are cut off change its value modulo `2 ^ 256` (`readBlock?_eq_some`).  The
number of bytes of a word is the least width that holds it, and data of any width are its lowest
bytes (`pushData?_eq_some`).  Main statement: `bigEndian_exact`.
-/

namespace Stack256.Word

open Semantics

/-! ### Values of parts -/

theorem bigEndian_append (l m : List UInt8) :
    bigEndian (l ++ m) = bigEndian l * 256 ^ m.length + bigEndian m := by
  induction l with
  | nil => simp [bigEndian]
  | cons b l ih =>
    rw [List.cons_append, bigEndian, ih, bigEndian, List.length_append, pow_add]
    ring

theorem bigEndian_replicate_zero (n : ℕ) : bigEndian (List.replicate n 0) = 0 := by
  induction n with
  | zero => rfl
  | succ n ih => simp [List.replicate_succ, bigEndian, ih]

/-- The last bytes of a string have its residue as their value. -/
theorem bigEndian_drop (l : List UInt8) (n : ℕ) :
    bigEndian (l.drop n) = bigEndian l % 256 ^ (l.length - n) := by
  have hlt := bigEndian_lt (l.drop n)
  rw [List.length_drop] at hlt
  have hsplit : bigEndian l =
      bigEndian (l.take n) * 256 ^ (l.length - n) + bigEndian (l.drop n) := by
    rw [← List.length_drop, ← bigEndian_append, List.take_append_drop]
  rw [hsplit, Nat.mul_add_mod_self_right, Nat.mod_eq_of_lt hlt]

/-! ### Reading -/

/-- A block is filled from its end: with zeros in front of a shorter string, or with the last bytes
of a longer one. -/
theorem block?_eq_some (l : List UInt8) :
    block? l = some (List.replicate (32 - l.length) 0 ++ l.drop (l.length - 32)) := by
  have hlast : bytesFrom? l (l.length - 32) = some (l.drop (l.length - 32)) :=
    if_pos (Nat.sub_le _ _)
  have hlength : (l.drop (l.length - 32)).length = l.length - (l.length - 32) := List.length_drop
  have hplace : 32 - (l.drop (l.length - 32)).length = 32 - l.length := by omega
  have hstretch : bytesFrom? (List.replicate 32 0) (32 - l.length) =
      some (List.replicate (32 - (32 - l.length)) 0) := by
    rw [bytesFrom?, List.length_replicate, if_pos (Nat.sub_le _ _), List.drop_replicate]
  have hsame : 32 - (32 - l.length) = (l.drop (l.length - 32)).length := by omega
  have hfront : min (32 - l.length) 32 = 32 - l.length := Nat.min_eq_left (Nat.sub_le _ _)
  simp only [block?, hlast, Option.getD_some, hplace, copyFrom?, hstretch, List.length_replicate]
  rw [if_pos hsame, List.take_replicate, hfront]

theorem readBlock?_eq_some (l : List UInt8) : readBlock? l = some (ofBytes l) := by
  rw [readBlock?, block?_eq_some, Option.map_some]
  congr 1
  apply BitVec.eq_of_toNat_eq
  rw [toNat_ofBytes, toNat_ofBytes, bigEndian_append, bigEndian_replicate_zero, zero_mul, zero_add]
  obtain hle | hlt := le_or_gt l.length 32
  · rw [Nat.sub_eq_zero_of_le hle, List.drop_zero]
  · have hlength : l.length - (l.length - 32) = 32 := by omega
    have hmodulus : 256 ^ 32 = modulus := by norm_num [modulus]
    rw [bigEndian_drop, hlength, hmodulus, Nat.mod_mod]

/-! ### Writing -/

/-- The bytes of a greater number end with the bytes of a smaller one. -/
theorem drop_bytes (w : Word) {n m : ℕ} (h : n ≤ m) : (bytes w m).drop (m - n) = bytes w n := by
  induction h with
  | refl => rw [Nat.sub_self, List.drop_zero]
  | @step m h ih => rw [Nat.succ_sub h, bytes, List.drop_succ_cons, ih]

theorem pushData?_eq_some {n : ℕ} (h : n ≤ 32) (w : Word) : pushData? n w = some (bytes w n) := by
  rw [pushData?, bytesFrom?, length_bytes, if_pos (Nat.sub_le 32 n), drop_bytes w h]

theorem toNat_ofBytes_bytes {n : ℕ} (h : n ≤ 32) (w : Word) :
    (ofBytes (bytes w n)).toNat = w.toNat % 256 ^ n := by
  rw [toNat_ofBytes_of_length_le (by rwa [length_bytes]), bigEndian_bytes]

/-- The data of a push are its value exactly if they are not too few. -/
theorem ofBytes_bytes_eq_iff {n : ℕ} (h : n ≤ 32) (w : Word) :
    ofBytes (bytes w n) = w ↔ byteCount w ≤ n := by
  constructor
  · intro hw
    have hlength := byteCount_ofBytes_le (l := bytes w n) (by rwa [length_bytes])
    rwa [hw, length_bytes] at hlength
  · exact fun hw => ofBytes_bytes hw h

theorem isLeast_byteCount (w : Word) : IsLeast {n | w.toNat < 256 ^ n} (byteCount w) :=
  ⟨(byteCount_le_iff w _).1 le_rfl, fun n hn => (byteCount_le_iff w n).2 hn⟩

theorem byteCount_eq_significant (w : Word) : byteCount w = (significant w + 7) / 8 := by
  rw [significant_eq_digitCount, byteCount]

/-! ### Main statement -/

/-- **Big-endian bytes.**  Bytes `l` are read as their value modulo `2 ^ 256`, and the `n` bytes cut
out for a push as `w` modulo `256 ^ n`, which is `w` where `n` is at least `byteCount w`. -/
theorem bigEndian_exact :
    (∀ l : List UInt8,
      block? l = some (List.replicate (32 - l.length) 0 ++ l.drop (l.length - 32)) ∧
      readBlock? l = some (ofBytes l) ∧ (ofBytes l).toNat = bigEndian l % modulus) ∧
    ∀ w : Word,
      (IsLeast {n | w.toNat < 256 ^ n} (byteCount w) ∧ byteCount w = (significant w + 7) / 8) ∧
      ((bytes w 32).length = 32 ∧ bigEndian (bytes w 32) = w.toNat) ∧
      ∀ n ≤ 32, ∃ data, pushData? n w = some data ∧ (data <:+ bytes w 32 ∧ data.length = n) ∧
        (ofBytes data).toNat = w.toNat % 256 ^ n ∧ (ofBytes data = w ↔ byteCount w ≤ n) := by
  refine ⟨fun l => ⟨block?_eq_some l, readBlock?_eq_some l, toNat_ofBytes l⟩, fun w => ?_⟩
  have hlt : w.toNat < 256 ^ 32 := (byteCount_le_iff w 32).1 (byteCount_le w)
  refine ⟨⟨isLeast_byteCount w, byteCount_eq_significant w⟩, ⟨length_bytes w 32, ?_⟩,
    fun n hn => ?_⟩
  · rw [bigEndian_bytes, Nat.mod_eq_of_lt hlt]
  · have hsuffix : bytes w n <:+ bytes w 32 := drop_bytes w hn ▸ List.drop_suffix _ _
    exact ⟨bytes w n, pushData?_eq_some hn w, ⟨hsuffix, length_bytes w n⟩,
      toNat_ofBytes_bytes hn w, ofBytes_bytes_eq_iff hn w⟩

/-- Of 33 bytes the first counts for nothing.  `256` is held by two bytes and not by one, in which
it is read as zero. -/
theorem bigEndian_exact_boundary :
    (readBlock? (7 :: 1 :: List.replicate 31 0) = some (1 <<< 248) ∧ readBlock? [] = some 0) ∧
    (IsLeast {n | (256 : Word).toNat < 256 ^ n} 2 ∧ byteCount 255 = 1) ∧
    (1 ≤ 32 ∧ pushData? 1 256 = some [0] ∧ (ofBytes [0]).toNat = (256 : Word).toNat % 256 ^ 1 ∧
      ofBytes [0] ≠ 256) ∧
    (3 ≤ 32 ∧ pushData? 3 256 = some [0, 1, 0] ∧ ofBytes [0, 1, 0] = 256) := by
  have hcount : byteCount 256 = 2 := by decide +kernel
  have hone : pushData? 1 256 = some [0] := by decide +kernel
  have hthree : pushData? 3 256 = some [0, 1, 0] := by decide +kernel
  obtain ⟨hread, hword⟩ := bigEndian_exact
  obtain ⟨⟨hleast, -⟩, -, hdata⟩ := hword 256
  obtain ⟨one, h₁, -, hvalue₁, hexact₁⟩ := hdata 1 (by decide)
  obtain ⟨three, h₃, -, -, hexact₃⟩ := hdata 3 (by decide)
  obtain rfl := Option.some.inj (hone.symm.trans h₁)
  obtain rfl := Option.some.inj (hthree.symm.trans h₃)
  rw [hcount] at hleast hexact₁ hexact₃
  exact ⟨⟨(hread _).2.1.trans (by decide +kernel), (hread _).2.1⟩, ⟨hleast, by decide +kernel⟩,
    ⟨by decide, hone, hvalue₁, mt hexact₁.1 (by decide)⟩,
    ⟨by decide, hthree, hexact₃.2 (by decide)⟩⟩

end Stack256.Word
