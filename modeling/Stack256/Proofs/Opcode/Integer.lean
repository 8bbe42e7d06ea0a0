import Mathlib
import Stack256.Opcode.Action
import Stack256.Proofs.Word.BitFold
import Stack256.Proofs.Word.Signed

/-!
# Stack256.Proofs.Opcode.Integer — opcodes over words and over integers

`Semantics.after?` says in arithmetic what `Action.stackAfter?` does with words.  Main statement:
the two agree on every opcode and every stack (`after?_map_toNat`), also in where they are none.
-/

namespace Stack256.Opcode

open Semantics Word

/-! ### Tests -/

theorem eq_zero_iff_toNat (b : Word) : b = 0 ↔ b.toNat = 0 :=
  ⟨fun h => by rw [h]; rfl, fun h => BitVec.eq_of_toNat_eq h⟩

theorem toNat_ofBool_decide (p : Prop) [Decidable p] : (ofBool (decide p)).toNat = truth p := by
  by_cases h : p <;> simp [truth, h]

/-- An operation that is zero at the divisor zero, over integers. -/
theorem toNat_of_divisor {w b : Word} {n : ℕ} (hz : b = 0 → w = 0) (hn : b ≠ 0 → w.toNat = n) :
    w.toNat = if b.toNat = 0 then 0 else n := by
  by_cases h : b = 0
  · rw [if_pos ((eq_zero_iff_toNat b).1 h), hz h]
    rfl
  · rw [if_neg (mt (eq_zero_iff_toNat b).2 h), hn h]

/-! ### Values -/

theorem toNat_div (a b : Word) :
    (Word.div a b).toNat = if b.toNat = 0 then 0 else a.toNat / b.toNat :=
  toNat_of_divisor (fun h => if_pos h) fun h => by rw [Word.div, if_neg h, BitVec.toNat_udiv]

theorem toNat_mod_or_zero (a b : Word) :
    (Word.mod a b).toNat = if b.toNat = 0 then 0 else a.toNat % b.toNat :=
  toNat_of_divisor (fun h => if_pos h) toNat_mod

theorem toNat_sdiv_or_zero (a b : Word) : (Word.sdiv a b).toNat =
    if b.toNat = 0 then 0 else wrap (Int.tdiv (signed a.toNat) (signed b.toNat)) :=
  toNat_of_divisor (fun h => if_pos h) toNat_sdiv

theorem toNat_smod_or_zero (a b : Word) : (Word.smod a b).toNat =
    if b.toNat = 0 then 0 else wrap (Int.tmod (signed a.toNat) (signed b.toNat)) :=
  toNat_of_divisor (fun h => if_pos h) toNat_smod

theorem toNat_addMod (a b m : Word) : (Word.addMod a b m).toNat =
    if m.toNat = 0 then 0 else (a.toNat + b.toNat) % modulus % m.toNat := by
  rw [Word.addMod, toNat_mod_or_zero, BitVec.toNat_add, modulus]

theorem toNat_mulMod_or_zero (a b m : Word) : (Word.mulMod a b m).toNat =
    if m.toNat = 0 then 0 else a.toNat * b.toNat % m.toNat :=
  toNat_of_divisor (fun h => if_pos h) toNat_mulMod

theorem toNat_lt_truth (a b : Word) :
    (ofBool (decide (a < b))).toNat = truth (a.toNat < b.toNat) := by
  rw [toNat_ofBool_decide]
  rfl

theorem toNat_slt_truth (a b : Word) :
    (ofBool (decide (a.toInt < b.toInt))).toNat = truth (signed a.toNat < signed b.toNat) := by
  rw [toNat_ofBool_decide, signed_toNat, signed_toNat]

theorem toNat_beq_truth (a b : Word) : (ofBool (a == b)).toNat = truth (a.toNat = b.toNat) := by
  have h : (a == b) = decide (a.toNat = b.toNat) := by
    rw [Bool.eq_iff_iff, beq_iff_eq, decide_eq_true_eq, BitVec.toNat_inj]
  rw [h, toNat_ofBool_decide]

/-! ### Stacks -/

/-- An opcode does to the values of the words on a stack what it does to the words. -/
theorem after?_map_toNat (o : Opcode) (s : List Word) :
    after? o (s.map BitVec.toNat) = (o.action.stackAfter? s).map (List.map BitVec.toNat) := by
  obtain _ | ⟨a, _ | ⟨b, _ | ⟨c, s⟩⟩⟩ := s <;> cases o <;>
    simp only [after?, action, Action.stackAfter?, List.map_nil, List.map_cons, Option.map_some,
      Option.map_none, BitVec.toNat_add, BitVec.toNat_mul, toNat_sub_eq_wrap, toNat_div,
      toNat_mod_or_zero, toNat_sdiv_or_zero, toNat_smod_or_zero, toNat_addMod,
      toNat_mulMod_or_zero, toNat_pow, toNat_signExtend, toNat_lt_truth, toNat_slt_truth,
      toNat_beq_truth, show (0 : Word).toNat = 0 from rfl, modulus]

end Stack256.Opcode
