/-!
# Stack256.Push — the bytes of pushes that carry data

Thirty-two consecutive bytes stand for pushes that are followed in code by one to thirty-two bytes
of data, their width.  The push without data is an opcode, `Opcode.push0`.
-/

namespace Stack256.Push

/-- The width of the push with the given byte. -/
def width? (b : UInt8) : Option Nat :=
  if 0x60 ≤ b.toNat ∧ b.toNat ≤ 0x7f then some (b.toNat - 0x5f) else none

/-- The byte of the push with the given width, which is one to thirty-two. -/
def byte (width : Nat) : UInt8 :=
  UInt8.ofNat (0x5f + width)

/-- The byte of the push with the given width, if there is one. -/
def byte? (width : Nat) : Option UInt8 :=
  if 1 ≤ width ∧ width ≤ 32 then some (byte width) else none

theorem isSome_byte?_iff (width : Nat) : (byte? width).isSome ↔ 1 ≤ width ∧ width ≤ 32 := by
  unfold byte?
  split <;> simp_all

/-- The two tables are inverse to each other. -/
theorem width?_eq_some_iff {b : UInt8} {width : Nat} :
    width? b = some width ↔ byte? width = some b := by
  simp only [width?, byte?, byte, Option.ite_none_right_eq_some, Option.some.injEq]
  constructor
  · rintro ⟨⟨h1, h2⟩, rfl⟩
    refine ⟨by omega, UInt8.toNat_inj.1 ?_⟩
    rw [UInt8.toNat_ofNat']
    omega
  · rintro ⟨⟨h1, h2⟩, rfl⟩
    rw [UInt8.toNat_ofNat']
    omega

theorem byte_of_width? {b : UInt8} {width : Nat} (h : width? b = some width) :
    byte width = b := by
  have hb := width?_eq_some_iff.1 h
  unfold byte? at hb
  split at hb
  · exact Option.some.inj hb
  · cases hb

theorem width_bounds {b : UInt8} {width : Nat} (h : width? b = some width) :
    1 ≤ width ∧ width ≤ 32 :=
  (isSome_byte?_iff width).1 (by rw [width?_eq_some_iff.1 h]; rfl)

end Stack256.Push
