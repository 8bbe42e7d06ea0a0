import Mathlib
import Stack256.Layout.Basic

/-!
# Stack256.Proofs.Layout.Segments — the first segment of code

`First byte rest g behind` says that code that starts with `byte` and goes on with `rest` has the
first segment `g`, and that `behind` is what stands behind it.  There is one case for each kind of
segment, and everything about the layout is derived from these four: taking code apart
(`segments_eq_cons`), what the layout knows of its segments (`valid_of_mem_segments`), and putting
code together (`segments_bytes_append`).
-/

namespace Stack256

/-- What the layout knows of each of its segments. -/
def Segment.Valid : Segment → Prop
  | .op _ => True
  | .push data => 1 ≤ data.length ∧ data.length ≤ 32
  | .unknown byte => Push.width? byte = none ∧ Opcode.ofByte? byte = none
  | .truncated width data => 1 ≤ width ∧ width ≤ 32 ∧ data.length < width

namespace Push

theorem width?_byte {width : ℕ} (h : 1 ≤ width ∧ width ≤ 32) :
    width? (byte width) = some width := by
  rw [width?_eq_some_iff, byte?, if_pos h]

theorem width?_opcode (o : Opcode) : width? o.byte = none := by
  cases o <;> rfl

end Push

namespace Layout

/-! ### The four kinds of first segments -/

/-- The first segment of the code `byte :: rest`, and what stands behind it. -/
inductive First (byte : UInt8) (rest : List UInt8) : Segment → List UInt8 → Prop
  | op {o : Opcode} (hw : Push.width? byte = none) (ho : Opcode.ofByte? byte = some o) :
      First byte rest (.op o) rest
  | push {width : ℕ} (hw : Push.width? byte = some width) (hle : width ≤ rest.length) :
      First byte rest (.push (rest.take width)) (rest.drop width)
  | unknown (hw : Push.width? byte = none) (ho : Opcode.ofByte? byte = none) :
      First byte rest (.unknown byte) rest
  | truncated {width : ℕ} (hw : Push.width? byte = some width) (hlt : rest.length < width) :
      First byte rest (.truncated width rest) []

theorem exists_first (byte : UInt8) (rest : List UInt8) : ∃ g behind, First byte rest g behind := by
  cases hw : Push.width? byte with
  | some width =>
    by_cases h : rest.length < width
    · exact ⟨_, _, .truncated hw h⟩
    · exact ⟨_, _, .push hw (Nat.not_lt.1 h)⟩
  | none =>
    cases ho : Opcode.ofByte? byte with
    | some o => exact ⟨_, _, .op hw ho⟩
    | none => exact ⟨_, _, .unknown hw ho⟩

variable {byte : UInt8} {rest behind : List UInt8} {g : Segment}

@[simp] theorem segments_nil : segments [] = [] := by
  rw [segments]

theorem First.segments_eq (h : First byte rest g behind) :
    segments (byte :: rest) = g :: segments behind := by
  rw [segments]
  cases h with
  | op hw ho => simp only [hw, ho]
  | push hw hle => simp only [hw, if_neg (Nat.not_lt.2 hle)]
  | unknown hw ho => simp only [hw, ho]
  | truncated hw hlt => simp only [hw, if_pos hlt, segments_nil]

theorem First.bytes_append (h : First byte rest g behind) : g.bytes ++ behind = byte :: rest := by
  cases h with
  | op hw ho => rw [Segment.bytes, Opcode.byte_of_ofByte? ho, List.singleton_append]
  | push hw hle =>
    rw [Segment.bytes, List.length_take_of_le hle, Push.byte_of_width? hw, List.cons_append,
      List.take_append_drop]
  | unknown hw ho => rfl
  | truncated hw hlt => rw [Segment.bytes, Push.byte_of_width? hw, List.append_nil]

theorem First.valid (h : First byte rest g behind) : g.Valid := by
  cases h with
  | op hw ho => trivial
  | push hw hle =>
    rw [Segment.Valid, List.length_take_of_le hle]
    exact Push.width_bounds hw
  | unknown hw ho => exact ⟨hw, ho⟩
  | truncated hw hlt => exact ⟨(Push.width_bounds hw).1, (Push.width_bounds hw).2, hlt⟩

/-! ### Taking code apart -/

theorem segments_eq_nil_iff {code : List UInt8} : segments code = [] ↔ code = [] := by
  constructor
  · intro h
    rw [← flatMap_bytes_segments code, h, List.flatMap_nil]
  · rintro rfl
    exact segments_nil

theorem segments_eq_cons {code : List UInt8} {gs : List Segment} (h : segments code = g :: gs) :
    ∃ byte rest behind, code = byte :: rest ∧ First byte rest g behind ∧ segments behind = gs := by
  obtain _ | ⟨byte, rest⟩ := code
  · rw [segments_nil] at h
    cases h
  · obtain ⟨g', behind, hf⟩ := exists_first byte rest
    rw [hf.segments_eq] at h
    obtain ⟨rfl, hgs⟩ := List.cons_eq_cons.1 h
    exact ⟨byte, rest, behind, rfl, hf, hgs⟩

/-- Behind the first segment the other ones are left. -/
theorem segments_drop {code : List UInt8} {gs : List Segment} (h : segments code = g :: gs) :
    segments (code.drop g.bytes.length) = gs := by
  obtain ⟨byte, rest, behind, rfl, hf, hgs⟩ := segments_eq_cons h
  rw [← hf.bytes_append, List.drop_left, hgs]

theorem valid_of_mem_segments {code : List UInt8} (h : g ∈ segments code) : g.Valid := by
  generalize hgs : segments code = gs at h
  induction gs generalizing code with
  | nil => cases h
  | cons g' gs ih =>
    obtain ⟨byte, rest, behind, -, hf, hrest⟩ := segments_eq_cons hgs
    obtain rfl | h := List.mem_cons.1 h
    · exact hf.valid
    · exact ih hrest h

/-! ### Putting code together -/

/-- A segment that is not cut off by the end of the code is found wherever its bytes stand. -/
theorem segments_bytes_append (hv : g.Valid) (ht : ∀ w d, g ≠ .truncated w d) (code : List UInt8) :
    segments (g.bytes ++ code) = g :: segments code := by
  cases g with
  | op o => exact (First.op (Push.width?_opcode o) (Opcode.ofByte?_byte o)).segments_eq
  | push data =>
    have hle : data.length ≤ (data ++ code).length := by simp
    have h := (First.push (Push.width?_byte hv) hle).segments_eq
    rwa [List.take_left, List.drop_left] at h
  | unknown byte => exact (First.unknown hv.1 hv.2).segments_eq
  | truncated w d => exact absurd rfl (ht w d)

end Layout

end Stack256
