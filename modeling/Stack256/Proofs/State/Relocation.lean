import Mathlib
import Stack256.Proofs.State.Segments

/-!
# Stack256.Proofs.State.Relocation — the same instructions at other places

What an instruction does depends on its bytes, on the stack and on where it stands, but on nothing
else of the code.  Moved by some bytes it does the same, with every place moved along
(`segmentEffect_shift`), and code behind other code runs as it does on its own (`run_behind`).
-/

namespace Stack256

/-- The same effect of an instruction that stands `n` bytes further on. -/
def Effect.shift (n : ℕ) : Effect → Effect
  | .next pc stack => .next (n + pc) stack
  | .halt => .halt
  | .fail fault => .fail (fault.shift n)

/-- The same outcome of a run with every place increased by `n`. -/
def Outcome.shift (n : ℕ) (r : Outcome) : Outcome :=
  ⟨r.stack, r.fault.map (.shift n), n + r.pc⟩

namespace State

open Layout

/-- The first state stands `n` bytes further on than the second, with the same words in the same
room. -/
structure Ahead (n : ℕ) (s t : State) : Prop where
  pc_eq : s.pc = n + t.pc
  stack_eq : s.stack = t.stack
  capacity_eq : s.capacity = t.capacity

/-- The same state with other code in front of its own. -/
def behind (front : List UInt8) (s : State) : State :=
  { s with code := front ++ s.code, pc := front.length + s.pc }

variable {s t : State} {n : ℕ} {g : Segment} {gs : List Segment}

theorem settle_shift (h : Ahead n s t) (pc : ℕ) (stack : List Word) :
    s.settle (n + pc) stack = (t.settle pc stack).shift n := by
  unfold settle
  rw [h.capacity_eq, h.pc_eq]
  split_ifs <;> rfl

theorem opcodeEffect_shift (h : Ahead n s t) (o : Opcode) :
    s.opcodeEffect o = (t.opcodeEffect o).shift n := by
  by_cases ho : o = .stop
  · subst ho
    rfl
  · rw [opcodeEffect_of_ne_stop ho, opcodeEffect_of_ne_stop ho, h.stack_eq]
    cases o.action.stackAfter? t.stack with
    | none => simp only [Effect.shift, Fault.shift, h.pc_eq]
    | some stack =>
      rw [h.pc_eq, add_assoc]
      exact settle_shift h _ stack

/-- A segment does the same at another place.  Only a byte that stands for no instruction asks for
the policy. -/
theorem segmentEffect_shift (h : Ahead n s t) (hp : g.isUnknown = true → s.policy = t.policy) :
    s.segmentEffect g = (t.segmentEffect g).shift n := by
  cases g with
  | op o => exact opcodeEffect_shift h o
  | push data =>
    rw [segmentEffect, segmentEffect, h.stack_eq, h.pc_eq, add_assoc, add_assoc, settle_shift h,
      add_assoc]
  | unknown byte =>
    rw [segmentEffect, segmentEffect, unknownEffect, unknownEffect, hp rfl, h.stack_eq, h.pc_eq]
    cases t.policy <;> rfl
  | truncated width data =>
    rw [segmentEffect, segmentEffect, h.pc_eq]
    rfl

/-! ### Code behind other code -/

theorem unread_behind (front : List UInt8) (s : State) : (s.behind front).unread = s.unread := by
  rw [unread, behind, List.drop_append, List.drop_eq_nil_of_le (Nat.le_add_right _ _),
    List.nil_append, Nat.add_sub_cancel_left, unread]

theorem run_behind (front : List UInt8) (hh : s.halted = false) :
    (s.behind front).run = s.run.shift front.length := by
  -- induction along what is unread, which is the same for both
  generalize hu : segments s.unread = gs
  have hbehind : segments (s.behind front).unread = gs := by rw [unread_behind, hu]
  have hh' : (s.behind front).halted = false := hh
  induction gs generalizing s with
  | nil =>
    rw [run_of_segments_nil hh hu, run_of_segments_nil hh' hbehind]
    rfl
  | cons g gs ih =>
    have hahead : Ahead front.length (s.behind front) s := ⟨rfl, rfl, rfl⟩
    have heffect := segmentEffect_shift (g := g) hahead fun _ => rfl
    rw [run_of_segments hh hu, run_of_segments hh' hbehind, heffect]
    cases he : s.segmentEffect g with
    | next pc stack =>
      rw [he] at heffect
      exact ih (s := { s with pc := pc, stack := stack }) hh (segments_unread_next hu he)
        (segments_unread_next hbehind heffect) hh
    | halt => exact congrArg (Outcome.mk s.stack none) (add_assoc _ _ _)
    | fail fault => exact congrArg (Outcome.mk s.stack (some (fault.shift _))) (add_assoc _ _ _)

end State

end Stack256
