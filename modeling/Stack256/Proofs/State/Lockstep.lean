import Mathlib
import Stack256.Proofs.State.Steps

/-!
# Stack256.Proofs.State.Lockstep — a run and its image

A map of states carries a step where it makes no difference whether the step is taken before it or
behind it (`Carries`).  A map that carries the steps of a run one by one carries them together
(`steps_map`), and a map that carries all of them up to the last leads to a run with the same fault
(`run_map`).
-/

namespace Stack256

/-- A map that carries the first `k` steps one by one carries them together. -/
theorem iterate_map {α β : Type} {f : α → β} {g : α → α} {g' : β → β} {x : α} {k : ℕ}
    (h : ∀ j < k, g' (f (g^[j] x)) = f (g (g^[j] x))) : g'^[k] (f x) = f (g^[k] x) := by
  induction k with
  | zero => rfl
  | succ k ih =>
    rw [Function.iterate_succ_apply', Function.iterate_succ_apply',
      ih fun j hj => h j (Nat.lt_succ_of_lt hj)]
    exact h k (Nat.lt_succ_self k)

namespace State

open Layout

/-- The map carries the next step of the state: what is reported stays the same. -/
def Carries (f : State → State) (s : State) : Prop :=
  (f s).step = Prod.map id f s.step

variable {f : State → State} {s : State} {k : ℕ}

/-- A map that leaves alone what is unread carries a step if it carries the effect of the segment at
hand. -/
theorem carries_of_segments (hhalted : (f s).halted = s.halted) (hunread : (f s).unread = s.unread)
    (hhalt : f { s with halted := true } = { f s with halted := true })
    (hfollow : ∀ g gs, s.halted = false → segments s.unread = g :: gs →
      (f s).follow ((f s).segmentEffect g) = Prod.map id f (s.follow (s.segmentEffect g))) :
    Carries f s := by
  obtain ⟨hs, hend⟩ | ⟨g, gs, hh, hu, hs⟩ := step_cases s
  · obtain ⟨hf, -⟩ | ⟨g, gs, hh, hu, -⟩ := step_cases (f s)
    · rw [Carries, hs, hf, ← hhalt]
      rfl
    · rw [hhalted] at hh
      rw [hunread] at hu
      obtain hend | hend := hend
      · rw [hh] at hend
        cases hend
      · rw [hend, segments_nil] at hu
        cases hu
  · rw [Carries, hs, step_of_segments (hhalted.trans hh) (hunread ▸ hu)]
    exact hfollow g gs hh hu

theorem steps_map (h : ∀ j < k, Carries f (s.steps j)) : (f s).steps k = f (s.steps k) :=
  iterate_map fun j hj => congrArg Prod.snd (h j hj)

theorem report_map (h : ∀ j ≤ k, Carries f (s.steps j)) : (f s).report k = s.report k := by
  have hstep : (f (s.steps k)).step = Prod.map id f (s.steps k).step := h k le_rfl
  rw [report, steps_map fun j hj => h j hj.le, hstep]
  rfl

theorem run_map (hk : EndsAt s.report k) (h : ∀ j ≤ k, Carries f (s.steps j)) :
    (f s).run = ⟨(f (s.steps (k + 1))).stack, s.run.fault, (f (s.steps (k + 1))).pc⟩ := by
  have hreport : ∀ j ≤ k, (f s).report j = s.report j := fun j hj =>
    report_map fun i hi => h i (hi.trans hj)
  have hends : EndsAt (f s).report k :=
    ⟨fun j hj => (hreport j hj.le).trans (hk.running j hj), hreport k le_rfl ▸ hk.ends⟩
  rw [run_of_endsAt hends, run_of_endsAt hk, hreport k le_rfl,
    steps_map fun j hj => h j (Nat.le_of_lt_succ hj)]

end State

end Stack256
