import Mathlib
import Stack256.Proofs.State.Invariant
import Stack256.Proofs.State.Lockstep
import Stack256.Proofs.State.Relocation

/-!
# Stack256.Proofs.State.Composition — code followed by other code

More code behind the code of a run changes nothing as long as the run carries out instructions that
are there as a whole (`carries_extend`).  So a run that comes to an end before the end of its code
ends in the same way, and one that reaches the end of its code goes on as a run of the other code
would.
-/

namespace Stack256.State

open Layout

/-- Some step of the run carries out the opcode that ends it. -/
def ReachesStop (s : State) : Prop :=
  ∃ k, (s.steps k).halted = false ∧ s.code[(s.steps k).pc]? = some Opcode.stop.byte

/-- The run comes to the end of its code. -/
def ReachesEnd (s : State) : Prop :=
  ∃ k, (s.steps k).halted = false ∧ (s.steps k).pc = s.code.length

/-- The same state with more code behind its own. -/
def extend (more : List UInt8) (s : State) : State :=
  { s with code := s.code ++ more }

variable {s : State} {k : ℕ} {g : Segment} {gs : List Segment} {more : List UInt8}

/-! ### More code behind the last instruction -/

theorem segmentEffect_extend (more : List UInt8) (s : State) (g : Segment) :
    (s.extend more).segmentEffect g = s.segmentEffect g := by
  cases g <;> rfl

theorem segments_unread_extend (hu : segments s.unread = g :: gs)
    (hg : ∀ width data, g ≠ .truncated width data) (more : List UInt8) :
    ∃ gs', segments (s.extend more).unread = g :: gs' := by
  have hle : s.pc ≤ s.code.length := (lt_of_segments_unread hu).le
  obtain ⟨byte, rest, behind, hcode, hf, -⟩ := segments_eq_cons hu
  have hunread : (s.extend more).unread = g.bytes ++ (behind ++ more) := by
    rw [unread, extend, List.drop_append_of_le_length hle, ← unread, hcode, ← hf.bytes_append,
      List.append_assoc]
  exact ⟨_, by rw [hunread, segments_bytes_append hf.valid hg]⟩

/-- An instruction that is there as a whole does not see what stands behind the code. -/
theorem carries_extend (hh : s.halted = false) (hu : segments s.unread = g :: gs)
    (hg : ∀ width data, g ≠ .truncated width data) (more : List UInt8) :
    Carries (extend more) s := by
  obtain ⟨gs', hu'⟩ := segments_unread_extend hu hg more
  have hh' : (s.extend more).halted = false := hh
  rw [Carries, step_of_segments hh hu, step_of_segments hh' hu', segmentEffect_extend]
  cases s.segmentEffect g <;> rfl

/-- Nor does an instruction that lets the run go on: a push that is cut off is a fault. -/
theorem carries_extend_of_running (h : s.step.1 = .running) (more : List UInt8) :
    Carries (extend more) s := by
  obtain ⟨hs, -⟩ | ⟨g, gs, hh, hu, hs⟩ := step_cases s
  · rw [hs] at h
    cases h
  · refine carries_extend hh hu ?_ more
    rintro width data rfl
    rw [hs] at h
    cases h

theorem run_extend (hk : ∀ j < k, s.report j = .running) (more : List UInt8) :
    (s.extend more).run = ((s.steps k).extend more).run := by
  have hcarries : ∀ j < k, Carries (extend more) (s.steps j) :=
    fun j hj => carries_extend_of_running (hk j hj) more
  have hrunning : ∀ j < k, (s.extend more).report j = .running :=
    fun j hj => (report_map fun i hi => hcarries i (hi.trans_lt hj)).trans (hk j hj)
  rw [← run_steps hrunning, steps_map hcarries]

/-- A run that ends in an instruction that is there as a whole ends in it with more code, too. -/
theorem run_extend_of_endsAt (hh : s.halted = false) (hk : EndsAt s.report k)
    (hu : segments (s.steps k).unread = g :: gs) (hg : ∀ width data, g ≠ .truncated width data)
    (more : List UInt8) : (s.extend more).run = s.run := by
  have hcarries : ∀ j ≤ k, Carries (extend more) (s.steps j) := by
    intro j hj
    obtain hj | rfl := hj.lt_or_eq
    · exact carries_extend_of_running (hk.running j hj) more
    · exact carries_extend (halted_of_endsAt hh hk) hu hg more
  rw [run_map hk hcarries, run_of_endsAt hk]
  rfl

/-! ### How a run ends -/

theorem ReachesStop.endsAt (h : s.ReachesStop) :
    ∃ k gs, EndsAt s.report k ∧ segments (s.steps k).unread = .op .stop :: gs ∧
      s.report k = .halted := by
  obtain ⟨k, hk, hbyte⟩ := h
  have hhead : (s.steps k).unread.head? = some Opcode.stop.byte := by
    rw [unread, List.head?_drop, (frame_steps k s).1, hbyte]
  obtain ⟨rest, hrest⟩ := List.head?_eq_some_iff.1 hhead
  have hu : segments (s.steps k).unread = .op .stop :: segments rest := by
    rw [hrest]
    exact segments_bytes_append (g := .op .stop) trivial (fun _ _ => Segment.noConfusion) rest
  have hreport : s.report k = .halted := by rw [report, step_of_segments hk hu]; rfl
  exact ⟨k, _, ⟨running_of_steps hk, by rw [hreport]; exact Signal.noConfusion⟩, hu, hreport⟩

theorem ReachesEnd.endsAt (h : s.ReachesEnd) :
    ∃ k, EndsAt s.report k ∧ (s.steps k).unread = [] ∧ (s.steps k).pc = s.code.length ∧
      (s.steps k).halted = false ∧ s.run = ⟨(s.steps k).stack, none, (s.steps k).pc⟩ := by
  obtain ⟨k, hk, hpc⟩ := h
  have hu : (s.steps k).unread = [] := by
    rw [unread, (frame_steps k s).1, hpc, List.drop_length]
  have hreport : s.report k = .halted := by rw [report, step_of_unread_nil hk hu]
  have hrun : s.run = ⟨(s.steps k).stack, none, (s.steps k).pc⟩ := by
    rw [← run_steps (running_of_steps hk), run_of_segments_nil hk (segments_eq_nil_iff.2 hu)]
  exact ⟨k, ⟨running_of_steps hk, by rw [hreport]; exact Signal.noConfusion⟩, hu, hpc, hk, hrun⟩

theorem not_reachesEnd_of_reachesStop (h : s.ReachesStop) : ¬ s.ReachesEnd := by
  intro hend
  obtain ⟨k, gs, hk, hu, -⟩ := h.endsAt
  obtain ⟨k', hk', hu', -⟩ := hend.endsAt
  rw [hk.unique hk', hu', segments_nil] at hu
  cases hu

/-- A run without a fault has come to the opcode that ends it or to the end of the code. -/
theorem fault_run_eq_none_iff (hs : s.Sound) (hh : s.halted = false) :
    s.run.fault = none ↔ s.ReachesStop ∨ s.ReachesEnd := by
  constructor
  · intro hfault
    obtain ⟨k, hk⟩ := exists_endsAt s
    have hhk := halted_of_endsAt hh hk
    obtain ⟨hu, -⟩ | ⟨gs, hu, -⟩ | ⟨g, gs, fault, -, -, hreport⟩ := last_step_cases hh hk
    · have hle : s.code.length ≤ (s.steps k).pc := by
        rwa [unread, List.drop_eq_nil_iff, (frame_steps k s).1] at hu
      have hge : (s.steps k).pc ≤ s.code.length := (frame_steps k s).1 ▸ (hs.steps k).pc_le
      exact .inr ⟨k, hhk, le_antisymm hge hle⟩
    · obtain ⟨byte, rest, behind, hcode, hf, -⟩ := segments_eq_cons hu
      refine .inl ⟨k, hhk, ?_⟩
      rw [← (frame_steps k s).1, ← List.head?_drop, ← unread, hcode, ← hf.bytes_append]
      rfl
    · rw [run_of_endsAt hk, hreport] at hfault
      cases hfault
  · rintro (h | h)
    · obtain ⟨k, gs, hk, -, hreport⟩ := h.endsAt
      rw [run_of_endsAt hk, hreport]
      rfl
    · obtain ⟨k, -, -, -, -, hrun⟩ := h.endsAt
      rw [hrun]

/-! ### Composition -/

/-- **Composition.**  If the run of `s` ends at a stop or at a fault that `more` cannot mend, the
run of `t` ends alike; if it ends with `code`, the run of `t` goes on with `more`. -/
theorem run_append (code more : List UInt8) (capacity : ℕ) (policy : UnknownPolicy) :
    let s : State := { code, capacity, policy }
    let t : State := { code := code ++ more, capacity, policy }
    ((s.ReachesStop ∨ ∃ fault, s.run.fault = some fault ∧
        ∀ place width available, fault ≠ .truncatedPush place width available) →
      t.run = s.run) ∧
    (s.ReachesEnd →
      t.run = (State.run { code := more, capacity, policy, stack := s.run.stack }).shift
        code.length) ∧
    (s.run.fault = none ↔ s.ReachesStop ∨ s.ReachesEnd) ∧ ¬ (s.ReachesStop ∧ s.ReachesEnd) := by
  intro s t
  have ht : t = s.extend more := rfl
  refine ⟨?_, fun h => ?_, fault_run_eq_none_iff (sound_start code capacity policy) rfl,
    fun h => not_reachesEnd_of_reachesStop h.1 h.2⟩
  · rintro (h | ⟨fault, hfault, hne⟩)
    · obtain ⟨k, gs, hk, hu, -⟩ := h.endsAt
      exact run_extend_of_endsAt rfl hk hu (fun _ _ => Segment.noConfusion) more
    · obtain ⟨k, g, gs, hk, hu, he⟩ := exists_fail_of_fault_run rfl hfault
      refine run_extend_of_endsAt rfl hk hu ?_ more
      rintro width data rfl
      exact hne _ _ _ (Effect.fail.inj he).symm
  · obtain ⟨k, hk, -, hpc, hhk, hrun⟩ := h.endsAt
    obtain ⟨hcode, hcapacity, hpolicy⟩ := frame_steps k s
    -- the state at the end of the first code is the start of the second one, further behind
    have hend : (s.steps k).extend more =
        behind code { code := more, capacity, policy, stack := s.run.stack } := by
      rw [extend, behind, mk.injEq, hrun]
      exact ⟨congrArg (· ++ more) hcode, hcapacity, hpolicy, hpc, rfl, hhk⟩
    rw [ht, run_extend hk.running, hend]
    exact run_behind code rfl

/-- A stop as the last byte ends the run and the end of the code does not; a missing word is
reported at its place in the whole code. -/
theorem run_append_underflow :
    let stopped : State := { code := [0x60, 1, 0x60, 2, 0x01, 0x00], capacity := 2 }
    let failed : State := { code := [0x5f, 0x01], capacity := 2 }
    let ended : State := { code := [0x60, 1, 0x60, 2, 0x01], capacity := 2 }
    (stopped.ReachesStop ∧
      State.run { code := [0x60, 1, 0x60, 2, 0x01, 0x00] ++ [0x50], capacity := 2 } =
        stopped.run) ∧
    (failed.run.fault = some (.stackUnderflow 1 1) ∧
      State.run { code := [0x5f, 0x01] ++ [0x50], capacity := 2 } = failed.run) ∧
    ended.ReachesEnd ∧
    State.run { code := [0x60, 1, 0x60, 2, 0x01] ++ [0x50, 0x50], capacity := 2 } =
      ⟨[], some (.stackUnderflow 6 0x50), 7⟩ := by
  intro stopped failed ended
  have hstop : stopped.ReachesStop := ⟨3, by decide +kernel, by decide +kernel⟩
  have hfault : failed.run.fault = some (.stackUnderflow 1 1) := by decide +kernel
  have hend : ended.ReachesEnd := ⟨3, by decide +kernel, by decide +kernel⟩
  obtain ⟨hstopped, -⟩ := run_append [0x60, 1, 0x60, 2, 0x01, 0x00] [0x50] 2 .reject
  obtain ⟨hfailed, -⟩ := run_append [0x5f, 0x01] [0x50] 2 .reject
  obtain ⟨-, hended, -⟩ := run_append [0x60, 1, 0x60, 2, 0x01] [0x50, 0x50] 2 .reject
  exact ⟨⟨hstop, hstopped (.inl hstop)⟩,
    ⟨hfault, hfailed (.inr ⟨_, hfault, fun _ _ _ => Fault.noConfusion⟩)⟩, hend,
    (hended hend).trans (by decide +kernel)⟩

end Stack256.State
