import Mathlib
import Stack256.Proofs.Layout.Known
import Stack256.Proofs.State.Relocation
import Stack256.Proofs.State.Steps

/-!
# Stack256.Proofs.State.Deletion — skipping bytes and taking them out

A run that skips the bytes that stand for no instruction does what a run over the code without them
does, at places that differ by the number of bytes taken out before them (`Thinned.lags_run`).
Where a run that refuses such bytes never meets one, the policy does not matter
(`run_policy_of_fault_ne`).
-/

namespace Stack256

/-- The outcomes agree but for their places, and the place `p` of the first is `removed p` bytes
ahead of that of the second. -/
structure Outcome.Lags (removed : ℕ → ℕ) (a b : Outcome) : Prop where
  stack_eq : a.stack = b.stack
  pc_eq : a.pc = b.pc + removed a.pc
  fault_eq : a.fault = none ∧ b.fault = none ∨
    ∃ f g, a.fault = some f ∧ b.fault = some g ∧ f = g.shift (removed f.place)

namespace State

open Layout

variable {s t : State} {g : Segment} {gs : List Segment}

theorem segmentEffect_unknown (hp : s.policy = .skip) (byte : UInt8) :
    s.segmentEffect (.unknown byte) = .next (s.pc + 1) s.stack := by
  rw [segmentEffect, unknownEffect, hp]

/-! ### Two states on the way -/

/-- The first state skips the bytes that stand for no instruction, and the second reads what is left
to read of the same code without them. -/
structure Thinned (s t : State) : Prop where
  running_left : s.halted = false
  running_right : t.halted = false
  policy_eq : s.policy = .skip
  isBoundary : IsBoundary s.code s.pc
  ahead : Ahead (unknownBefore s.code s.pc) s t
  segments_eq : segments t.unread = (segments s.unread).filter (! ·.isUnknown)

namespace Thinned

variable {pc : ℕ} {stack : List Word} {byte : UInt8}

theorem segments_right (h : Thinned s t) (hu : segments s.unread = g :: gs)
    (hg : g.isUnknown = false) :
    segments t.unread = g :: gs.filter (! ·.isUnknown) := by
  rw [h.segments_eq, hu, List.filter_cons_of_pos (by simp [hg])]

/-- Up to the end of a segment that stays, no more bytes are taken out. -/
theorem unknownBefore_eq (h : Thinned s t) (hu : segments s.unread = g :: gs)
    (hg : g.isUnknown = false) {place : ℕ} (hlt : s.pc < place)
    (hle : place ≤ s.pc + g.bytes.length) :
    unknownBefore s.code place = unknownBefore s.code s.pc := by
  rw [unknownBefore_next h.isBoundary hu hlt hle, hg]
  rfl

theorem segmentEffect_eq (h : Thinned s t) (hg : g.isUnknown = false) :
    s.segmentEffect g = (t.segmentEffect g).shift (unknownBefore s.code s.pc) :=
  segmentEffect_shift h.ahead fun hg' => absurd hg' (by simp [hg])

/-- At a byte that is taken out only the first state moves. -/
theorem skip (h : Thinned s t) (hu : segments s.unread = .unknown byte :: gs) :
    Thinned { s with pc := s.pc + 1 } t := by
  have hone : unknownBefore s.code (s.pc + 1) = unknownBefore s.code s.pc + 1 :=
    unknownBefore_next h.isBoundary hu (Nat.lt_succ_self _) le_rfl
  have hpc : s.pc + 1 = unknownBefore s.code (s.pc + 1) + t.pc := by
    have hahead := h.ahead.pc_eq
    omega
  have hrest : segments (State.unread { s with pc := s.pc + 1 }) = gs :=
    segments_unread_next hu (segmentEffect_unknown h.policy_eq byte)
  refine ⟨h.running_left, h.running_right, h.policy_eq, h.isBoundary.next hu,
    ⟨hpc, h.ahead.stack_eq, h.ahead.capacity_eq⟩, ?_⟩
  rw [h.segments_eq, hu, hrest]
  rfl

/-- Any other segment moves both states by its bytes. -/
theorem next (h : Thinned s t) (hu : segments s.unread = g :: gs) (hg : g.isUnknown = false)
    (he : t.segmentEffect g = .next pc stack) :
    Thinned { s with pc := unknownBefore s.code s.pc + pc, stack }
      { t with pc := pc, stack := stack } := by
  have heffect : s.segmentEffect g = .next (unknownBefore s.code s.pc + pc) stack := by
    rw [h.segmentEffect_eq hg, he]
    rfl
  have hpc := pc_of_segmentEffect heffect
  have hpos := bytes_length_pos g
  have hsame : unknownBefore s.code (unknownBefore s.code s.pc + pc) =
      unknownBefore s.code s.pc := h.unknownBefore_eq hu hg (by omega) hpc.le
  have hrest : segments
      (State.unread { s with pc := unknownBefore s.code s.pc + pc, stack }) = gs :=
    segments_unread_next hu heffect
  exact
    { running_left := h.running_left
      running_right := h.running_right
      policy_eq := h.policy_eq
      isBoundary := hpc ▸ h.isBoundary.next hu
      ahead := ⟨congrArg (· + pc) hsame.symm, rfl, h.ahead.capacity_eq⟩
      segments_eq := (segments_unread_next (h.segments_right hu hg) he).trans (by rw [hrest]) }

/-- The place behind the first byte of an instruction that ends the run. -/
theorem last_pc (h : Thinned s t) (hu : segments s.unread = g :: gs) (hg : g.isUnknown = false) :
    s.pc + 1 = t.pc + 1 + unknownBefore s.code (s.pc + 1) := by
  have hpos := bytes_length_pos g
  rw [h.unknownBefore_eq hu hg (Nat.lt_succ_self _) (by omega)]
  have hahead := h.ahead.pc_eq
  omega

/-- The two states run alike. -/
theorem lags_run (h : Thinned s t) : Outcome.Lags (unknownBefore s.code) s.run t.run := by
  -- along the segments of the full code
  generalize hu : segments s.unread = gs
  induction gs generalizing s t with
  | nil =>
    have hv : segments t.unread = [] := by
      rw [h.segments_eq, hu]
      rfl
    rw [run_of_segments_nil h.running_left hu, run_of_segments_nil h.running_right hv]
    exact ⟨h.ahead.stack_eq, h.ahead.pc_eq.trans (add_comm _ _), .inl ⟨rfl, rfl⟩⟩
  | cons g gs ih =>
    rw [run_of_segments h.running_left hu]
    cases hg : g.isUnknown with
    | true =>
      cases g with
      | unknown byte =>
        have he := segmentEffect_unknown h.policy_eq byte
        rw [he]
        exact ih (h.skip hu) (segments_unread_next hu he)
      | _ => cases hg
    | false =>
      have heffect := h.segmentEffect_eq hg
      rw [run_of_segments h.running_right (h.segments_right hu hg), heffect]
      cases he : t.segmentEffect g with
      | next pc stack =>
        rw [he] at heffect
        exact ih (h.next hu hg he) (segments_unread_next hu heffect)
      | halt => exact ⟨h.ahead.stack_eq, h.last_pc hu hg, .inl ⟨rfl, rfl⟩⟩
      | fail fault =>
        rw [he] at heffect
        refine ⟨h.ahead.stack_eq, h.last_pc hu hg, .inr ⟨_, fault, rfl, rfl, ?_⟩⟩
        rw [place_of_segmentEffect heffect]

end Thinned

/-! ### Runs that meet no unknown byte -/

theorem segmentEffect_ne_unknownByte (hp : s.policy = .skip) (place : ℕ) (byte : UInt8) :
    s.segmentEffect g ≠ .fail (.unknownByte place byte) := by
  intro h
  cases g with
  | op o => obtain h | h := fault_of_opcodeEffect h <;> cases h
  | push data => cases fault_of_settle h
  | unknown b =>
    rw [segmentEffect_unknown hp] at h
    cases h
  | truncated width data => cases h

/-- A run that skips unknown bytes reports none. -/
theorem fault_run_ne_unknownByte (hh : s.halted = false) (hp : s.policy = .skip) (place : ℕ)
    (byte : UInt8) : s.run.fault ≠ some (.unknownByte place byte) := by
  intro h
  obtain ⟨k, g, gs, -, -, he⟩ := exists_fail_of_fault_run hh h
  exact segmentEffect_ne_unknownByte ((frame_steps k s).2.2.trans hp) place byte he

theorem segmentEffect_of_known (hg : g.isUnknown = false) (policy : UnknownPolicy) :
    { s with policy }.segmentEffect g = s.segmentEffect g := by
  cases g with
  | unknown byte => cases hg
  | _ => rfl

/-- Where a run that refuses unknown bytes reports none, no policy makes a difference. -/
theorem run_policy_of_fault_ne (hh : s.halted = false) (hp : s.policy = .reject)
    (hf : ∀ place byte, s.run.fault ≠ some (.unknownByte place byte)) (policy : UnknownPolicy) :
    State.run { s with policy } = s.run := by
  generalize hu : segments s.unread = gs
  induction gs generalizing s with
  | nil =>
    rw [run_of_segments_nil hh hu]
    exact run_of_segments_nil (s := { s with policy }) hh hu
  | cons g gs ih =>
    rw [run_of_segments hh hu] at hf
    have hg : g.isUnknown = false := by
      cases g with
      | unknown byte =>
        rw [segmentEffect, unknownEffect, hp] at hf
        exact absurd rfl (hf s.pc byte)
      | _ => rfl
    have hrun := run_of_segments (s := { s with policy }) hh hu
    rw [hrun, run_of_segments hh hu, segmentEffect_of_known hg]
    cases he : s.segmentEffect g with
    | next pc stack =>
      rw [he] at hf
      exact ih (s := { s with pc := pc, stack := stack }) hh hp hf (segments_unread_next hu he)
    | halt => rfl
    | fail fault => rfl

/-! ### Deletion -/

/-- **Deletion.**  Skipping unknown bytes (`a`) ends as running the code without them (`b`), at
places that differ by their number; and as refusing them (`c`), if none is met. -/
theorem run_skip_eq_run_known (code : List UInt8) (capacity : ℕ) :
    let a : Outcome := State.run { code, capacity, policy := .skip }
    let b : Outcome := State.run { code := known code, capacity, policy := .reject }
    let c : Outcome := State.run { code, capacity, policy := .reject }
    (a.stack = b.stack ∧ a.success = b.success ∧ a.pc = b.pc + unknownBefore code a.pc ∧
      (a.fault = none ∧ b.fault = none ∨ ∃ f g, a.fault = some f ∧ b.fault = some g ∧
        f = g.shift (unknownBefore code f.place))) ∧
    (∀ place byte, a.fault ≠ some (.unknownByte place byte) ∧
      b.fault ≠ some (.unknownByte place byte)) ∧
    ((∀ place byte, c.fault ≠ some (.unknownByte place byte)) → a = c) := by
  intro a b c
  have hzero : unknownBefore code 0 = 0 := countUnknown_of_le le_rfl _
  have hstart : Thinned { code, capacity, policy := .skip }
      { code := known code, capacity, policy := .reject } :=
    ⟨rfl, rfl, rfl, isBoundary_zero code, ⟨hzero.symm, rfl, rfl⟩, segments_known code⟩
  have hlags : Outcome.Lags (unknownBefore code) a b := hstart.lags_run
  have ha : ∀ place byte, a.fault ≠ some (.unknownByte place byte) :=
    fault_run_ne_unknownByte rfl rfl
  refine ⟨⟨hlags.stack_eq, ?_, hlags.pc_eq, hlags.fault_eq⟩, fun place byte => ⟨ha place byte, ?_⟩,
    fun hc => run_policy_of_fault_ne rfl rfl hc .skip⟩
  · obtain ⟨hf, hg⟩ | ⟨f, g, hf, hg, -⟩ := hlags.fault_eq
    · rw [Outcome.success, Outcome.success, hf, hg]
    · rw [Outcome.success, Outcome.success, hf, hg]
      rfl
  · intro hb
    obtain ⟨-, hg⟩ | ⟨f, g, hf, hg, hshift⟩ := hlags.fault_eq
    · rw [hb] at hg
      cases hg
    · obtain rfl : g = .unknownByte place byte := Option.some.inj (hg.symm.trans hb)
      rw [hshift] at hf
      exact ha _ _ hf

/-- The byte that looks like an unknown one is data and stays; two others go, and the fault behind
them moves by two.  A run that stops in front of an unknown byte does not care for the policy. -/
theorem run_skip_eq_run_known_look_alike :
    known [0x60, 1, 0xfe, 0x60, 0xfe, 0x01, 0x0c, 0x01] = [0x60, 1, 0x60, 0xfe, 0x01, 0x01] ∧
    unknownBefore [0x60, 1, 0xfe, 0x60, 0xfe, 0x01, 0x0c, 0x01] 7 = 2 ∧
    State.run { code := [0x60, 1, 0xfe, 0x60, 0xfe, 0x01, 0x0c, 0x01], capacity := 2,
                policy := .skip } = ⟨[0xff], some (.stackUnderflow 7 1), 8⟩ ∧
    State.run { code := [0x60, 1, 0x60, 0xfe, 0x01, 0x01], capacity := 2 } =
      ⟨[0xff], some (.stackUnderflow 5 1), 6⟩ ∧
    (∀ place byte, (State.run { code := [0x5f, 0x00, 0xfe], capacity := 2 }).fault ≠
      some (.unknownByte place byte)) ∧
    State.run { code := [0x5f, 0x00, 0xfe], capacity := 2, policy := .skip } =
      State.run { code := [0x5f, 0x00, 0xfe], capacity := 2 } := by
  have hc : (State.run { code := [0x5f, 0x00, 0xfe], capacity := 2 }).fault = none := by
    decide +kernel
  have hne : ∀ place byte, (State.run { code := [0x5f, 0x00, 0xfe], capacity := 2 }).fault ≠
      some (.unknownByte place byte) := by
    intro place byte
    rw [hc]
    exact (Option.some_ne_none _).symm
  exact ⟨by decide +kernel, by decide +kernel, by decide +kernel, by decide +kernel, hne,
    (run_skip_eq_run_known [0x5f, 0x00, 0xfe] 2).2.2 hne⟩

end State

end Stack256
