import Stack256.State.Basic

/-!
# Stack256.State.Run — a run from outside, and to its end

From outside a state is driven by commands: single steps and changes of the policy, in any order
(`State.performAll`).  `State.run` repeats `State.step` until it reports anything but
`running`.  There is no bound to give: a step that goes on has moved forward in the code
(`running_step`), so the unread part of the code gets shorter.
-/

namespace Stack256

/-! ### Commands -/

/-- A command to a run. -/
inductive Command
  | step
  | setPolicy (policy : UnknownPolicy)
  deriving DecidableEq, Repr

namespace State

/-- Carries out one command.  A change of the policy reports nothing and changes nothing else. -/
def perform (s : State) : Command → Option Signal × State
  | .step =>
    let (signal, t) := s.step
    (some signal, t)
  | .setPolicy policy => (none, { s with policy })

/-- Carries out the commands in order, and reports what the last one reports. -/
def performAll (s : State) (commands : List Command) : Option Signal × State :=
  commands.foldl (fun last command => last.2.perform command) (none, s)

@[simp] theorem performAll_nil (s : State) : s.performAll [] = (none, s) := rfl

end State

/-! ### The end -/

/-- How a run ended. -/
structure Outcome where
  /-- The words left on the stack, the top first. -/
  stack : List Word
  /-- The fault that broke off the run, if any did. -/
  fault : Option Fault
  pc : Nat
  deriving DecidableEq, Repr

namespace Outcome

/-- No fault broke off the run. -/
def success (r : Outcome) : Bool :=
  r.fault.isNone

/-- The word on top of the stack. -/
def top? (r : Outcome) : Option Word :=
  r.stack.head?

end Outcome

namespace State

theorem follow_running {s t : State} {e : Effect} (h : s.follow e = (.running, t)) :
    ∃ pc stack, e = .next pc stack ∧ t = { s with pc := pc, stack := stack } := by
  cases e with
  | next pc stack => exact ⟨pc, stack, rfl, (congrArg Prod.snd h).symm⟩
  | halt => simp [follow] at h
  | fail fault => simp [follow] at h

/-- A stack within the capacity is settled at the place that was asked for. -/
theorem settle_eq_next {s : State} {pc pc' : Nat} {stack stack' : List Word}
    (h : s.settle pc stack = .next pc' stack') : pc' = pc ∧ stack' = stack := by
  unfold settle at h
  split at h
  · cases h
    exact ⟨rfl, rfl⟩
  · cases h

/-- A push leads behind its data. -/
theorem pc_of_pushEffect {s : State} {width pc : Nat} {rest : List UInt8} {stack : List Word}
    (h : s.pushEffect width rest = .next pc stack) : pc = s.pc + 1 + width := by
  unfold pushEffect at h
  split at h
  · cases h
  · exact (settle_eq_next h).1

/-- An opcode leads behind its byte. -/
theorem pc_of_opcodeEffect {s : State} {o : Opcode} {pc : Nat} {stack : List Word}
    (h : s.opcodeEffect o = .next pc stack) : pc = s.pc + 1 := by
  unfold opcodeEffect at h
  split at h
  · cases h
  · split at h
    · cases h
    · exact (settle_eq_next h).1

/-- A byte that stands for no instruction is skipped alone. -/
theorem pc_of_unknownEffect {s : State} {byte : UInt8} {pc : Nat} {stack : List Word}
    (h : s.unknownEffect byte = .next pc stack) : pc = s.pc + 1 := by
  unfold unknownEffect at h
  split at h
  · cases h
  · cases h
    rfl

/-- An instruction that lets the run go on leads to a later place. -/
theorem lt_of_effect_next {s : State} {byte : UInt8} {rest : List UInt8} {pc : Nat}
    {stack : List Word} (h : s.effect byte rest = .next pc stack) : s.pc < pc := by
  unfold effect at h
  split at h
  · have := pc_of_pushEffect h
    omega
  · split at h
    · have := pc_of_opcodeEffect h
      omega
    · have := pc_of_unknownEffect h
      omega

/-- A step that goes on has found an instruction, has kept the code and has moved forward. -/
theorem running_step {s t : State} (h : s.step = (.running, t)) :
    s.pc < s.code.length ∧ t.code = s.code ∧ s.pc < t.pc := by
  unfold step at h
  split at h
  · simp at h
  · split at h
    · simp at h
    · next byte rest hu =>
      obtain ⟨pc, stack, he, rfl⟩ := follow_running h
      have hlen : (s.code.drop s.pc).length = (byte :: rest).length := congrArg List.length hu
      simp only [List.length_drop, List.length_cons] at hlen
      exact ⟨by omega, rfl, lt_of_effect_next he⟩

/-- Steps until the run halts, and tells how it ended.  A state that has halted before ends at once
and without a fault, even if a fault had halted it. -/
def run (s : State) : Outcome :=
  match _h : s.step with
  | (.running, t) => run t
  | (.halted, t) => ⟨t.stack, none, t.pc⟩
  | (.failed fault, t) => ⟨t.stack, some fault, t.pc⟩
termination_by s.code.length - s.pc
decreasing_by
  obtain ⟨hlt, hcode, hpc⟩ := running_step _h
  rw [hcode]
  omega

end State

/-- The number of words that a stack may hold where nothing else is said. -/
def defaultCapacity : Nat := 1024

/-- Runs code from its start on an empty stack of the default capacity. -/
def evaluate (code : List UInt8) : Outcome :=
  State.run { code, capacity := defaultCapacity }

end Stack256
