import Mathlib
import Stack256.Proofs.Processor.Agreement
import Stack256.Proofs.State.Sketch

/-!
# Stack256.Proofs.Processor.Faults — what a fault leaves behind

A processor moves before it carries out an instruction, and it takes words off its stack one after
the other, so that a fault in the middle could leave an instruction half done.  None does: the words
that an opcode takes have been counted before the first of them is taken, and where it takes any,
they leave room for its result (`on_act_cases`).  So a step that fails has moved behind one byte and
has halted, and that is all (`step_of_failed`).
-/

namespace Stack256

/-- An action puts its result on what is left of the stack beneath the words that it takes. -/
theorem Action.exists_result {action : Action} {stack stack' : List Word}
    (h : action.stackAfter? stack = some stack') :
    ∃ result, result.length = action.results ∧ stack' = result ++ stack.drop action.arity := by
  cases action with
  | halt =>
    obtain rfl := Option.some.inj h
    exact ⟨[], rfl, rfl⟩
  | constant value =>
    obtain rfl := Option.some.inj h
    exact ⟨[value], rfl, rfl⟩
  | drop =>
    match stack, h with
    | a :: rest, rfl => exact ⟨[], rfl, rfl⟩
  | unary f =>
    match stack, h with
    | a :: rest, rfl => exact ⟨[f a], rfl, rfl⟩
  | binary f =>
    match stack, h with
    | a :: b :: rest, rfl => exact ⟨[f a b], rfl, rfl⟩
  | ternary f =>
    match stack, h with
    | a :: b :: c :: rest, rfl => exact ⟨[f a b c], rfl, rfl⟩

/-- A step of a state that fails halts it behind the byte of the instruction and changes nothing
else. -/
theorem State.step_failed {s t : State} {fault : Fault} (h : s.step = (.failed fault, t)) :
    t = { s with pc := fault.place + 1, halted := true } ∧ fault.place = s.pc ∧
      s.pc < s.code.length := by
  obtain ⟨hs, -⟩ | ⟨g, gs, -, hu, hs⟩ := step_cases s
  · rw [hs] at h
    cases h
  · rw [hs] at h
    cases he : s.segmentEffect g with
    | next pc stack =>
      rw [he] at h
      cases h
    | halt =>
      rw [he] at h
      cases h
    | fail fault' =>
      rw [he] at h
      obtain ⟨hfault, rfl⟩ := Prod.mk.inj h
      obtain rfl := Signal.failed.inj hfault
      have hplace := place_of_segmentEffect he
      exact ⟨by rw [hplace], hplace, lt_of_segments_unread hu⟩

namespace Processor

/-- The run that a processor carries out in place. -/
def state (p : Processor) : State :=
  { code := p.code, capacity := p.capacity, policy := p.policy, pc := p.pc,
    stack := p.words.reverse, halted := p.halted }

variable {p q : Processor}

@[simp] theorem processor_state (p : Processor) : p.state.processor = p := by
  obtain ⟨code, capacity, policy, pc, words, halted⟩ := p
  simp [state, State.processor]

theorem length_stack_state (hs : p.words.length ≤ p.capacity) :
    p.state.stack.length ≤ p.state.capacity := by
  show p.words.reverse.length ≤ p.capacity
  rwa [List.length_reverse]

/-- Every processor within its capacity steps as the run does that it carries out. -/
theorem step_eq_step_state (hs : p.words.length ≤ p.capacity) :
    p.step = Prod.map id State.processor p.state.step := by
  have h := State.step_processor (length_stack_state hs)
  rwa [processor_state] at h

/-- Once its words have been counted, an opcode fails only if it is the push without data, which
takes no word, on a full stack.  Any other takes as many words off the top as were counted and puts
its results there. -/
theorem on_act_cases (hs : p.words.length ≤ p.capacity) {o : Opcode}
    (ho : o.arity ≤ p.words.length) (place : ℕ) (byte : UInt8) :
    (∃ result, result.length = o.results ∧ (act place byte o.action).on p =
        (.ok (), { p with words := p.words.take (p.words.length - o.arity) ++ result })) ∨
    (o = .push0 ∧ p.words.length = p.capacity ∧
      (act place byte o.action).on p = (.error (.stackOverflow place), p)) := by
  have hp : p.withStack p.words.reverse = p := by
    obtain ⟨code, capacity, policy, pc, words, halted⟩ := p
    simp [withStack]
  obtain ⟨stack, hstack⟩ : ∃ stack, o.action.stackAfter? p.words.reverse = some stack := by
    rw [← Option.ne_none_iff_exists', Ne, Opcode.stackAfter?_eq_none_iff, List.length_reverse]
    exact Nat.not_lt.2 ho
  have hon := on_act (p := p) (by rwa [List.length_reverse]) hstack place byte
  rw [hp] at hon
  by_cases hroom : stack.length ≤ p.capacity
  · obtain ⟨result, hlen, rfl⟩ := Action.exists_result hstack
    refine .inl ⟨result.reverse, by rw [List.length_reverse, hlen]; rfl, ?_⟩
    rw [hon, if_pos hroom, withStack, List.reverse_append, List.drop_reverse, List.reverse_reverse,
      Opcode.arity_eq_arity_action]
  · have hlen : stack.length + o.arity = p.words.reverse.length + o.results :=
      Opcode.length_of_stackAfter? hstack
    rw [List.length_reverse] at hlen
    have hpush : o = .push0 := by
      by_contra hne
      have hle := Opcode.results_le_arity hne
      omega
    subst hpush
    have hfull : stack.length + 0 = p.words.length + 1 := hlen
    exact .inr ⟨rfl, by omega, by rw [hon, if_neg hroom]⟩

/-- **Faults.**  A step of `p` that fails keeps the words and halts behind the byte at the place of
its fault; once `o.arity` words are there only `push0` can fail, on a full stack. -/
theorem step_of_failed (p : Processor) (hs : p.words.length ≤ p.capacity) :
    (∀ fault q, p.step = (.failed fault, q) →
      q = { p with pc := fault.place + 1, halted := true } ∧ fault.place = p.pc ∧
        p.pc < p.code.length) ∧
    ∀ (o : Opcode) (place : ℕ) (byte : UInt8), o.arity ≤ p.words.length →
      (∃ result, result.length = o.results ∧ (act place byte o.action).on p =
        (.ok (), { p with words := p.words.take (p.words.length - o.arity) ++ result })) ∨
      (o = .push0 ∧ p.words.length = p.capacity ∧
        (act place byte o.action).on p = (.error (.stackOverflow place), p)) := by
  refine ⟨fun fault q h => ?_, fun o place byte ho => on_act_cases hs ho place byte⟩
  rcases hstep : p.state.step with ⟨signal, t⟩
  rw [step_eq_step_state hs, hstep] at h
  obtain ⟨rfl, rfl⟩ : signal = .failed fault ∧ t.processor = q := Prod.mk.inj h
  obtain ⟨rfl, hplace, hlt⟩ := State.step_failed hstep
  refine ⟨?_, hplace, hlt⟩
  exact congrArg (fun q : Processor => { q with pc := fault.place + 1, halted := true })
    (processor_state p)

/-- A sum with a modulus finds two of its three words on a full stack, which keeps both.  A sum
finds its two words and leaves one.  With room for no word at all, a push that is cut off is
reported as such. -/
theorem step_of_failed_full :
    let p : Processor := { code := [0x5f, 0x08, 0x01], capacity := 2, pc := 1, words := [7, 9] }
    let empty : Processor := { code := [0x61, 1], capacity := 0 }
    p.words.length ≤ p.capacity ∧
    p.step = (.failed (.stackUnderflow 1 8), { p with pc := 2, halted := true }) ∧
    (∃ result, result.length = 1 ∧
      (act 2 1 (Opcode.action .add)).on p = (.ok (), { p with words := [] ++ result })) ∧
    empty.step = (.failed (.truncatedPush 0 2 1), { empty with pc := 1, halted := true }) := by
  intro p empty
  have hs : p.words.length ≤ p.capacity := by decide
  have hsignal : p.step.1 = .failed (.stackUnderflow 1 8) := by decide +kernel
  have hcut : empty.step.1 = .failed (.truncatedPush 0 2 1) := by decide +kernel
  obtain ⟨hfailed, hact⟩ := step_of_failed p hs
  obtain ⟨hempty, -⟩ := step_of_failed empty (by decide)
  obtain ⟨hq, -⟩ := hfailed _ _ (Prod.ext hsignal rfl)
  obtain ⟨hq', -⟩ := hempty _ _ (Prod.ext hcut rfl)
  refine ⟨hs, Prod.ext hsignal hq, ?_, Prod.ext hcut hq'⟩
  obtain h | ⟨hne, -⟩ := hact .add 2 1 (by decide)
  · exact h
  · cases hne

end Processor

end Stack256
