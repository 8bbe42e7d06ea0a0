import Mathlib
import Stack256.Processor.Run
import Stack256.Proofs.State.Invariant
import Stack256.Proofs.State.Lockstep

/-!
# Stack256.Proofs.Processor.Agreement — a run in place and the run it stands for

A processor carries out an instruction in several pieces of work, each of which may leave it half
done; a state knows only what comes of it.  As long as the stack is within the capacity, the two
agree (`step_processor`): the words that an opcode takes are there because they were counted before,
and they leave room for its result.  The stack in the memory is the stack of the state, read from
its other end.
-/

namespace Stack256

namespace Processor

/-- The same processor with the given words on its stack, the top first. -/
def withStack (stack : List Word) (p : Processor) : Processor :=
  { p with words := stack.reverse }

/-- The processor after `k` steps. -/
def steps (k : ℕ) (p : Processor) : Processor :=
  (fun p => p.step.2)^[k] p

/-- What the next step reports after `k` steps. -/
def report (p : Processor) (k : ℕ) : Signal :=
  (p.steps k).step.1

variable {p : Processor} {stack stack' rest : List Word}

/-! ### Pieces of work -/

theorem on_pop (place : ℕ) (byte : UInt8) (word : Word) (rest : List Word) (p : Processor) :
    (pop place byte).on (p.withStack (word :: rest)) = (.ok word, p.withStack rest) := by
  have hlast : (p.withStack (word :: rest)).words.getLast? = some word := by
    simp [withStack]
  have hdrop : { p.withStack (word :: rest) with
      words := (p.withStack (word :: rest)).words.dropLast } = p.withStack rest := by
    simp [withStack]
  rw [pop, on_bind, on_get]
  simp only [hlast]
  exact congrArg (Prod.mk _) hdrop

theorem on_push (place : ℕ) (word : Word) (stack : List Word) (p : Processor) :
    (push place word).on (p.withStack stack) =
      if stack.length < p.capacity then (.ok (), p.withStack (word :: stack))
      else (.error (.stackOverflow place), p.withStack stack) := by
  have hlen : (p.withStack stack).words.length = stack.length := List.length_reverse
  have hput : { p.withStack stack with words := (p.withStack stack).words ++ [word] } =
      p.withStack (word :: stack) := by
    simp [withStack]
  rw [push, on_bind, on_get]
  simp only [hlen, hput]
  change Work.on (if stack.length < p.capacity then _ else _) _ = _
  split_ifs <;> rfl

/-- With enough words on the stack, an action is carried out as on a list; only one that takes no
word can find the stack full. -/
theorem on_act {action : Action} (hs : stack.length ≤ p.capacity)
    (h : action.stackAfter? stack = some stack') (place : ℕ) (byte : UInt8) :
    (act place byte action).on (p.withStack stack) =
      if stack'.length ≤ p.capacity then (.ok (), p.withStack stack')
      else (.error (.stackOverflow place), p.withStack stack) := by
  cases action with
  | halt =>
    obtain rfl := Option.some.inj h
    exact (if_pos hs).symm
  | constant value =>
    obtain rfl := Option.some.inj h
    exact on_push place value stack p
  | drop =>
    match stack, h with
    | a :: rest, rfl =>
      rw [if_pos (Nat.le_of_lt hs), act, on_bind, on_pop]
      rfl
  | unary f =>
    match stack, h with
    | a :: rest, rfl =>
      have hroom : (f a :: rest).length ≤ p.capacity := hs
      simp only [act, on_bind, on_pop, on_push, if_pos hroom]
      exact if_pos hroom
  | binary f =>
    match stack, h with
    | a :: b :: rest, rfl =>
      have hroom : (f a b :: rest).length ≤ p.capacity := Nat.le_of_lt hs
      simp only [act, on_bind, on_pop, on_push, if_pos hroom]
      exact if_pos hroom
  | ternary f =>
    match stack, h with
    | a :: b :: c :: rest, rfl =>
      have hroom : (f a b c :: rest).length ≤ p.capacity := (Nat.le_succ _).trans (Nat.le_of_lt hs)
      simp only [act, on_bind, on_pop, on_push, if_pos hroom]
      exact if_pos hroom

theorem on_carryOutPush {bytes : List UInt8} (hbytes : p.code.drop p.pc = bytes)
    (place width : ℕ) (stack : List Word) :
    (carryOutPush place width).on (p.withStack stack) =
      if bytes.length < width then
        (.error (.truncatedPush place width bytes.length), p.withStack stack)
      else if stack.length < p.capacity then
        (.ok (), { p with pc := p.pc + width }.withStack (Word.ofBytes (bytes.take width) :: stack))
      else (.error (.stackOverflow place), p.withStack stack) := by
  have hbytes' : (p.withStack stack).code.drop (p.withStack stack).pc = bytes := hbytes
  simp only [carryOutPush, on_bind, on_get, hbytes']
  split_ifs with hlt hroom
  · rfl
  · simp only [on_bind, on_push, if_pos hroom]
    rfl
  · simp only [on_bind, on_push, if_neg hroom]

theorem on_carryOutOpcode (hs : stack.length ≤ p.capacity) {o : Opcode} (ho : o ≠ .stop)
    (place : ℕ) (byte : UInt8) :
    (carryOutOpcode place byte o).on (p.withStack stack) =
      match o.action.stackAfter? stack with
      | none => (.error (.stackUnderflow place byte), p.withStack stack)
      | some stack' =>
        if stack'.length ≤ p.capacity then (.ok true, p.withStack stack')
        else (.error (.stackOverflow place), p.withStack stack) := by
  have hlen : (p.withStack stack).words.length = stack.length := List.length_reverse
  simp only [carryOutOpcode, on_bind, on_get, hlen]
  cases h : o.action.stackAfter? stack with
  | none =>
    have harity : stack.length < o.arity := (o.stackAfter?_eq_none_iff stack).1 h
    rw [if_pos harity]
    rfl
  | some stack' =>
    have harity : ¬ stack.length < o.arity := by
      rw [← Opcode.stackAfter?_eq_none_iff, h]
      exact Option.some_ne_none stack'
    rw [if_neg harity]
    cases o with
    | stop => exact absurd rfl ho
    | _ =>
      simp only [on_bind, on_act hs h]
      split_ifs <;> rfl

end Processor

namespace State

open Processor

variable {s : State}

/-! ### Steps -/

/-- What carrying out an instruction with the given effect leaves, before the processor halts. -/
def carried (s : State) : Effect → Except Fault Bool × Processor
  | .next pc stack => (.ok true, { s with pc := pc, stack := stack }.processor)
  | .halt => (.ok false, { s with pc := s.pc + 1 }.processor)
  | .fail fault => (.error fault, { s with pc := s.pc + 1 }.processor)

theorem carried_settle (s : State) (pc : ℕ) (stack : List Word) :
    s.carried (s.settle pc stack) =
      if stack.length ≤ s.capacity then (.ok true, { s with pc := pc, stack := stack }.processor)
      else (.error (.stackOverflow s.pc), { s with pc := s.pc + 1 }.processor) := by
  unfold settle
  split_ifs <;> rfl

theorem conclude_carried (s : State) (e : Effect) :
    conclude (s.carried e) = Prod.map id processor (s.follow e) := by
  cases e <;> rfl

theorem on_carryOut (hs : s.stack.length ≤ s.capacity) {byte : UInt8} {bytes : List UInt8}
    (hu : s.unread = byte :: bytes) :
    (carryOut s.pc byte).on { s with pc := s.pc + 1 }.processor =
      s.carried (s.effect byte bytes) := by
  -- the processor has moved behind the byte before it carries out the instruction
  have hp : { s with pc := s.pc + 1 }.processor =
      withStack s.stack { s with pc := s.pc + 1 }.processor := rfl
  have hbytes : s.code.drop (s.pc + 1) = bytes := by
    rw [← List.drop_drop, ← unread, hu, List.drop_one, List.tail_cons]
  unfold effect
  cases hw : Push.width? byte with
  | some width =>
    simp only [carryOut, hw, on_bind]
    rw [pushEffect, hp, on_carryOutPush hbytes]
    split_ifs with hlt hroom
    · rfl
    · rw [carried_settle, if_pos (by exact hroom)]
      rfl
    · rw [carried_settle, if_neg (by exact hroom)]
      rfl
  | none =>
    cases ho : Opcode.ofByte? byte with
    | some o =>
      obtain rfl := Opcode.byte_of_ofByte? ho
      simp only [carryOut, hw, ho]
      by_cases hstop : o = .stop
      · subst hstop
        rfl
      · rw [opcodeEffect_of_ne_stop hstop, hp, on_carryOutOpcode hs hstop]
        cases o.action.stackAfter? s.stack with
        | none => rfl
        | some stack => exact (carried_settle s _ stack).symm
    | none =>
      simp only [carryOut, hw, ho, on_bind, on_get]
      obtain ⟨code, capacity, policy, pc, stack, halted⟩ := s
      cases policy <;> rfl

/-- Within the capacity, a processor steps as the state does that it stands for. -/
theorem step_processor (hs : s.stack.length ≤ s.capacity) :
    s.processor.step = Prod.map id processor s.step := by
  have hbyte : s.processor.code[s.processor.pc]? = s.unread.head? := by
    rw [unread, List.head?_drop]
    rfl
  rw [Processor.step, hbyte, step]
  cases hh : s.halted with
  | true => exact if_pos hh
  | false =>
    rw [if_neg (by simp [processor, hh])]
    cases hu : s.unread with
    | nil => rfl
    | cons byte bytes => exact (congrArg conclude (on_carryOut hs hu)).trans (conclude_carried s _)

theorem steps_processor (hs : s.stack.length ≤ s.capacity) (k : ℕ) :
    s.processor.steps k = (s.steps k).processor :=
  iterate_map fun j _ => congrArg Prod.snd (step_processor (length_stack_le_steps hs j))

theorem report_processor (hs : s.stack.length ≤ s.capacity) (k : ℕ) :
    s.processor.report k = s.report k := by
  rw [Processor.report, steps_processor hs, step_processor (length_stack_le_steps hs k)]
  rfl

theorem words_steps_processor (hs : s.stack.length ≤ s.capacity) (k : ℕ) :
    (s.processor.steps k).words = (s.steps k).stack.reverse := by
  rw [steps_processor hs]
  rfl

/-- The outcome of a run is the same in place, where the words are turned round at the end. -/
theorem run_processor (hs : s.stack.length ≤ s.capacity) : s.processor.run = s.run := by
  have hreverse : ∀ t : State, t.processor.words.reverse = t.stack := fun t =>
    List.reverse_reverse t.stack
  induction s using run.induct with
  | case1 s t h ih =>
    have ht : t.stack.length ≤ t.capacity := by
      have hle := length_stack_le_step hs
      rwa [h] at hle
    rw [Processor.run_eq, step_processor hs, run_of_running (congrArg Prod.fst h), h]
    exact ih ht
  | case2 s t h =>
    rw [Processor.run_eq, step_processor hs, run, h]
    exact congrArg (Outcome.mk · none t.pc) (hreverse t)
  | case3 s fault t h =>
    rw [Processor.run_eq, step_processor hs, run, h]
    exact congrArg (Outcome.mk · (some fault) t.pc) (hreverse t)

end State

end Stack256
