import Stack256.Opcode.Basic
import Stack256.Word

/-!
# Stack256.Opcode.Action — what an opcode does to the stack

A stack is a list of words with its top at the head.  An opcode takes a fixed number of words off
the top and puts at most one back; its `Action` says which word.  The words are handed over in the
order in which they come off the stack, so that `sub` takes the second word from the top one.
-/

namespace Stack256

/-- The effect of an opcode on a stack. -/
inductive Action
  /-- Ends the run, with the stack as it is. -/
  | halt
  /-- Takes one word off the stack. -/
  | drop
  /-- Puts a fixed word on the stack. -/
  | constant (value : Word)
  /-- Replaces the top word. -/
  | unary (f : Word → Word)
  /-- Replaces the two top words by one. -/
  | binary (f : Word → Word → Word)
  /-- Replaces the three top words by one. -/
  | ternary (f : Word → Word → Word → Word)

namespace Action

/-- The number of words taken off the stack. -/
def arity : Action → Nat
  | halt | constant _ => 0
  | drop | unary _ => 1
  | binary _ => 2
  | ternary _ => 3

/-- The number of words put on the stack. -/
def results : Action → Nat
  | halt | drop => 0
  | constant _ | unary _ | binary _ | ternary _ => 1

/-- The stack after the action; none where the stack holds too few words. -/
def stackAfter? : Action → List Word → Option (List Word)
  | halt, s => some s
  | drop, _ :: s => some s
  | constant v, s => some (v :: s)
  | unary f, a :: s => some (f a :: s)
  | binary f, a :: b :: s => some (f a b :: s)
  | ternary f, a :: b :: c :: s => some (f a b c :: s)
  | _, _ => none

/-- An action fails on exactly the stacks that are shorter than its arity. -/
theorem stackAfter?_eq_none_iff (action : Action) (s : List Word) :
    action.stackAfter? s = none ↔ s.length < action.arity := by
  rcases action with _ | _ | v | f | f | f <;> rcases s with _ | ⟨a, _ | ⟨b, _ | ⟨c, s⟩⟩⟩ <;>
    simp [stackAfter?, arity]

/-- The length of the stack after an action does not depend on the words. -/
theorem length_of_stackAfter? {action : Action} {s t : List Word}
    (h : action.stackAfter? s = some t) :
    t.length + action.arity = s.length + action.results := by
  rcases action with _ | _ | v | f | f | f <;> rcases s with _ | ⟨a, _ | ⟨b, _ | ⟨c, s⟩⟩⟩ <;>
    simp [stackAfter?] at h <;> subst h <;> simp [arity, results]

end Action

namespace Opcode

/-- The action of each opcode.  Comparisons give one or zero. -/
def action : Opcode → Action
  | stop => .halt
  | add => .binary (· + ·)
  | mul => .binary (· * ·)
  | sub => .binary (· - ·)
  | div => .binary Word.div
  | sdiv => .binary Word.sdiv
  | mod => .binary Word.mod
  | smod => .binary Word.smod
  | addmod => .ternary Word.addMod
  | mulmod => .ternary Word.mulMod
  | exp => .binary Word.pow
  | signextend => .binary Word.signExtend
  | lt => .binary fun a b => Word.ofBool (decide (a < b))
  | gt => .binary fun a b => Word.ofBool (decide (b < a))
  | slt => .binary fun a b => Word.ofBool (decide (a.toInt < b.toInt))
  | sgt => .binary fun a b => Word.ofBool (decide (b.toInt < a.toInt))
  | eq => .binary fun a b => Word.ofBool (a == b)
  | iszero => .unary fun a => Word.ofBool (a == 0)
  | pop => .drop
  | push0 => .constant 0

/-- The number of words that have to be on the stack for the opcode. -/
def arity : Opcode → Nat
  | stop | push0 => 0
  | iszero | pop => 1
  | addmod | mulmod => 3
  | _ => 2

/-- The number of words the opcode puts on the stack. -/
def results (o : Opcode) : Nat :=
  o.action.results

/-- The table of arities and that of actions agree. -/
theorem arity_eq_arity_action (o : Opcode) : o.arity = o.action.arity := by
  cases o <;> rfl

theorem stackAfter?_eq_none_iff (o : Opcode) (s : List Word) :
    o.action.stackAfter? s = none ↔ s.length < o.arity := by
  rw [Action.stackAfter?_eq_none_iff, arity_eq_arity_action]

theorem length_of_stackAfter? {o : Opcode} {s t : List Word} (h : o.action.stackAfter? s = some t) :
    t.length + o.arity = s.length + o.results := by
  rw [arity_eq_arity_action]
  exact Action.length_of_stackAfter? h

end Opcode

end Stack256
