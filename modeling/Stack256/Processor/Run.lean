import Stack256.Processor
import Stack256.State.Run

/-!
# Stack256.Processor.Run — running in place to the end

No work on a processor changes the code or leads back in it (`Work.Advances`), and a step that goes
on starts by moving behind a byte.  So a processor comes to its end as a state does.  The outcome of
a run has the top of the stack first, so that the words in the memory are turned round at the end.
-/

namespace Stack256.Processor

/-- The work keeps the code and does not go back in it. -/
def Work.Advances {α : Type} (work : Work α) : Prop :=
  ∀ p, (work.on p).2.code = p.code ∧ p.pc ≤ (work.on p).2.pc

variable {α β : Type} {p q : Processor}

theorem on_get (p : Processor) : Work.on get p = (.ok p, p) := rfl

theorem on_bind (work : Work α) (f : α → Work β) (p : Processor) :
    Work.on (work >>= f) p = match work.on p with
      | (.ok a, q) => (f a).on q
      | (.error fault, q) => (.error fault, q) := by
  change (work >>= f : Work β).run.run p = match work.run.run p with
    | (.ok a, q) => (f a).run.run q
    | (.error fault, q) => (.error fault, q)
  rw [ExceptT.run_bind, StateT.run_bind]
  rcases work.run.run p with ⟨_ | a, q⟩ <;> rfl

theorem Work.Advances.bind {work : Work α} {f : α → Work β} (h : work.Advances)
    (hf : ∀ a, (f a).Advances) : Work.Advances (work >>= f) := by
  intro p
  obtain ⟨hcode, hpc⟩ := h p
  rw [on_bind]
  rcases hw : work.on p with ⟨_ | a, q⟩
  · rw [hw] at hcode hpc
    exact ⟨hcode, hpc⟩
  · rw [hw] at hcode hpc
    obtain ⟨hcode', hpc'⟩ := hf a q
    exact ⟨hcode'.trans hcode, Nat.le_trans hpc hpc'⟩

theorem advances_pure (a : α) : Work.Advances (pure a) :=
  fun _ => ⟨rfl, Nat.le_refl _⟩

theorem advances_pop (place : Nat) (byte : UInt8) : (pop place byte).Advances := by
  intro p
  rw [pop, on_bind, on_get]
  dsimp only
  cases p.words.getLast? <;> exact ⟨rfl, Nat.le_refl _⟩

theorem advances_push (place : Nat) (word : Word) : (push place word).Advances := by
  intro p
  rw [push, on_bind, on_get]
  dsimp only
  split <;> exact ⟨rfl, Nat.le_refl _⟩

theorem advances_act (place : Nat) (byte : UInt8) (action : Action) :
    (act place byte action).Advances := by
  have hpop := advances_pop place byte
  cases action with
  | halt => exact advances_pure ()
  | drop => exact hpop.bind fun _ => advances_pure _
  | constant value => exact advances_push place value
  | unary f => exact hpop.bind fun a => advances_push place (f a)
  | binary f => exact hpop.bind fun a => hpop.bind fun b => advances_push place (f a b)
  | ternary f =>
    exact hpop.bind fun a => hpop.bind fun b => hpop.bind fun c => advances_push place (f a b c)

theorem advances_carryOutPush (place width : Nat) : (carryOutPush place width).Advances := by
  intro p
  rw [carryOutPush, on_bind, on_get]
  dsimp only
  split
  · exact ⟨rfl, Nat.le_refl _⟩
  · have hmove : Work.Advances (modify fun p => { p with pc := p.pc + width }) :=
      fun p => ⟨rfl, Nat.le_add_right _ _⟩
    exact (advances_push place _).bind (fun _ => hmove) p

theorem advances_carryOutOpcode (place : Nat) (byte : UInt8) (o : Opcode) :
    (carryOutOpcode place byte o).Advances := by
  intro p
  unfold carryOutOpcode
  rw [on_bind, on_get]
  dsimp only
  split
  · exact ⟨rfl, Nat.le_refl _⟩
  · split
    · exact ⟨rfl, Nat.le_refl _⟩
    · exact (advances_act place byte _).bind (fun _ => advances_pure true) p

theorem advances_carryOut (place : Nat) (byte : UInt8) : (carryOut place byte).Advances := by
  intro p
  unfold carryOut
  split
  · exact (advances_carryOutPush place _).bind (fun _ => advances_pure true) p
  · split
    · exact advances_carryOutOpcode place byte _ p
    · rw [on_bind, on_get]
      dsimp only
      split <;> exact ⟨rfl, Nat.le_refl _⟩

theorem conclude_running {r : Except Fault Bool × Processor} (h : conclude r = (.running, q)) :
    r.2 = q := by
  rcases r with ⟨_ | ⟨_ | _⟩, q'⟩
  · simp [conclude] at h
  · simp [conclude] at h
  · exact congrArg Prod.snd h

/-- A step that goes on has found a byte, has kept the code and has moved forward. -/
theorem running_step (h : p.step = (.running, q)) :
    p.pc < p.code.length ∧ q.code = p.code ∧ p.pc < q.pc := by
  unfold step at h
  split at h
  · simp at h
  · split at h
    · simp at h
    · next byte hbyte =>
      obtain ⟨hcode, hpc⟩ := advances_carryOut p.pc byte { p with pc := p.pc + 1 }
      rw [conclude_running h] at hcode hpc
      exact ⟨(List.getElem?_eq_some_iff.1 hbyte).1, hcode, hpc⟩

/-- Steps until the run halts, and tells how it ended. -/
def run (p : Processor) : Outcome :=
  match _h : p.step with
  | (.running, q) => run q
  | (.halted, q) => ⟨q.words.reverse, none, q.pc⟩
  | (.failed fault, q) => ⟨q.words.reverse, some fault, q.pc⟩
termination_by p.code.length - p.pc
decreasing_by
  obtain ⟨hlt, hcode, hpc⟩ := running_step _h
  rw [hcode]
  omega

theorem run_eq (p : Processor) : p.run = match p.step with
    | (.running, q) => q.run
    | (.halted, q) => ⟨q.words.reverse, none, q.pc⟩
    | (.failed fault, q) => ⟨q.words.reverse, some fault, q.pc⟩ := by
  rw [run]
  split <;> simp_all

end Stack256.Processor
