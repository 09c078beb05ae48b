import EffectHandlers.Bounce.Basic
import EffectHandlers.Word
/-!
# Programs for the loop

A small accumulator program, each of whose steps hands over to the rest of the program. Running a
nested program is a level of its own: when it ends, its result is the accumulator of the level
that started it.
-/

namespace EffectHandlers.Bounce

/-- One instruction on the accumulator. -/
inductive Instruction where
  /-- Add a number, which must not overflow. -/
  | add (n : Int)
  /-- Log the accumulator. -/
  | log
  /-- Log whether a tail resume is waiting. -/
  | pending
  /-- Add one, so many times, in one step each. -/
  | countdown (n : Int)
  /-- Run a program that starts with this accumulator. -/
  | nested (program : List Instruction)
  /-- End the program with this result. -/
  | done (n : Int)

/-- What an instruction logs. -/
inductive Entry where
  | number (n : Int)
  | flag (b : Bool)

/-- The rest of a run: the instructions of each level, innermost first, and the accumulator. -/
structure Rest where
  levels : List (List Instruction)
  acc : Int

/-- The answer of a run: its result, or the text of the panic that ended it. -/
abbrev Answer := Except String Int

/-- Go on with a checked new accumulator. -/
def goOn (levels : List (List Instruction)) : Except String Int → Step Rest Answer
  | .ok acc => .tail ⟨levels, acc⟩
  | .error text => .done (.error text)

/-- One step of a run; `log` holds what was logged, newest first. -/
def step (r : Rest) (log : List Entry) : Step Rest Answer × List Entry :=
  match r.levels with
  | [] => (.done (.ok r.acc), log)
  | [] :: outer => (.tail ⟨outer, r.acc⟩, log)
  | (i :: rest) :: outer =>
    match i with
    | .add n => (goOn (rest :: outer) (Word.add? r.acc n), log)
    | .log => (.tail ⟨rest :: outer, r.acc⟩, .number r.acc :: log)
    | .pending => (.tail ⟨rest :: outer, r.acc⟩, .flag false :: log)
    | .countdown n =>
      if n ≤ 0 then (.tail ⟨rest :: outer, r.acc⟩, log)
      else (goOn ((.countdown (n - 1) :: rest) :: outer) (Word.add? r.acc 1), log)
    | .nested program => (.tail ⟨program :: rest :: outer, r.acc⟩, log)
    | .done n => (.tail ⟨outer, n⟩, log)

mutual

/-- How many steps an instruction can take. -/
def Instruction.cost : Instruction → Nat
  | .countdown n => n.toNat + 1
  | .nested program => costs program + 2
  | _ => 1

/-- How many steps the instructions of a program can take. -/
def costs : List Instruction → Nat
  | [] => 0
  | i :: rest => i.cost + costs rest

end

/-- Run a program from accumulator 0: its answer and what it logged, in order. -/
def run (program : List Instruction) : Answer × List Entry :=
  match Step.run step (costs program + 2) (.tail ⟨[program], 0⟩) [] with
  | some (answer, log) => (answer, log.reverse)
  | none => (.ok 0, [])

end EffectHandlers.Bounce
