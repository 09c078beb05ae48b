import EffectHandlers.Client.Library
/-!
# Demonstrations

Each demonstration runs one client program with parameters. What it writes is its transcript; one
of them writes to two sinks instead.
-/

namespace EffectHandlers

/-- The demonstrations, with their parameters. -/
inductive Demo where
  | state
  | generators
  | exceptions
  | fuel (budget : Int)
  | threads (workers steps : Nat)
  | actors (rounds : Int)
  | asyncAwait (seed : Nat)
  | shift
  | rollback
  | logging
  deriving DecidableEq

namespace Demo

/-- The name of a demonstration. -/
def name : Demo → String
  | state => "state"
  | generators => "generators"
  | exceptions => "exceptions"
  | fuel _ => "fuel"
  | threads .. => "threads"
  | actors _ => "actors"
  | asyncAwait _ => "async-await"
  | shift => "shift0"
  | rollback => "rollback"
  | logging => "logging"

/-- A program that writes to the transcript alone. -/
def withoutSinks (p : Task Unit) : Task (Option (String × String)) := do
  p
  return none

/-- What a demonstration does. The result is the texts of its sinks, if it has any. -/
def program : Demo → Task (Option (String × String))
  | state => withoutSinks MutableState.demo
  | generators => withoutSinks Generator.demo
  | exceptions => withoutSinks Fallback.demo
  | fuel budget => withoutSinks (Fuel.demo budget)
  | threads workers steps => withoutSinks (RoundRobin.demo workers steps)
  | actors rounds => withoutSinks (Actor.demo rounds)
  | asyncAwait seed => withoutSinks (Promise.demo seed)
  | shift => withoutSinks Delimited.demo
  | rollback => withoutSinks Transaction.demo
  | logging => some <$> Sink.demo

/-- Run a demonstration. The result is its transcript and the texts of its sinks. -/
def run (d : Demo) : Task (String × Option (String × String)) := Transcript.capture d.program

end Demo

end EffectHandlers
