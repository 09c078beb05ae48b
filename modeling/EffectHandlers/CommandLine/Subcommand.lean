import EffectHandlers.Client.Demo
import EffectHandlers.Settings.Basic
import EffectHandlers.Word
/-!
# Subcommands and their options

Each demonstration has a subcommand, and one more subcommand runs them all. Some have options
that take a number within bounds.
-/

namespace EffectHandlers.CommandLine

/-- An option that takes a number. -/
structure OptionSpec where
  /-- The name behind the two dashes. -/
  name : String
  /-- The least number that is accepted. -/
  least : Int
  /-- The greatest number that is accepted. -/
  greatest : Int
  /-- The number when the option is not given, if there is one. -/
  standard : Option Int
  about : String
  deriving DecidableEq

namespace OptionSpec

/-- The stack size, an option of every subcommand. -/
def stackSize : OptionSpec :=
  ⟨"stack-size", 0, Word.count - 1, none,
    "Fiber stack size in bytes (overrides ONESHOT_STACK_SIZE)"⟩

/-- The fuel of the bounded runs. -/
def budget : OptionSpec :=
  ⟨"budget", Word.min, Word.max, some 10000, "Units of fuel for the bounded runs"⟩

/-- How many workers are forked. -/
def workers : OptionSpec := ⟨"workers", 0, Word.count - 1, some 5, "Number of forked workers"⟩

/-- How many steps each worker takes. -/
def steps : OptionSpec := ⟨"steps", 0, Word.count - 1, some 10, "Steps per worker"⟩

/-- How many numbers are sent to the echo actor. -/
def rounds : OptionSpec :=
  ⟨"rounds", -2147483648, 2147483647, some 10, "Messages the starter bounces off the echo actor"⟩

/-- The seed of the random choices. -/
def seed : OptionSpec := ⟨"seed", 0, Word.count - 1, some 11, "Scheduler seed"⟩

/-- Read a number for an option: ASCII digits behind an optional sign. The sign `-` is only known
to options that accept negative numbers. -/
def read? (o : OptionSpec) (text : String) : Option Int := do
  let (negative, digits) := match text.toList with
    | '-' :: rest => if o.least < 0 then (true, rest) else (false, '-' :: rest)
    | '+' :: rest => (false, rest)
    | digits => (false, digits)
  if digits.isEmpty then none
  else
    let magnitude : Int ← Settings.digitsValue 0 digits
    let n := if negative then -magnitude else magnitude
    if o.least ≤ n ∧ n ≤ o.greatest then some n else none

end OptionSpec

/-- What a command line can ask for. -/
inductive Subcommand where
  | state
  | generators
  | exceptions
  | fuel
  | threads
  | actors
  | asyncAwait
  | shift
  | rollback
  | logging
  | all
  deriving DecidableEq

namespace Subcommand

/-- All subcommands in the order of the help text. -/
def list : List Subcommand :=
  [state, generators, exceptions, fuel, threads, actors, asyncAwait, shift, rollback, logging, all]

/-- The word that asks for a subcommand. -/
def name : Subcommand → String
  | state => "state"
  | generators => "generators"
  | exceptions => "exceptions"
  | fuel => "fuel"
  | threads => "threads"
  | actors => "actors"
  | asyncAwait => "async-await"
  | shift => "shift0"
  | rollback => "rollback"
  | logging => "logging"
  | all => "all"

/-- What a subcommand is for, in one line. -/
def about : Subcommand → String
  | state => "Stateful handlers and state as a function"
  | generators => "Generators as iterators over a suspended body"
  | exceptions => "Exceptions with a default value"
  | fuel => "Fuel-bounded and fuel-measured execution"
  | threads => "Lightweight threads on a round-robin scheduler"
  | actors => "Message-passing actors with typed mailboxes"
  | asyncAwait => "Async/await on a randomised scheduler"
  | shift => "The shift0/reset control operators"
  | rollback => "Assignments rolled back by a handler"
  | logging => "Logging to a stream chosen by the handler"
  | all => "Run every demo with default settings"

/-- The options of a subcommand, without those that every subcommand has. -/
def options : Subcommand → List OptionSpec
  | fuel => [.budget]
  | threads => [.workers, .steps]
  | actors => [.rounds]
  | asyncAwait => [.seed]
  | _ => []

/-- The subcommand with a name. -/
def ofName? (text : String) : Option Subcommand := list.find? (·.name == text)

/-- The number given for an option, or the standard one. -/
def valueOf (given : List (String × Int)) (o : OptionSpec) : Int :=
  ((given.lookup o.name).or o.standard).getD 0

/-- The demonstration of a subcommand with the numbers that were given for its options. -/
def demo? (given : List (String × Int)) : Subcommand → Option Demo
  | state => some .state
  | generators => some .generators
  | exceptions => some .exceptions
  | fuel => some (.fuel (valueOf given .budget))
  | threads => some (.threads (valueOf given .workers).toNat (valueOf given .steps).toNat)
  | actors => some (.actors (valueOf given .rounds))
  | asyncAwait => some (.asyncAwait (valueOf given .seed).toNat)
  | shift => some .shift
  | rollback => some .rollback
  | logging => some .logging
  | all => none

/-- The demonstrations that a subcommand runs. -/
def demos (given : List (String × Int)) (s : Subcommand) : List Demo :=
  match s.demo? given with
  | some d => [d]
  | none => list.filterMap (demo? [])

end Subcommand

end EffectHandlers.CommandLine
