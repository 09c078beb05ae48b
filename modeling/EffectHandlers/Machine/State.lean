import EffectHandlers.Bounce.Basic
import EffectHandlers.Chain.Listing
import EffectHandlers.Computation.Basic
import EffectHandlers.Fiber.Pool
import EffectHandlers.Fiber.Switch
/-!
# The state of a thread

A thread runs computations on fibers. Its state holds the chain of installations, the fibers, the
shared cells, everything that is owned by number, and what the running code does at this moment:
a stack of activations and a control that says how the top activation goes on.
-/

namespace EffectHandlers

/-- Number of the place where an invoker waits for its result; it is never reused. -/
abbrev ExchangeId := Nat

/-- Something that running code, or the thread itself, holds and releases in the end. -/
inductive Holding where
  /-- What computations can own. -/
  | asset (o : Owned)
  /-- One share of an installation. -/
  | installation (id : InstallationId)
  | fiber (id : FiberId)
  | exchange (id : ExchangeId)
  deriving DecidableEq

/-- What a segment that is cut off the chain owns: its top, and the reference to its lowest. -/
def Segment.owned (s : Segment) : List Holding := [.installation s.top, .installation s.lowest]

/-- A closure that has not been called. -/
structure Closure (ω : Type) where
  owned : List Owned
  body : Value → Comp ω

/-- A continuation that has not been used yet. -/
inductive Cont (ω : Type) where
  /-- A parked fiber with the installations cut off together with it. The result for the invoker
  that parked goes into the exchange. -/
  | captured (answer : String) (fiber : FiberId) (segment : Segment) (exchange : ExchangeId)
  /-- A closure, with its argument once the continuation is resumed. -/
  | function (answer : String) (f : Closure ω) (arg : Option Value)

namespace Cont

variable {ω : Type}

/-- The name of the type of the continuation's answer. -/
def answer : Cont ω → String
  | captured a .. => a
  | function a .. => a

/-- What a continuation owns. A captured fiber is dropped before its installations, the argument
of a closure before what the closure owns. -/
def owned : Cont ω → List Holding
  | captured _ fiber segment _ => .fiber fiber :: segment.owned
  | function _ f arg => (((arg.map Value.owned).getD []) ++ f.owned).map .asset

end Cont

/-- The place where an invoker leaves its command and finds its result. -/
structure Exchange where
  command : Option Command
  result : Option Value := none
  deriving DecidableEq

/-- A parked invoker's request to the driver of an installation. -/
structure Request where
  target : InstallationId
  /-- The position of the clause. -/
  entry : Nat
  exchange : ExchangeId
  command : String
  deriving DecidableEq

/-- One activation of a running or parked piece of code. -/
inductive Activation (ω : Type) where
  /-- The body of a fiber that has not been started. -/
  | start (body : Comp ω)
  /-- Goes on with the value it gets. -/
  | bind (next : Value → Comp ω)
  /-- Owns something until it ends. -/
  | owning (os : List Owned)
  /-- Stops panics. -/
  | catching (next : Except String Value → Comp ω)
  /-- Runs a loop body again. -/
  | looping (body next : Value → Comp ω)
  /-- The loop that runs steps until one is done. -/
  | stepping
  /-- A driver that waits for the fiber of its installation's body. -/
  | driving (i : InstallationId) (fiber : FiberId)
  /-- A clause that answers for its installation, which it may keep alive. -/
  | clause (keep : Option InstallationId) (answer : String)
  /-- The return clause of an installation. -/
  | returning (i : InstallationId) (answer : String)
  /-- The closure of a function resumption. -/
  | calling (answer : String)
  /-- An invoker that waits for its result. -/
  | sending (i : InstallationId) (exchange : ExchangeId) (modifier : Modifier) (command : String)
  /-- A plain clause, with the installations hidden from it. -/
  | inPlace (i : InstallationId) (handler : CellId) (hidden : Segment) (exchange : ExchangeId)

/-- What is released when an activation is unwound, in order. -/
def Activation.owned {ω : Type} : Activation ω → List Holding
  | owning os => os.map .asset
  | driving i fiber => [.fiber fiber, .installation i]
  | clause keep _ => (keep.map Holding.installation).toList
  | returning i _ => [.installation i, .installation i]
  | sending i exchange .. => [.exchange exchange, .installation i]
  | inPlace i handler hidden exchange =>
    hidden.owned ++ [.exchange exchange, .asset (.cell handler), .installation i]
  | _ => []

/-- How a thread ended. -/
inductive Outcome where
  | finished (v : Value)
  | panicked (message : String)
  /-- A fault, with the listing of the chain at that moment. -/
  | fatal (fault : Fault) (listing : List String)
  deriving DecidableEq

/-- How the running code goes on. -/
inductive Control (ω : Type) where
  | eval (c : Comp ω)
  /-- Give a value to the top activation. -/
  | ret (v : Value)
  /-- Give a step to the loop that is on top. -/
  | deliver (s : Step (Cont ω) Value)
  /-- Turn an answer into a step: a waiting tail resume goes before it. -/
  | settle (answer : String) (v : Value)
  /-- Hand a request to the driver that waits for the running fiber. -/
  | request (r : Request)
  /-- Go on after the running fiber was resumed. -/
  | wake
  /-- Unwind the top activation. -/
  | unwind (message : String)
  /-- End the thread with a fault. -/
  | fault (f : Fault)
  | halted (o : Outcome)

/-- A cell with the number of its shares. -/
structure Shared (ω : Type) where
  content : ω
  shares : Nat

/-- The state of a thread. -/
structure Machine (ω : Type) where
  chain : Chain := Chain.initial
  fibers : Fibers (List (Activation ω)) := {}
  cells : Store (Shared ω) := {}
  closures : Store (Closure ω) := {}
  /-- The references that computations hold, each with a share of its installation. -/
  references : Store InstallationId := {}
  exchanges : Store Exchange := {}
  /-- The valid resumptions with their continuations. -/
  resumptions : Store (Cont ω) := {}
  /-- The tail resume that waits for the end of the running clause. -/
  pending : Option (Cont ω) := none
  /-- The handler types that were declared already. -/
  declared : List String := []
  pool : StackPool := {}
  counters : Tally := {}
  /-- Newest first. -/
  journal : List Event := []
  /-- Lines written to standard error, newest first. -/
  errors : List String := []
  /-- The activations of the running code, top first. -/
  stack : List (Activation ω) := []
  /-- What the thread as a whole owns, which is released when a fault ends it. -/
  statics : List Owned := []
  /-- What is being released, before control goes on. -/
  releasing : List Holding := []
  control : Control ω

namespace Machine

variable {ω : Type}

/-- A fresh thread that is about to run a computation. Cells, references and resumptions are
numbered from one on: the cell of the bottom installation, the empty reference and the empty
resumption do not exist. -/
def start (settings : SettingsSlot) (cells : List ω) (statics : List Owned) (main : Comp ω) :
    Machine ω :=
  { statics
    cells := cells.foldl (fun s content => (s.insert ⟨content, 1⟩).2) { next := 1 }
    references := { next := emptyReference + 1 }
    resumptions := { next := emptyResumption + 1 }
    pool := { settings }
    control := .eval main }

/-- Add an event to the journal. -/
def record (m : Machine ω) (e : Event) : Machine ω := { m with journal := e :: m.journal }

/-- Add a trace event to the journal. -/
def trace (m : Machine ω) (e : TraceEvent) : Machine ω := m.record (.trace e)

/-- Count an event. -/
def bump (m : Machine ω) (c : Counter) : Machine ω := { m with counters := m.counters.bump c }

/-- Trace the warnings about settings. -/
def warn (m : Machine ω) (ws : List SettingsWarning) : Machine ω :=
  ws.foldl (fun m w => m.trace (.warning w)) m

/-- Put an activation on top of the running code. -/
def push (m : Machine ω) (a : Activation ω) : Machine ω := { m with stack := a :: m.stack }

/-- Release something before going on. -/
def release (m : Machine ω) (hs : List Holding) : Machine ω :=
  { m with releasing := hs ++ m.releasing }

/-- Release what a computation owned before going on. -/
def discard (m : Machine ω) (os : List Owned) : Machine ω := m.release (os.map .asset)

/-- Go on with this control once everything is released. -/
def goOn (m : Machine ω) (control : Control ω) : Machine ω := { m with control }

/-- Read the content of a cell. -/
def content [Contents ω] (m : Machine ω) (c : CellId) : ω :=
  ((m.cells.find? c).map (·.content)).getD default

/-- Add a share to what is counted in shares. -/
def retain (m : Machine ω) : Owned → Machine ω
  | .cell c => { m with cells := m.cells.modify c fun s => { s with shares := s.shares + 1 } }
  | _ => m

/-- Add a share to an installation. -/
def hold (m : Machine ω) (i : InstallationId) : Machine ω :=
  { m with chain := m.chain.modify i fun s => { s with shares := s.shares + 1 } }

/-- The installation that a reference refers to; a reference that is gone reads as the bottom. -/
def referent (m : Machine ω) (r : ReferenceId) : InstallationId :=
  (m.references.find? r).getD 0

end Machine

end EffectHandlers
