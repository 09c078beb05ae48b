import EffectHandlers.Client.Transcript
/-!
# Round-robin threads

Threads give up control of their own accord and wait in a queue. A thread that forks gives up
control too, with the new thread behind it. Each thread runs under an installation of its own.
-/

namespace EffectHandlers.RoundRobin

/-- The cell of the queue. -/
def queue : CellId := 2

/-- The name of the command that gives up control. -/
def yieldCommand : String := "oneshot_demos::threads::Yield"

/-- The name of the command that starts a thread. -/
def forkCommand : String := "oneshot_demos::threads::Fork"

/-- The name of the handler that threads run under. -/
def handlerName : String := "oneshot_demos::threads::Scheduler"

/-- Give up control. -/
def yield : Task Unit := do
  let _ ← Prog.invoke { name := yieldCommand }

/-- Put a resumption into the queue. -/
def enqueue (r : ResumptionId) : Task Unit := Task.pushBack queue (.resumption r)

/-- Run a thread until it ends or gives up control. -/
def spawn (owned : List Owned) (thread : Task Unit) : Task Unit := do
  let cell ← Prog.alloc (.value .unit)
  let _ ← Prog.handle { handlerType := handlerName, handler := cell, owned } fun _ => do
    thread
    return .unit

/-- Start a thread. -/
def fork (owned : List Owned) (thread : Task Unit) : Task Unit := do
  let start ← Prog.closure owned fun _ => do
    spawn owned thread
    return .unit
  let _ ← Prog.invoke { name := forkCommand, payload := .closure start, owned := [.closure start] }

/-- The handler that threads run under. -/
def handler : HandlerType Content where
  answer := "()"
  clauses :=
    [ { command := yieldCommand
        code := .resumptive fun _ _ r => Prog.toComp do
          enqueue (← Prog.take r)
          return .unit },
      { command := forkCommand
        code := .resumptive fun _ v r => Prog.toComp do
          enqueue (← Prog.take r)
          match v with
          | .closure start =>
            enqueue (← Prog.function "()" start)
            return .unit
          | _ => return .unit } ]
  onReturn _ _ := .done .unit

/-- Run a thread and every thread that it forks, until all have ended. -/
def start (main : Task Unit) : Task Unit := do
  spawn [] main
  let _ ← Prog.loop .unit fun _ => do
    match ← Task.popFront queue with
    | some (.resumption r) =>
      let _ ← Prog.resume r .unit
      return Comp.again .unit
    | _ => return Comp.stop .unit

/-- Do something for each number below a bound, in order. -/
def countTo (bound : Nat) (f : Nat → Task Unit) : Task Unit := do
  let _ ← Prog.loop (.int 0) fun i => do
    if i.toInt < bound then
      f i.toInt.toNat
      return Comp.again (.int (i.toInt + 1))
    else
      return Comp.stop .unit

/-- Write the number of the worker at each step. -/
def worker (k steps : Nat) : Task Unit :=
  countTo steps fun _ => do
    Transcript.emit (toString k)
    yield

/-- Workers that take turns. -/
def demo (workers steps : Nat) : Task Unit := do
  start (countTo workers fun k => fork [] (worker k steps))
  Transcript.emit "\n"

/-- The handlers by name. -/
def handlers : List (String × HandlerType Content) := [(handlerName, handler)]

end EffectHandlers.RoundRobin
