import EffectHandlers.Client.Transcript
/-!
# Futures

Computations are queued, and each has a future for its result. A computation that gives up
control goes into the queue; one that awaits a future that is not ready waits at the future and
goes back into the queue when the result is there. Each time one of these stops, a random
computation of the queue is resumed.
-/

namespace EffectHandlers.Promise

/-- The cell of the queue. -/
def queue : CellId := 3

/-- The cell of the random choices. -/
def choices : CellId := 4

/-- The name of the command that gives up control. -/
def yieldCommand : String := "oneshot_demos::async_await::Yield"

/-- The name of the command that waits for a future. -/
def awaitCommand : String := "oneshot_demos::async_await::Await"

/-- The name of the handler for computations with results of the type. -/
def handlerName (result : String) : String :=
  "oneshot_demos::async_await::Scheduler<" ++ result ++ ">"

/-- The future in a cell. -/
def readFuture (c : CellId) : Task Future := do
  match ← Prog.read c with
  | .future f => return f
  | _ => return {}

/-- Replace the future in a cell. -/
def writeFuture (c : CellId) (f : Future) : Task Unit := Prog.write c (.future f)

/-- An index into a queue of this length: a random one, once the choices have been seeded. -/
def choose (length : Nat) : Task Nat := do
  match ← Prog.read choices with
  | .draws (some d) =>
    let (i, d) := d.below length
    Prog.write choices (.draws (some d))
    return i
  | _ => return 0

/-- Resume a random computation of the queue, if there is one. -/
def wakeRandom : Task Unit := do
  let waiting ← Task.readList queue
  if waiting.isEmpty then return ()
  else
    let i ← choose waiting.length
    Prog.write queue (.list (waiting.eraseIdx i))
    match waiting[i]? with
    | some (.resumption r) =>
      let _ ← Prog.resume r .unit
    | _ => return ()

/-- The cell of the future that a handler's cell refers to. -/
def futureOf (cell : CellId) : Task CellId := do
  match ← Task.readValue cell with
  | .cell future => return future
  | _ => return 0

/-- The handler for computations; its cell refers to the future of the computation's result. -/
def handler : HandlerType Content where
  answer := "()"
  clauses :=
    [ { command := yieldCommand
        code := .resumptive fun _ _ r => Prog.toComp do
          Task.pushBack queue (.resumption (← Prog.take r))
          wakeRandom
          return .unit },
      { command := awaitCommand
        code := .resumptive fun _ v r => Prog.toComp do
          match v with
          | .cell future =>
            let f ← readFuture future
            writeFuture future { f with waiting := f.waiting ++ [← Prog.take r] }
          | _ => pure ()
          wakeRandom
          return .unit } ]
  onReturn cell v := Prog.toComp do
    let future ← futureOf cell
    let f ← readFuture future
    let queued ← Task.readList queue
    Prog.write queue (.list (queued ++ f.waiting.map .resumption))
    writeFuture future { value := some v }
    wakeRandom
    return .unit

/-- Run a computation for a future, of which one share goes over to the handler. -/
def runInto (result : String) (future : CellId) (owned : List Owned) (body : Task Value) :
    Task Value := do
  let cell ← Prog.alloc (.value (.cell future))
  Prog.handle { handlerType := handlerName result, handler := cell, owned } fun _ => body

/-- Queue a computation; the caller gets a share of its future. -/
def spawn (result : String) (owned : List Owned) (body : Task Value) : Task CellId := do
  let future ← Prog.alloc (.future {})
  Prog.retain (.cell future)
  let start ← Prog.closure (.cell future :: owned) fun _ => runInto result future owned body
  Task.pushBack queue (.resumption (← Prog.function "()" start))
  return future

/-- The result of a computation, if it has ended. -/
def value (future : CellId) : Task (Option Value) := do return (← readFuture future).value

/-- Whether a computation has ended. -/
def isReady (future : CellId) : Task Bool := do return (← value future).isSome

/-- Give up control. -/
def yield : Task Unit := do
  let _ ← Prog.invoke { name := yieldCommand }

/-- Wait for a result. -/
def await (future : CellId) : Task (Option Value) := do
  if ← isReady future then value future
  else
    Prog.retain (.cell future)
    let _ ← Prog.invoke
      { name := awaitCommand, payload := .cell future, owned := [.cell future] }
    value future

/-- Run a computation as the main one, with choices from a seed. The result is absent if it waits for
ever. -/
def run (result : String) (seed : Nat) (body : Task Value) : Task Value := do
  Prog.write choices (.draws (some (Draws.ofSeed seed)))
  let future ← Prog.alloc (.future {})
  Prog.retain (.cell future)
  Prog.scope [.cell future] do
    let _ ← runInto result future [] body
    match ← value future with
    | some v => return .present v
    | none => return .absent

/-- Write dots, giving up control after each. -/
def worker : Task Value := do
  Prog.forEach
    (fun _ => do
      Transcript.emit "."
      yield)
    (List.replicate 30 ())
  return .int 100

/-- Start a worker, look for its result a few times, then await it. -/
def starter : Task Value := do
  let future ← spawn "i32" [] worker
  Prog.scope [.cell future] do
    Transcript.emit "[worker started]"
    Prog.forEach
      (fun _ => do
        if ← isReady future then return ()
        else
          Transcript.emit "\n[no value yet]"
          yield)
      (List.replicate 5 ())
    Transcript.emit "\n[I'd better wait]"
    match ← await future with
    | some v => Transcript.emit ("\n[worker returned " ++ toString v.toInt ++ "]")
    | none => Transcript.emit "\n[worker never returned]"
    return .unit

/-- A worker and a computation that waits for it. -/
def demo (seed : Nat) : Task Unit := do
  let _ ← run "()" seed starter
  Transcript.emit "\n"

/-- The handlers by name. -/
def handlers : List (String × HandlerType Content) :=
  ["()", "i32", "i64"].map fun result => (handlerName result, handler)

end EffectHandlers.Promise
