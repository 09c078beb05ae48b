import EffectHandlers.Client.Transcript
/-!
# Mutable state

Two handlers give a body a number that it can read and replace. The first keeps the number in its
own cell and resumes at once. The second never changes anything: its answer is a function of the
number, and each command composes such functions.
-/

namespace EffectHandlers.MutableState

/-- The name of the command that reads the state. -/
def getCommand : String := "oneshot_demos::state::Get"

/-- The name of the command that replaces the state. -/
def putCommand : String := "oneshot_demos::state::Put"

/-- Read the state. -/
def get : Task Int := do return (← Prog.invoke { name := getCommand }).toInt

/-- Replace the state. -/
def put (n : Int) : Task Unit := do
  let _ ← Prog.invoke { name := putCommand, payload := .int n }

/-- The name of the handler that keeps the state, for bodies with results of the type. -/
def cellName (result : String) : String := "oneshot_demos::state::Stateful<" ++ result ++ ">"

/-- The handler that keeps the state in its cell. -/
def cellHandler (result : String) : HandlerType Content where
  answer := result
  clauses :=
    [ { command := getCommand
        code := .resumptive fun cell _ r => Prog.toComp do
          let n ← Task.readInt cell
          Prog.tail r (.int n) },
      { command := putCommand
        code := .resumptive fun cell v r => Prog.toComp do
          Task.writeValue cell v
          Prog.tail r .unit } ]

/-- Run a body with a state kept in a cell. -/
def withCell (result : String) (initial : Int) (owned : List Owned) (body : Task Value) :
    Task Value := do
  let cell ← Prog.alloc (.value (.int initial))
  Prog.handle { handlerType := cellName result, handler := cell, owned } fun _ => body

/-- The name of the handler that answers with functions, for bodies with results of the type. -/
def functionName (result : String) : String := "oneshot_demos::state::Lambda<" ++ result ++ ">"

/-- The type of functions from the state to a result. -/
def functionType (result : String) : String :=
  let arrow := if result = "()" then "" else " -> " ++ result
  "alloc::boxed::Box<dyn core::ops::function::FnOnce(i64)" ++ arrow ++ ">"

/-- Apply a function that was returned as a value. -/
def applyAnswer (answer : Value) (state : Value) : Task Value :=
  match answer with
  | .closure f => Prog.apply f state
  | v => return v

/-- Answer with a function of the state that resumes with `out` of the state and goes on with
`next` of it. -/
def deferred (r : ResumptionId) (out next : Value → Value) : Task Value := do
  let r ← Prog.take r
  let f ← Prog.closure [.resumption r] fun state => do
    applyAnswer (← Prog.resume r (out state)) (next state)
  return .closure f

/-- The handler that answers with functions of the state. -/
def functionHandler (result : String) : HandlerType Content where
  answer := functionType result
  clauses :=
    [ { command := getCommand
        code := .resumptive fun _ _ r => (deferred r id id).toComp },
      { command := putCommand
        code := .resumptive fun _ v r => (deferred r (fun _ => .unit) (fun _ => v)).toComp } ]
  onReturn _ v := Prog.toComp do
    let f ← Prog.closure v.owned fun _ => return v
    return .closure f

/-- Run a body with a state passed through functions. -/
def withFunction (result : String) (initial : Int) (owned : List Owned) (body : Task Value) :
    Task Value := do
  let cell ← Prog.alloc (.value .unit)
  let f ← Prog.handle { handlerType := functionName result, handler := cell, owned } fun _ => body
  applyAnswer f (.int initial)

/-- Write the state, then its successor, then the square of that. -/
def squares : Task Unit := do
  Transcript.emit (toString (← get) ++ " ")
  put ((← get) + 1)
  Transcript.emit (toString (← get) ++ " ")
  let n ← get
  put (n * (← get))
  Transcript.emitLine (toString (← get))

/-- `squares` with a result. -/
def squaresOk : Task Value := do
  squares
  return .text "ok"

/-- Run `squares` under both handlers, with and without a result. -/
def demo : Task Unit := do
  Prog.note .debug "stateful handler"
  let _ ← withCell "()" 100 [] do
    squares
    return .unit
  Transcript.emitLine (← withCell "&str" 100 [] squaresOk).toText
  Prog.note .debug "state as a function"
  let _ ← withFunction "()" 100 [] do
    squares
    return .unit
  Transcript.emitLine (← withFunction "&str" 100 [] squaresOk).toText

/-- The handlers by name. -/
def handlers : List (String × HandlerType Content) :=
  ["i64", "()", "&str"].flatMap fun result =>
    [(cellName result, cellHandler result), (functionName result, functionHandler result)]

end EffectHandlers.MutableState
