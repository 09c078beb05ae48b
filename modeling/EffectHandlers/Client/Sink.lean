import EffectHandlers.Client.Transcript
import EffectHandlers.Word
/-!
# Sinks

A computation announces that it is at work. Its handler chooses the sink to which the result is
written.
-/

namespace EffectHandlers.Sink

/-- The name of the command that announces work. -/
def logCommand : String := "oneshot_demos::logging::Log"

/-- The name of the handler that writes results to a sink. -/
def handlerName : String := "oneshot_demos::logging::Logger<i64>"

/-- The handler that writes results to a sink; its cell refers to the sink. -/
def handler : HandlerType Content where
  answer := "core::option::Option<i64>"
  clauses :=
    [ { command := logCommand
        code := .resumptive fun _ _ r => (Prog.tail r .unit).toComp } ]
  onReturn cell v := Prog.toComp do
    match ← Task.readValue cell with
    | .cell sink =>
      Task.writeText sink ((← Task.readText sink) ++ toString v.toInt ++ "\n")
      return .present v
    | _ => return .present v

/-- Run a body whose result goes to a sink. -/
def withSink (sink : CellId) (owned : List Owned) (body : Task Value) : Task Value := do
  Prog.retain (.cell sink)
  let cell ← Prog.alloc (.value (.cell sink))
  Prog.handle { handlerType := handlerName, handler := cell, owned } fun _ => body

/-- The name of the procedure for Fibonacci numbers. -/
def fibName : String := "fibonacci with announcements"

/-- One call of the procedure for Fibonacci numbers, which announces itself. -/
def fibStep (n : Value) : Task Value := do
  let _ ← Prog.invoke { name := logCommand }
  if n = .int 0 ∨ n = .int 1 then
    return n
  else
    let a ← Prog.call fibName (.int (← Prog.checked (Word.sub? n.toInt 1)))
    let b ← Prog.call fibName (.int (← Prog.checked (Word.sub? n.toInt 2)))
    return .int (← Prog.checked (Word.add? a.toInt b.toInt))

/-- The Fibonacci number, with an announcement at each call. -/
def fib (n : Int) : Task Value := Prog.call fibName (.int n)

/-- Write Fibonacci numbers to two sinks in turn; the result is the texts of both. -/
def demo : Task (String × String) := do
  let out ← Prog.alloc (.value (.text ""))
  let err ← Prog.alloc (.value (.text ""))
  Prog.forEach
    (fun (n, sink) => do
      let _ ← withSink sink [] (fib n))
    [((5 : Int), out), (10, err), (15, out), (20, err)]
  let texts := (← Task.readText out, ← Task.readText err)
  Prog.release [.cell out, .cell err]
  return texts

/-- The handlers by name. -/
def handlers : List (String × HandlerType Content) := [(handlerName, handler)]

/-- The procedures by name. -/
def procedures : List (String × (Value → Task Value)) := [(fibName, fibStep)]

end EffectHandlers.Sink
