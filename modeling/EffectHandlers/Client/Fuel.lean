import EffectHandlers.Client.Transcript
import EffectHandlers.Word
/-!
# Fuel

A computation announces how much fuel it uses. One handler abandons it when it asks for more than
is left; another lets it run and adds up what it used.
-/

namespace EffectHandlers.Fuel

/-- The name of the command that uses fuel. -/
def consumeCommand : String := "oneshot_demos::fuel::Consume"

/-- Use an amount of fuel. -/
def consume (amount : Int) : Task Unit := do
  let _ ← Prog.invoke { name := consumeCommand, payload := .int amount }

/-- The name of the handler that bounds the fuel. -/
def boundedName : String := "oneshot_demos::fuel::BoundedExecution"

/-- The handler that bounds the fuel; its cell holds what is left. -/
def bounded : HandlerType Content where
  answer := "core::option::Option<i64>"
  clauses :=
    [ { command := consumeCommand
        code := .resumptive fun cell v r => Prog.toComp do
          let left ← Task.readInt cell
          let amount := v.toInt
          if left < amount then
            Prog.note .debug "out of fuel" [("left", toString left), ("amount", toString amount)]
            return .absent
          else
            Task.writeInt cell (← Prog.checked (Word.sub? left amount))
            Prog.tail r .unit } ]
  onReturn _ v := .done (.present v)

/-- Run a body with this much fuel; the answer is `absent` if it is not enough. -/
def withBudget (fuel : Int) (owned : List Owned) (body : Task Value) : Task Value := do
  let cell ← Prog.alloc (.value (.int fuel))
  Prog.handle { handlerType := boundedName, handler := cell, owned } fun _ => body

/-- The name of the handler that measures the fuel. -/
def measureName : String := "oneshot_demos::fuel::MeasureFuel"

/-- The handler that measures the fuel; its cell holds what was used. -/
def measure : HandlerType Content where
  answer := "(i64, i64)"
  clauses :=
    [ { command := consumeCommand
        code := .resumptive fun cell v r => Prog.toComp do
          let used ← Task.readInt cell
          Task.writeInt cell (← Prog.checked (Word.add? used v.toInt))
          Prog.tail r .unit } ]
  onReturn cell v := Prog.toComp do
    return .pair v (.int (← Task.readInt cell))

/-- Run a body; the answer is the pair of its result and the fuel it used. -/
def measured (owned : List Owned) (body : Task Value) : Task Value := do
  let cell ← Prog.alloc (.value (.int 0))
  Prog.handle { handlerType := measureName, handler := cell, owned } fun _ => body

/-- The name of the procedure for Fibonacci numbers. -/
def fibName : String := "fibonacci with fuel"

/-- One call of the procedure for Fibonacci numbers, which uses one unit of fuel. -/
def fibStep (n : Value) : Task Value := do
  consume 1
  if n = .int 0 ∨ n = .int 1 then
    return n
  else
    let a ← Prog.call fibName (.int (← Prog.checked (Word.sub? n.toInt 1)))
    let b ← Prog.call fibName (.int (← Prog.checked (Word.sub? n.toInt 2)))
    return .int (← Prog.checked (Word.add? a.toInt b.toInt))

/-- The Fibonacci number, one unit of fuel a call. -/
def fib (n : Int) : Task Value := Prog.call fibName (.int n)

/-- One run with bounded fuel. -/
def boundedRun (budget n : Int) : Task Unit := do
  match ← withBudget budget [] (fib n) with
  | .present v => Transcript.emitLine ("fib(" ++ toString n ++ ") = " ++ toString v.toInt)
  | _ =>
    Transcript.emitLine ("fib(" ++ toString n
      ++ ") = (not enough fuel to complete this computation)")

/-- One run with measured fuel. -/
def measuredRun (n : Int) : Task Unit := do
  match ← measured [] (fib n) with
  | .pair v used =>
    Transcript.emitLine ("fib(" ++ toString n ++ ") = " ++ toString v.toInt ++ "\t(took "
      ++ toString used.toInt ++ " steps to complete)")
  | _ => return ()

/-- Bounded runs of growing size, then measured ones. -/
def demo (budget : Int) : Task Unit := do
  Prog.forEach (boundedRun budget) [5, 10, 15, 20]
  Prog.forEach measuredRun [5, 10, 15, 20]

/-- The handlers by name. -/
def handlers : List (String × HandlerType Content) :=
  [(boundedName, bounded), (measureName, measure)]

/-- The procedures by name. -/
def procedures : List (String × (Value → Task Value)) := [(fibName, fibStep)]

end EffectHandlers.Fuel
