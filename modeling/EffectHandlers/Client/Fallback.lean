import EffectHandlers.Client.Transcript
import EffectHandlers.Word
/-!
# Fallback values

A body under a fallback can give up: the rest of it is abandoned, and the answer is the fallback.
-/

namespace EffectHandlers.Fallback

/-- The name of the command that gives up. -/
def errorCommand : String := "oneshot_demos::exceptions::Error"

/-- The name of the handler that answers with a fallback. -/
def handlerName : String := "oneshot_demos::exceptions::WithDefault<i64>"

/-- The handler whose cell holds the fallback. -/
def handler : HandlerType Content where
  answer := "i64"
  clauses :=
    [ { command := errorCommand
        code := .noResume fun cell _ => Prog.toComp (Task.readValue cell) } ]

/-- Give up. -/
def error : Task Value := Prog.invoke { name := errorCommand }

/-- Run a body that may give up. -/
def withDefault (fallback : Int) (owned : List Owned) (body : Task Value) : Task Value := do
  let cell ← Prog.alloc (.value (.int fallback))
  Prog.handle { handlerType := handlerName, handler := cell, owned } fun _ => body

/-- Multiply numbers one by one, giving up at a zero. -/
def multiply (acc : Int) : List Int → Task Value
  | [] => return .int acc
  | x :: xs => do
    if x = 0 then
      let _ ← error
    multiply (← Prog.checked (Word.mul? acc x)) xs

/-- The product of numbers, found without looking behind the first zero. -/
def product (xs : List Int) : Task Value := withDefault 0 [] (multiply 1 xs)

/-- Two products, the second of which has a zero in it. -/
def demo : Task Unit := do
  Transcript.emitLine (toString (← product [1, 2, 3, 4, 5]).toInt)
  Transcript.emitLine (toString (← product [1, 2, 0, 4, 5]).toInt)

/-- The handlers by name. -/
def handlers : List (String × HandlerType Content) := [(handlerName, handler)]

end EffectHandlers.Fallback
