import EffectHandlers.Client.Transcript
/-!
# Delimited control

A shift cuts out the computation around it, up to the nearest reset, and hands it to a function
that runs in the place of the reset. What was cut out can be called once, like a function.
-/

namespace EffectHandlers.Delimited

/-- The type arguments of a reset: the type of its answer and that of the results of its shifts. -/
structure Kind where
  answer : String
  hole : String

/-- The arguments as the names show them. -/
def Kind.arguments (k : Kind) : String := "<" ++ k.answer ++ ", " ++ k.hole ++ ">"

/-- The name of the command that shifts. -/
def shiftCommand (k : Kind) : String := "oneshot_demos::shift0::Shift0" ++ k.arguments

/-- The name of the handler that delimits. -/
def handlerName (k : Kind) : String := "oneshot_demos::shift0::Reset" ++ k.arguments

/-- The handler that delimits. The payload of a shift is the function to run. -/
def handler (k : Kind) : HandlerType Content where
  answer := k.answer
  clauses :=
    [ { command := shiftCommand k
        code := .resumptive fun _ v r => Prog.toComp do
          match v with
          | .closure f => Prog.apply f (.resumption (← Prog.take r))
          | _ => return .unit } ]

/-- Run a body that shifts may cut. -/
def reset (k : Kind) (owned : List Owned) (body : Task Value) : Task Value := do
  let cell ← Prog.alloc (.value .unit)
  Prog.handle { handlerType := handlerName k, handler := cell, owned } fun _ => body

/-- Cut out the continuation and give it to a function, as a closure that the function owns. -/
def shift (k : Kind) (owned : List Owned) (f : ClosureId → Task Value) : Task Value := do
  let body ← Prog.closure owned fun v => do
    match v with
    | .resumption r => f (← Prog.closure [.resumption r] fun hole => Prog.resume r hole)
    | _ => return .unit
  Prog.invoke { name := shiftCommand k, payload := .closure body, owned := [.closure body] }

/-- Kind of the demonstration's reset. -/
def Kind.sentence : Kind := ⟨"alloc::string::String", "i32"⟩

/-- Kind of resets of numbers. -/
def Kind.number : Kind := ⟨"i64", "i64"⟩

/-- A sentence that is denied by a shift in the middle of it. -/
def demo : Task Unit := do
  let answer ← reset .sentence [] do
    let n ← shift .sentence [] fun k => do
      let sentence ← Prog.apply k (.int 3)
      return .text ("It is not true that " ++ sentence.toText)
    return .text ("2 + 2 = " ++ toString (2 + n.toInt))
  Transcript.emitLine answer.toText

/-- The handlers by name. -/
def handlers : List (String × HandlerType Content) :=
  [Kind.sentence, Kind.number].map fun k => (handlerName k, handler k)

end EffectHandlers.Delimited
