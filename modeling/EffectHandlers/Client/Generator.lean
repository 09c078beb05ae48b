import EffectHandlers.Client.Transcript
/-!
# Generators

The body of a generator runs under an installation of its own until it first yields. The handler
answers with the yielded value and the resumption that runs the body on to the next one, so a
generator is nothing but that answer.
-/

namespace EffectHandlers.Generator

/-- The name of the command that yields values of the type. -/
def yieldCommand (item : String) : String := "oneshot_demos::generators::Yield<" ++ item ++ ">"

/-- The name of the handler of generators with values of the type. -/
def handlerName (item : String) : String :=
  "oneshot_demos::generators::GeneratorHandler<" ++ item ++ ">"

/-- The handler of generators. It answers `absent` when the body has ended. -/
def handler (item : String) : HandlerType Content where
  answer := "core::option::Option<oneshot_demos::generators::GenState<" ++ item ++ ">>"
  clauses :=
    [ { command := yieldCommand item
        code := .noManage fun _ v r => Prog.toComp do
          let r ← Prog.take r
          return .present (.pair v (.resumption r)) } ]
  onReturn _ _ := .done .absent

/-- Yield a value to the generator with the label. -/
def yield (item : String) (label : Int) (v : Value) : Task Unit := do
  let _ ← Prog.invoke { name := yieldCommand item, payload := v }
    (.labelledOfType (handlerName item) label)

/-- Make a generator, running the body up to its first yield. The body gets its label. -/
def make (item : String) (owned : List Owned) (body : Int → Task Unit) : Task Value := do
  let label := (← Prog.ask .freshLabel).toInt
  let cell ← Prog.alloc (.value .unit)
  Prog.handle { handlerType := handlerName item, label := some label, handler := cell, owned }
    fun _ => do
      body label
      return .unit

/-- The next value of a generator, with the generator that goes on behind it. -/
def next (state : Value) : Task (Option (Value × Value)) :=
  match state with
  | .present (.pair v (.resumption r)) => do
    let state ← Prog.resume r .unit
    return some (v, state)
  | _ => return none

/-- Yield all numbers from one on. -/
def naturals (label : Int) : Task Unit := do
  let _ ← Prog.loop (.int 1) fun n => do
    yield "i32" label n
    return Comp.again (.int (n.toInt + 1))

/-- Yield some names. -/
def peaks (label : Int) : Task Unit :=
  ["Everest", "K2", "Kangchenjunga", "Lhotse", "Makalu"].foldl
    (fun earlier peak => do
      earlier
      yield "&str" label (.text peak))
    (return ())

/-- Number the names, with two generators that run in step. -/
def demo : Task Unit := do
  let numbers ← make "i32" [] naturals
  let names ← make "&str" [] peaks
  let left ← Prog.loop (.pair numbers names) fun state =>
    match state with
    | .pair numbers names => do
      match ← next numbers with
      | none => return Comp.stop names
      | some (n, numbers) =>
        match ← next names with
        | none => return Comp.stop numbers
        | some (name, names) =>
          Transcript.emitLine (toString n.toInt ++ " " ++ name.toText)
          return Comp.again (.pair numbers names)
    | v => return Comp.stop v
  Prog.release left.owned

/-- The handlers by name. -/
def handlers : List (String × HandlerType Content) :=
  ["i32", "&str", "i64"].map fun item => (handlerName item, handler item)

end EffectHandlers.Generator
