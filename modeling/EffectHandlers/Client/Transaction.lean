import EffectHandlers.Client.Transcript
/-!
# Transactions

Each tracked assignment is a command whose clause resumes the rest of the transaction. If that
ends in a rollback the clause restores the old value, so that the assignments are undone from the
last to the first.
-/

namespace EffectHandlers.Transaction

/-- The name of the command that tells of an assignment. -/
def assignCommand : String := "oneshot_demos::rollback::Assign"

/-- The name of the command that rolls back. -/
def rollbackCommand : String := "oneshot_demos::rollback::Rollback"

/-- The name of the handler of transactions. -/
def handlerName : String := "oneshot_demos::rollback::RollbackState"

/-- The handler of transactions; it answers whether the transaction was not rolled back. -/
def handler : HandlerType Content where
  answer := "bool"
  clauses :=
    [ { command := rollbackCommand
        code := .resumptive fun _ _ _ => .done (.bool false) },
      { command := assignCommand
        code := .resumptive fun _ v r => Prog.toComp do
          let committed ← Prog.resume r .unit
          match v, committed.isTrue with
          | .pair (.cell tracked) old, false =>
            Task.writeValue tracked old
            return committed
          | _, _ => return committed } ]
  onReturn _ _ := .done (.bool true)

/-- Run a transaction. -/
def transaction (owned : List Owned) (body : Task Value) : Task Value := do
  let cell ← Prog.alloc (.value .unit)
  Prog.handle { handlerType := handlerName, handler := cell, owned } fun _ => body

/-- Assign to a variable so that it can be undone. -/
def track (tracked : CellId) (v : Value) : Task Unit := do
  let old ← Task.readValue tracked
  Task.writeValue tracked v
  Prog.retain (.cell tracked)
  let _ ← Prog.invoke
    { name := assignCommand, payload := .pair (.cell tracked) old, owned := [.cell tracked] }

/-- Undo every tracked assignment and abandon the transaction. -/
def rollback : Task Unit := do
  let _ ← Prog.invoke { name := rollbackCommand }

/-- Write the values of the demonstration's variables. -/
def showBoth (x c : CellId) : Task Unit := do
  Transcript.emitLine ("x = " ++ toString (← Task.readInt x) ++ ", c = " ++ (← Task.readText c))

/-- A transaction that changes two variables and is rolled back. -/
def demo : Task Unit := do
  let x ← Prog.alloc (.value (.int 1))
  let c ← Prog.alloc (.value (.text "a"))
  let committed ← transaction [] do
    showBoth x c
    track x (.int 2)
    track c (.text "b")
    showBoth x c
    track x (.int 3)
    track c (.text "c")
    showBoth x c
    Transcript.emitLine "rolling back!"
    rollback
    track x (.int 4)
    track c (.text "d")
    return .unit
  Prog.note .debug "rollback state finished"
    [("committed", if committed.isTrue then "true" else "false")]
  showBoth x c
  Prog.release [.cell x, .cell c]

/-- The handlers by name. -/
def handlers : List (String × HandlerType Content) := [(handlerName, handler)]

end EffectHandlers.Transaction
