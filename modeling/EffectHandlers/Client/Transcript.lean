import EffectHandlers.Client.Content
/-!
# The transcript

Programs write to the transcript of their thread. A capture sets the transcript aside, and gives
back what was written in the meantime.
-/

namespace EffectHandlers.Transcript

/-- The cell of the transcript. -/
def cell : CellId := 1

/-- Write a text. -/
def emit (text : String) : Task Unit := do
  Task.writeText cell ((← Task.readText cell) ++ text)

/-- Write a text and end the line. -/
def emitLine (text : String) : Task Unit := emit (text ++ "\n")

/-- Run a program and return what it wrote. A program that never ends its run leaves the
transcript as it is. -/
def capture {α : Type} (body : Task α) : Task (String × α) := do
  let outer ← Task.readText cell
  Task.writeText cell ""
  let v ← body
  let text ← Task.readText cell
  Task.writeText cell outer
  return (text, v)

end EffectHandlers.Transcript
