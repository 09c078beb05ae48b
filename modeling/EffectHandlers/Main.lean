import EffectHandlers.CommandLine.Run
/-!
# The command line program
-/

open EffectHandlers

/-- Run the command line of the process. -/
def main (words : List String) : IO UInt32 := do
  let stackSize ← IO.getEnv "ONESHOT_STACK_SIZE"
  let poolCapacity ← IO.getEnv "ONESHOT_POOL_CAPACITY"
  let environment : Environment :=
    { stackSize := stackSize.map fun s => s.toUTF8.toList
      poolCapacity := poolCapacity.map fun s => s.toUTF8.toList }
  let result := CommandLine.run Machine.stepLimit environment words
  IO.print result.stdout
  for line in result.stderr do
    IO.eprintln line
  return result.exitCode.toUInt32
