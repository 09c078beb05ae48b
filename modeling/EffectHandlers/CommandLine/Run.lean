import EffectHandlers.CommandLine.Help
import EffectHandlers.Machine.Step
/-!
# Running a command line

A well-formed command line runs its demonstrations one after another in one thread. Each writes
its heading and its transcript to standard output; the report comes last, on standard error.
-/

namespace EffectHandlers.CommandLine

/-- What a run leaves behind. -/
structure Result where
  exitCode : Nat
  stdout : String := ""
  /-- The lines on standard error. -/
  stderr : List String := []
  deriving DecidableEq

/-- The exit code of a malformed command line. -/
def malformed : Nat := 2

/-- The exit code of a panic. -/
def panicked : Nat := 101

/-- The exit code of a fault. -/
def faulted : Nat := 1

/-- The lines of a text in which every line has an end. -/
def linesOf (text : String) : List String := (text.splitOn "\n").dropLast

/-- Run one demonstration. -/
def present (d : Demo) : Task Unit := do
  Prog.log ("--- " ++ d.name ++ " ---\n")
  let (transcript, sinks) ← d.run
  match sinks with
  | some (out, err) =>
    Prog.log out
    Prog.print (.lines (linesOf err))
  | none => Prog.log transcript

/-- The code of a run. -/
def code (demos : List Demo) (diagnostics : Bool) : Comp Content := Prog.toComp do
  Prog.forEach present demos
  if diagnostics then
    Prog.print .report
  return .unit

/-- The settings of a process: a stack size that is given goes with the standard capacity. -/
def settings (environment : Environment) (stackSize : Option Int) : SettingsSlot where
  environment := environment
  fixed := stackSize.map fun n =>
    Settings.explicit n.toNat Settings.defaultPoolCapacity

/-- The texts of a journal in order, as one. -/
def transcript (journal : List Event) : String :=
  String.join (journal.reverse.filterMap fun
    | .text s => some s
    | _ => none)

/-- What a thread that has ended leaves behind. -/
def Result.ofMachine (m : Machine Content) : Result :=
  let stdout := transcript m.journal
  let stderr := m.errors.reverse
  match m.control with
  | .halted (.fatal fault listing) =>
    ⟨faulted, stdout, stderr ++ ("oneshot: " ++ fault.message) :: listing⟩
  | .halted (.panicked _) => ⟨panicked, stdout, stderr⟩
  | _ => ⟨0, stdout, stderr⟩

/-- Run a command line, for at most so many steps. -/
def run (fuel : Nat) (environment : Environment) (words : List String) : Result :=
  match Request.ofWords? words with
  | none => { exitCode := malformed }
  | some (.help topic) => { exitCode := 0, stdout := Help.text topic }
  | some .version => { exitCode := 0, stdout := Help.version }
  | some (.run s diagnostics numbers) =>
    Result.ofMachine (Machine.run Client.library fuel
      (Machine.start (settings environment (numbers.lookup OptionSpec.stackSize.name))
        Client.cells [] (code (s.demos numbers) diagnostics)))

end EffectHandlers.CommandLine
