import EffectHandlers.Tally
import EffectHandlers.Settings.Basic
import EffectHandlers.Report.ByteSize
/-!
# The diagnostics report

The report lists the tally of the whole process, that of the thread, the settings in use and the
thread's chain of installations. A tally with captures that are neither resumed nor discarded
gets a line that tells how many are outstanding.
-/

namespace EffectHandlers.Report

/-- The lines of one tally. -/
def tallyLines (t : Tally) : List String :=
  [ "  Handlers installed:   " ++ toString t.handles,
    "  Captures:             " ++ toString t.captures,
    "  Resumes:              " ++ toString t.resumes,
    "  Tail resumes:         " ++ toString t.tailResumes,
    "  Plain dispatches:     " ++ toString t.plainDispatches,
    "  Discarded:            " ++ toString t.discarded,
    "  Fibers:               " ++ toString t.fibersCreated ++ " created, "
      ++ toString t.stacksReused ++ " stacks reused" ] ++
  if t.settled < t.captures then
    [ "  Outstanding:          " ++ toString (t.captures - t.settled)
        ++ " captured continuation(s) not yet settled" ]
  else []

/-- The lines of the whole report; `listing` is that of the thread's chain. -/
def lines (totals thread : Tally) (settings : Settings) (listing : List String) : List String :=
  ["", "=== Effect Runtime Diagnostics ===", "", "[Process Totals]"] ++ tallyLines totals
  ++ ["", "[This Thread]"] ++ tallyLines thread
  ++ ["", "[Config]", "  Stack size:    " ++ ByteSize.format settings.stackSize,
      "  Pool capacity: " ++ toString settings.poolCapacity ++ " stacks", ""]
  ++ listing ++ ["", "=== End Diagnostics ===", ""]

end EffectHandlers.Report
