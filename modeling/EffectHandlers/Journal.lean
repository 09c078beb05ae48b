import EffectHandlers.Chain.Modifier
import EffectHandlers.Fault
import EffectHandlers.Tally
import EffectHandlers.Settings.Basic
/-!
# The journal

What a run leaves behind in order: the texts a program logs, the notices of things dropped, the
views it asks for, and the trace events of the runtime itself. Trace events are always recorded;
whether they are shown is up to the reader of the journal.
-/

namespace EffectHandlers

/-- Severity of a trace event. -/
inductive Level where
  | trace
  | debug
  | info
  | warn
  | error
  deriving DecidableEq

/-- The word for a severity. -/
def Level.word : Level → String
  | trace => "TRACE"
  | debug => "DEBUG"
  | info => "INFO"
  | warn => "WARN"
  | error => "ERROR"

/-- What the runtime and the client programs report about their own doing. -/
inductive TraceEvent where
  | declared (handler : String) (clauses : Nat)
  | installed (label : Int) (handler : String)
  | invoked (command : String) (label : Int) (handler : String)
  | captured (label : Int) (handler : String) (frames : Nat) (modifier : Modifier)
  | resumed (label : Int) (handler : String) (frames : Nat)
  | returned (label : Int) (handler : String)
  | discarding (answer : String)
  | discardingFor (command : String)
  | fatal (fault : Fault)
  | warning (w : SettingsWarning)
  /-- A remark of a client program. -/
  | note (level : Level) (message : String) (fields : List (String × String))
  deriving DecidableEq

namespace TraceEvent

/-- Severity, message and fields of a trace event. -/
def parts : TraceEvent → Level × String × List (String × String)
  | declared handler clauses =>
    (.debug, "declared handler", [("handler", handler), ("clauses", toString clauses)])
  | installed label handler =>
    (.trace, "install", [("label", toString label), ("handler", handler)])
  | invoked command label handler =>
    (.trace, "invoke", [("command", command), ("label", toString label), ("handler", handler)])
  | captured label handler frames modifier =>
    (.trace, "capture", [("label", toString label), ("handler", handler),
      ("frames", toString frames), ("modifier", modifier.name)])
  | resumed label handler frames =>
    (.trace, "resume",
      [("label", toString label), ("handler", handler), ("frames", toString frames)])
  | returned label handler => (.trace, "return", [("label", toString label), ("handler", handler)])
  | discarding answer => (.trace, "discarding continuation", [("answer", answer)])
  | discardingFor command =>
    (.trace, "discarding continuation for no_resume clause", [("command", command)])
  | fatal fault => (.error, "fatal effect runtime error", [("error", fault.message)])
  | warning w => (.warn, w.message, [])
  | note level message fields => (level, message, fields)

/-- A trace event as text: severity, message, then each field as `name=value`. -/
def render (e : TraceEvent) : String :=
  let (level, message, fields) := e.parts
  " ".intercalate (level.word :: message :: fields.map fun f => f.1 ++ "=" ++ f.2)

end TraceEvent

/-- What goes into the journal when something is dropped. -/
inductive Notice where
  | guardDropped (name : String)
  | commandDropped (tag : String)
  | handlerDropped (name : String)
  deriving DecidableEq

/-- One entry of the journal. -/
inductive Event where
  | text (s : String)
  /-- The notice of a guard that was left or unwound. -/
  | guardDropped (name : String)
  | commandDropped (tag : String)
  | handlerDropped (name : String)
  /-- Label and name of each live installation, top first. -/
  | snapshot (installations : List (Int × String))
  | lines (ls : List String)
  | tally (t : Tally)
  /-- What a reference to an installation shows of it. -/
  | reference (label : Int) (name : String) (installed : Bool)
  | trace (e : TraceEvent)
  deriving DecidableEq

/-- The journal entry of a notice. -/
def Notice.event : Notice → Event
  | guardDropped name => .guardDropped name
  | commandDropped tag => .commandDropped tag
  | handlerDropped name => .handlerDropped name

end EffectHandlers
