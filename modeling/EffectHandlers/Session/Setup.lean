import EffectHandlers.Chain.Listing
import EffectHandlers.Fiber.Pool
import EffectHandlers.Report.Diagnostics
/-!
# Set-up sessions

A session changes the environment of a process, sets and reads its settings, makes fibers and
asks for reports, in any order.
-/

namespace EffectHandlers.SetupSession

/-- One step of a session. -/
inductive Action where
  | configure (stackSize poolCapacity : Nat)
  /-- The settings in use. -/
  | settings
  | standard
  /-- The settings the environment asks for now. -/
  | ofEnvironment
  /-- Change the environment: a variable that is not given is unset. -/
  | setEnvironment (env : Environment)
  | bump (counter : Counter) (n : Nat)
  | bumpElsewhere (counter : Counter) (n : Nat)
  /-- Make so many fibers with nothing to do, then run each that was made to its end. -/
  | fibers (n : Nat)
  | push (label : Int) (name : String)
  | report
  | dumpReport
  | dumpChain

/-- What a session logs. -/
inductive Entry where
  | none
  | ok
  | failed (fault : Fault)
  | settings (s : Settings)
  | count (n : Nat)
  | lines (ls : List String)
  | warning (w : SettingsWarning)

/-- A process as far as a session can see it. -/
structure State where
  pool : StackPool := {}
  thread : Tally := {}
  elsewhere : Tally := {}
  chain : Chain := Chain.initial
  /-- Lines written to standard error. -/
  errors : List String := []

namespace State

/-- The settings in use, and the warnings of deciding on them now. -/
def useSettings (s : State) : Settings × State × List Entry :=
  let (settings, slot, warnings) := s.pool.settings.use
  (settings, { s with pool := { s.pool with settings := slot } }, warnings.map .warning)

/-- The report, and the warnings of deciding on the settings now. -/
def report (s : State) : List String × State × List Entry :=
  let (settings, s, warnings) := s.useSettings
  (Report.lines (s.thread.plus s.elsewhere) s.thread settings s.chain.listing, s, warnings)

/-- Make one fiber. -/
def makeFiber (s : State) : State × List Entry :=
  let (outcome, pool, warnings) := s.pool.acquire
  let thread := match outcome with
    | .reused => (s.thread.bump .stacksReused).bump .fibersCreated
    | .fresh => s.thread.bump .fibersCreated
    | .failed _ => s.thread
  ({ s with pool, thread }, warnings.map .warning)

/-- Let one fiber finish. -/
def finishFiber (s : State) : State × List Entry :=
  let (pool, warnings) := s.pool.giveBack
  ({ s with pool }, warnings.map .warning)

/-- Do something so many times, collecting what it logs. -/
def times (f : State → State × List Entry) : Nat → State → State × List Entry
  | 0, s => (s, [])
  | n + 1, s =>
    let (s, es) := f s
    let (s, later) := times f n s
    (s, es ++ later)

/-- One step of a session. -/
def step (s : State) : Action → State × List Entry
  | .configure stackSize poolCapacity =>
    match s.pool.settings.configure stackSize poolCapacity with
    | .ok slot => ({ s with pool := { s.pool with settings := slot } }, [.ok])
    | .error fault => (s, [.failed fault])
  | .settings =>
    let (settings, s, warnings) := s.useSettings
    (s, warnings ++ [.settings settings])
  | .standard => (s, [.settings Settings.standard])
  | .ofEnvironment =>
    let (settings, warnings) := Settings.ofEnvironment s.pool.settings.environment
    (s, warnings.map .warning ++ [.settings settings])
  | .setEnvironment environment =>
    ({ s with pool := { s.pool with settings := { s.pool.settings with environment } } }, [.none])
  | .bump c n => ({ s with thread := s.thread.add n c }, [.none])
  | .bumpElsewhere c n => ({ s with elsewhere := s.elsewhere.add n c }, [.none])
  | .fibers n =>
    let (all, made) := times makeFiber n s
    let (s, finished) := times finishFiber (all.thread.fibersCreated - s.thread.fibersCreated) all
    (s, made ++ finished ++ [.count s.pool.pooled])
  | .push label name =>
    let (id, chain) := s.chain.create { Installation.bottom with label, name }
    ({ s with chain := chain.push id }, [.none])
  | .report =>
    let (lines, s, warnings) := s.report
    (s, warnings ++ [.lines lines])
  | .dumpReport =>
    let (lines, s, warnings) := s.report
    ({ s with errors := s.errors ++ lines }, warnings ++ [.none])
  | .dumpChain => ({ s with errors := s.errors ++ s.chain.listing }, [.none])

/-- Run a session. -/
def run (s : State) : List Action → State × List Entry
  | [] => (s, [])
  | a :: rest =>
    let (s, es) := s.step a
    let (s, later) := s.run rest
    (s, es ++ later)

end State

end EffectHandlers.SetupSession
