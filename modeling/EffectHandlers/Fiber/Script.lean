import EffectHandlers.Fiber.Pool
import EffectHandlers.Fiber.Switch
/-!
# Fiber scripts

Scripts that create, resume, suspend and drop fibers directly, below the level of handlers. The
fibers a script works with stand in a table under numbers of its own choosing; a fiber is taken
out of the table while it runs.
-/

namespace EffectHandlers.FiberScript

/-- One action of a script. -/
inductive Action where
  /-- Make a fiber that runs a script, replacing one under the same number. -/
  | make (slot : Int) (script : List Action)
  | resume (slot : Int)
  /-- Park the running fiber with a request. -/
  | suspend (entry : Int) (command : String)
  /-- Park the running fiber with the request that a resume received last. -/
  | forward (command : String)
  | drop (slot : Int)
  | isFinished (slot : Int)
  | inFiber
  | pooled
  | tally
  | log (text : String)
  /-- Log the text when the script ends or is unwound. -/
  | guard (text : String)
  | panic (text : String)
  /-- End the script with a value. -/
  | ret (value : Int)

/-- What a run logs. -/
inductive Entry where
  | made
  | notMade (message : String)
  | suspended (slot entry : Int)
  | finished (slot value : Int)
  | missing (slot : Int)
  | dropped
  | flag (b : Option Bool)
  | count (n : Nat)
  | tally (t : Tally)
  | text (s : String)
  | guardDropped (text : String)
  | teardown (slot : Int)
  | warning (w : SettingsWarning)
  | fatal (fault : Fault)

/-- A script in progress. -/
structure Strand where
  rest : List Action
  /-- Guards, the one made first at the head. -/
  guards : List String := []
  /-- The value of the last fiber this script saw finish. -/
  last : Int := 0
  /-- The number the script's own resume took a fiber from, while it waits for it. -/
  waiting : Int := 0

/-- A fiber in the table: a parked one, or one that has finished. -/
inductive Slot where
  | parked (id : FiberId)
  | finished

/-- How a run ended. -/
inductive Outcome where
  | finished (value : Int)
  | panicked (message : String)
  | fatal (fault : Fault)

/-- The state of a run. -/
structure State where
  fibers : Fibers Strand := {}
  running : Strand
  table : List (Int × Slot) := []
  pool : StackPool := {}
  counters : Tally := {}
  lastEntry : Int := 0
  /-- Newest first. -/
  log : List Entry := []

namespace State

/-- Log an entry. -/
def record (s : State) (e : Entry) : State := { s with log := e :: s.log }

/-- Log the warnings about settings. -/
def warn (s : State) (ws : List SettingsWarning) : State :=
  ws.foldl (fun s w => s.record (.warning w)) s

/-- Log the guards of a strand that has ended. -/
def dropGuards (s : State) (t : Strand) : State :=
  t.guards.foldl (fun s g => s.record (.guardDropped g)) s

/-- Drop a fiber that was taken out of the table. -/
def dropSlot (s : State) : Option Slot → State
  | some (.parked id) =>
    match s.fibers.drop? id with
    | some (strand, fibers) => { s with fibers }.dropGuards strand
    | none => s
  | _ => s

/-- Put a fiber into the table and drop the one it replaces. -/
def place (s : State) (slot : Int) (f : Slot) : State :=
  let old := s.table.lookup slot
  { s with table := (slot, f) :: s.table.filter (·.1 != slot) }.dropSlot old

/-- Hand control to the latest resumer, which learns what became of its fiber. -/
def handBack (s : State) (resumer : Strand) (fibers : Fibers Strand) (f : Slot)
    (entry : Int → Entry) (last : Int) : State :=
  let s := { s with fibers, running := { resumer with last } }.record (entry resumer.waiting)
  s.place resumer.waiting f

/-- End the running script with a value: the thread's own script, or that of a fiber. -/
def finish (s : State) (value : Int) : Except Outcome State :=
  let s := s.dropGuards s.running
  match s.fibers.handBack? with
  | none => .error (.finished value)
  | some (resumer, fibers) =>
    let (pool, warnings) := s.pool.giveBack
    let s := { s with pool }.warn warnings
    .ok (s.handBack resumer fibers .finished (.finished · value) value)

/-- Unwind all scripts that are running or waiting. -/
def unwind (s : State) : State :=
  s.fibers.resumers.foldl (fun s r => s.dropGuards r.code) (s.dropGuards s.running)

/-- Park the running fiber. -/
def suspend (s : State) (entry : Int) (command : String) : Except Outcome State :=
  match s.fibers.current, s.fibers.suspend? s.running with
  | some id, some (resumer, fibers) =>
    .ok ({ s with lastEntry := entry }.handBack resumer fibers (.parked id)
      (.suspended · entry) resumer.last)
  | _, _ => .error (.fatal (.notInFiber command))

/-- Make a fiber and put it into the table. -/
def make (s : State) (slot : Int) (script : List Action) : Except (Outcome × State) State :=
  let (outcome, pool, warnings) := s.pool.acquire
  let s := { s with pool }.warn warnings
  match outcome with
  | .failed .outOfMemory => .ok (s.record (.notMade StackPool.outOfMemory.message))
  | .failed .overflow => .error (.panicked StackPool.sizeOverflow, s.unwind)
  | _ =>
    let counters := match outcome with
      | .reused => s.counters.bump .stacksReused
      | _ => s.counters
    let (id, fibers) := s.fibers.create { rest := script }
    let s := { s with fibers, counters := counters.bump .fibersCreated }
    .ok ((s.place slot (.parked id)).record .made)

/-- Resume the fiber in a slot, if there is one. -/
def resume (s : State) (slot : Int) : Except Outcome State :=
  match s.table.lookup slot with
  | none => .ok (s.record (.missing slot))
  | some .finished => .error (.fatal (.internal "resumed a finished fiber"))
  | some (.parked id) =>
    match s.fibers.resume? id { s.running with waiting := slot } with
    | none => .ok s
    | some (strand, fibers) =>
      .ok { s with fibers, running := strand, table := s.table.filter (·.1 != slot) }

/-- Do one action of the running script. -/
def act (s : State) : Action → Except (Outcome × State) State
  | .make slot script => s.make slot script
  | .resume slot => (s.resume slot).mapError (·, s)
  | .suspend entry command => (s.suspend entry command).mapError (·, s)
  | .forward command => (s.suspend s.lastEntry command).mapError (·, s)
  | .drop slot =>
    let old := s.table.lookup slot
    .ok (({ s with table := s.table.filter (·.1 != slot) }.dropSlot old).record .dropped)
  | .isFinished slot =>
    .ok (s.record (.flag ((s.table.lookup slot).map fun
      | .finished => true
      | .parked _ => false)))
  | .inFiber => .ok (s.record (.flag (some s.fibers.current.isSome)))
  | .pooled => .ok (s.record (.count s.pool.pooled))
  | .tally => .ok (s.record (.tally s.counters))
  | .log text => .ok (s.record (.text text))
  | .guard text => .ok { s with running := { s.running with guards := s.running.guards ++ [text] } }
  | .panic text => .error (.panicked text, s.unwind)
  | .ret value => (s.finish value).mapError (·, s.dropGuards s.running)

/-- One step: the next action of the running script, or its end. -/
def step (s : State) : Except (Outcome × State) State :=
  match s.running.rest with
  | [] => (s.finish s.running.last).mapError (·, s.dropGuards s.running)
  | a :: rest => { s with running := { s.running with rest } }.act a

/-- Run until an outcome, for at most this many steps. -/
def run : Nat → State → Outcome × State
  | 0, s => (.finished s.running.last, s)
  | n + 1, s =>
    match s.step with
    | .ok s => s.run n
    | .error r => r

/-- Drop the fibers left in the table, in the order of their numbers, each behind a notice. -/
def tearDown (s : State) (notice : Int → Option Entry) : State :=
  let left := s.table.mergeSort fun a b => a.1 ≤ b.1
  left.foldl
    (fun s e => (((notice e.1).map s.record).getD s).dropSlot (some e.2)) { s with table := [] }

end State

mutual

/-- How many steps an action can take, those of the fiber it makes included. -/
def Action.cost : Action → Nat
  | .make _ script => costs script + 2
  | _ => 1

/-- How many steps the actions of a script can take. -/
def costs : List Action → Nat
  | [] => 0
  | a :: rest => a.cost + costs rest

end

/-- Run a script on the native stack of a thread. Fibers left in the table are dropped when the
script ends, and when a fault ends the process; a panic leaves them alone. -/
def run (pool : StackPool) (script : List Action) : Outcome × State :=
  let (outcome, s) := State.run (costs script + 1) { running := { rest := script }, pool }
  match outcome with
  | .finished _ => (outcome, s.tearDown (some ∘ .teardown))
  | .fatal fault => (outcome, (s.record (.fatal fault)).tearDown fun _ => none)
  | .panicked _ => (outcome, s)

end EffectHandlers.FiberScript
