import EffectHandlers.Client.Promise
import EffectHandlers.Proofs.Loops
/-!
# Agendas of computations

What queued computations do, without handlers and continuations. A computation runs until it gives up
control, awaits a result that is not there, or ends; then one that is picked from the queue goes
on. Picks may come from anywhere: from the random numbers of a seed, or from any other sequence.
-/

namespace EffectHandlers.Promise

/-! ### Picks -/

/-- A way to pick one of so many. -/
structure Chooser where
  State : Type
  choose : Nat → State → Nat × State
  lt : ∀ {n} (c : State), 0 < n → (choose n c).1 < n

/-- The picks of a sequence, each up to a multiple of the number of those that can be picked. -/
def Chooser.listed (picks : Nat → Nat) : Chooser where
  State := Nat
  choose n k := (picks k % n, k + 1)
  lt _ hn := Nat.mod_lt _ hn

/-! ### What computations do -/

/-- A result type whose handler a library knows. -/
def Known (Γ : Library Content) : Type :=
  { result : String // Γ.handlerType (handlerName result) = handler }

/-- What a computation does. -/
inductive Routine (Γ : Library Content) where
  /-- The end of a block, and outside of blocks the end of the computation. -/
  | done (v : Value)
  /-- A new computation owns what its body uses. -/
  | spawn (result : Known Γ) (owned : List Owned) (body : Routine Γ) (next : CellId → Routine Γ)
  | yield (next : Routine Γ)
  | await (future : CellId) (next : Option Value → Routine Γ)
  | value (future : CellId) (next : Option Value → Routine Γ)
  | loop (seed : Value) (body next : Value → Routine Γ)
  | scope (owned : List Owned) (body : Routine Γ) (next : Value → Routine Γ)
  | retain (o : Owned) (next : Routine Γ)
  | release (os : List Owned) (next : Routine Γ)
  | log (text : String) (next : Routine Γ)
  | emit (text : String) (next : Routine Γ)

namespace Routine

variable {Γ : Library Content}

/-- The program of a computation. -/
def toTask : Routine Γ → Task Value
  | done v => return v
  | spawn result owned body next => do
    let future ← Promise.spawn result.1 owned body.toTask
    (next future).toTask
  | yield next => do
    Promise.yield
    next.toTask
  | await future next => do (next (← Promise.await future)).toTask
  | value future next => do (next (← Promise.value future)).toTask
  | loop seed body next => do
    let v ← Prog.loop seed fun v => (body v).toTask
    (next v).toTask
  | scope owned body next => do
    let v ← Prog.scope owned body.toTask
    (next v).toTask
  | retain o next => do
    Prog.retain o
    next.toTask
  | release os next => do
    Prog.release os
    next.toTask
  | log text next => do
    Prog.log text
    next.toTask
  | emit text next => do
    Transcript.emit text
    next.toTask

/-- Ask whether a computation has ended. -/
def isReady (future : CellId) (next : Bool → Routine Γ) : Routine Γ :=
  value future fun x => next x.isSome

end Routine

/-- A program that runs a computation and all that it queues. -/
def program {Γ : Library Content} (result : Known Γ) (seed : Nat) (main : Routine Γ) :
    Comp Content :=
  (run result.1 seed main.toTask).toComp

/-! ### Who does what -/

/-- How far a computation has got. -/
inductive Progress (Γ : Library Content) where
  /-- It has not started. -/
  | fresh (body : Routine Γ)
  | acting (b : Routine Γ) (blocks : List (Block (Routine Γ)))
  /-- It is about to look at the result that it awaits, or has to wait for it. -/
  | awaiting (future : CellId) (next : Option Value → Routine Γ) (blocks : List (Block (Routine Γ)))
  | ended (v : Value)

namespace Progress

variable {Γ : Library Content}

/-- What a computation has returned, if it has ended. -/
def value? : Progress Γ → Option Value
  | ended v => some v
  | _ => none

/-- Whether a computation has started and has not ended. -/
def isStarted : Progress Γ → Bool
  | acting .. | awaiting .. => true
  | _ => false

/-- Whether a computation has not started. -/
def isFresh : Progress Γ → Bool
  | fresh _ => true
  | _ => false

end Progress

/-- A computation with its future. -/
structure Job (Γ : Library Content) where
  /-- The cell of the future. -/
  future : CellId
  progress : Progress Γ
  /-- The computations that wait for the result. -/
  waiters : List Nat := []
  /-- How often the computation was started. -/
  starts : Nat := 0

namespace Job

variable {Γ : Library Content}

/-- How a computation goes on. -/
def goOn (p : Progress Γ) (a : Job Γ) : Job Γ := { a with progress := p }

/-- A computation that was picked starts, if it has not started yet. -/
def start (a : Job Γ) : Job Γ :=
  match a.progress with
  | .fresh b => { a with progress := .acting b [], starts := a.starts + 1 }
  | _ => a

/-- Another computation waits for the result. -/
def await (i : Nat) (a : Job Γ) : Job Γ := { a with waiters := a.waiters ++ [i] }

/-- The result is there, and nobody waits for it any more. -/
def finish (v : Value) (a : Job Γ) : Job Γ := { a with progress := .ended v, waiters := [] }

end Job

/-- What happens next. -/
inductive Phase where
  /-- A computation runs. -/
  | running (i : Nat)
  /-- A computation has ended. Those who waited for it are in the queue, and its future does not say
  so yet. -/
  | settling (i : Nat) (waiters : List Nat)
  /-- A computation of the queue is to go on. -/
  | waking
  /-- The queue is empty. -/
  | ending
  | finished
  deriving DecidableEq

/-- All computations, and how they take turns. -/
structure Agenda (Γ : Library Content) (χ : Chooser) where
  /-- In the order in which they were queued first. -/
  jobs : List (Job Γ)
  queue : List Nat := []
  choices : χ.State
  /-- The next cell to be made. -/
  nextCell : CellId
  phase : Phase

namespace Agenda

variable {Γ : Library Content} {χ : Chooser}

/-- Change a computation. -/
def modify (r : Agenda Γ χ) (i : Nat) (f : Job Γ → Job Γ) : Agenda Γ χ :=
  { r with jobs := r.jobs.modify i f }

/-- The computation with this future. -/
def seat? (r : Agenda Γ χ) (future : CellId) : Option Nat :=
  r.jobs.findIdx? fun a => a.future == future

/-- The result that a future has. -/
def value? (r : Agenda Γ χ) (future : CellId) : Option Value := do
  let a ← r.jobs[← r.seat? future]?
  a.progress.value?

/-- All places where computations are parked. -/
def places (r : Agenda Γ χ) : List Nat := r.queue ++ r.jobs.flatMap Job.waiters

/-- Let a computation go on that was picked from the queue, if there is one. -/
def wake (r : Agenda Γ χ) : Agenda Γ χ :=
  let (k, choices) := χ.choose r.queue.length r.choices
  match r.queue[k]? with
  | none => { r with phase := .ending }
  | some j =>
    { r.modify j Job.start with
      queue := r.queue.eraseIdx k
      choices
      -- a computation that starts gets a cell for its handler
      nextCell := if (r.jobs[j]?).any (·.progress.isFresh) then r.nextCell + 1 else r.nextCell
      phase := .running j }

/-- The next action of a computation that runs. -/
def act (r : Agenda Γ χ) (i : Nat) (a : Job Γ) : Agenda Γ χ :=
  match a.progress with
  | .acting b blocks =>
    match b with
    | .done v =>
      match Block.after v blocks with
      | some (b', blocks') => r.modify i (.goOn (.acting b' blocks'))
      | none =>
        { r.modify i (.finish v) with
          queue := r.queue ++ a.waiters, phase := .settling i a.waiters }
    | .spawn _ _ body next =>
      { r with
        jobs := (r.jobs.modify i (.goOn (.acting (next r.nextCell) blocks))) ++
          [{ future := r.nextCell, progress := .fresh body }]
        queue := r.queue ++ [r.jobs.length]
        nextCell := r.nextCell + 1 }
    | .yield next =>
      { r.modify i (.goOn (.acting next blocks)) with queue := r.queue ++ [i], phase := .waking }
    | .await future next =>
      match r.seat? future, r.value? future with
      | none, _ => r
      | some _, some _ => r.modify i (.goOn (.awaiting future next blocks))
      | some j, none =>
        { (r.modify i (.goOn (.awaiting future next blocks))).modify j (.await i) with
          phase := .waking }
    | .value future next => r.modify i (.goOn (.acting (next (r.value? future)) blocks))
    | .loop seed body next => r.modify i (.goOn (.acting (body seed) (.loop ⟨body, next⟩ :: blocks)))
    | .scope _ body next => r.modify i (.goOn (.acting body (.scope next :: blocks)))
    | .retain _ next | .release _ next | .log _ next | .emit _ next =>
      r.modify i (.goOn (.acting next blocks))
  | .awaiting future next blocks => r.modify i (.goOn (.acting (next (r.value? future)) blocks))
  | _ => r

/-- What happens next. -/
def step (r : Agenda Γ χ) : Agenda Γ χ :=
  match r.phase with
  | .running i =>
    match r.jobs[i]? with
    | some a => r.act i a
    | none => r
  | .settling .. => { r with phase := .waking }
  | .waking => r.wake
  | .ending => { r with phase := .finished }
  | .finished => r

/-- The main computation alone, whose future is in this cell. -/
def start (choices : χ.State) (first : CellId) (main : Routine Γ) : Agenda Γ χ where
  jobs := [{ future := first, progress := .acting main [], starts := 1 }]
  choices
  nextCell := first + 2
  phase := .running 0

/-- What has become of an agenda after so many steps. -/
def run (r : Agenda Γ χ) (t : Nat) : Agenda Γ χ := step^[t] r

/-- The future that is looked at now was handed out before. -/
def Addressed (r : Agenda Γ χ) : Prop :=
  ∀ i a, r.phase = .running i → r.jobs[i]? = some a → ∀ future next blocks,
    (a.progress = .acting (.await future next) blocks ∨
      a.progress = .acting (.value future next) blocks) → (r.seat? future).isSome

end Agenda

end EffectHandlers.Promise
