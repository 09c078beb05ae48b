import Mathlib.Data.List.Nodup
import Mathlib.Data.List.Range
import EffectHandlers.Client.Actor
import EffectHandlers.Proofs.Loops
/-!
# Rosters of actors

What the actors of a pool do, without handlers and continuations. An actor runs until it gives up
control; then it is parked behind the others, and the first parked actor goes on that does not wait
for mail. The roster keeps a history of every mailbox.
-/

namespace EffectHandlers.Actor

/-! ### What actors do -/

/-- What an actor does. -/
inductive Behaviour where
  /-- The end of a loop body, and outside of loops the end of the actor. -/
  | done (v : Value)
  | send (receiver : Mailbox) (message : Value) (next : Behaviour)
  | receive (next : Value → Behaviour)
  /-- A new actor owns what its body uses. -/
  | spawn (owned : List Owned) (body next : Mailbox → Behaviour)
  | yield (next : Behaviour)
  | loop (seed : Value) (body next : Value → Behaviour)
  | retain (o : Owned) (next : Behaviour)
  | release (os : List Owned) (next : Behaviour)
  | log (text : String) (next : Behaviour)

namespace Behaviour

/-- The program of an actor with this address. -/
def toTask (me : Mailbox) : Behaviour → Task Value
  | done v => return v
  | send receiver message next => do
    Actor.send receiver message
    next.toTask me
  | receive next => do (next (← Actor.receive me)).toTask me
  | spawn owned body next => do
    let child ← Actor.spawn me.pool owned fun child => (body child).toTask child
    (next child).toTask me
  | yield next => do
    Actor.yield me.pool
    next.toTask me
  | loop seed body next => do
    let v ← Prog.loop seed fun v => (body v).toTask me
    (next v).toTask me
  | retain o next => do
    Prog.retain o
    next.toTask me
  | release os next => do
    Prog.release os
    next.toTask me
  | log text next => do
    Prog.log text
    next.toTask me

end Behaviour

/-- A program that runs an actor and all actors that it adds to its pool. -/
def program (owned : List Owned) (main : Mailbox → Behaviour) : Comp Content :=
  (run owned fun me => (main me).toTask me).toComp

/-! ### Who does what -/

/-- How far an actor has got. -/
inductive Progress where
  /-- It has not started. -/
  | fresh (body : Behaviour)
  | acting (b : Behaviour) (loops : List (Loop Behaviour))
  /-- It looks for mail, and goes on with it. -/
  | polling (next : Value → Behaviour) (loops : List (Loop Behaviour))
  | ended

namespace Progress

/-- Whether an actor has ended. -/
def isEnded : Progress → Bool
  | ended => true
  | _ => false

/-- Whether an actor has started and has not ended. -/
def isStarted : Progress → Bool
  | acting .. | polling .. => true
  | _ => false

end Progress

/-- An actor with its mailbox. -/
structure Member where
  progress : Progress
  /-- The messages that were not received yet, the oldest at the head. -/
  inbox : List Value := []
  /-- The flag that tells whether the actor waits for mail. -/
  waiting : Bool := false
  /-- All messages that were ever sent to the actor. -/
  sent : List Value := []
  /-- All messages that the actor has received. -/
  received : List Value := []

namespace Member

/-- How an actor goes on. -/
def goOn (p : Progress) (a : Member) : Member := { a with progress := p }

/-- An actor that was chosen starts, if it has not started yet. -/
def start (a : Member) : Member :=
  match a.progress with
  | .fresh b => a.goOn (.acting b [])
  | _ => a

/-- An actor to whom a message is sent does not wait any more. -/
def rouse (a : Member) : Member := { a with waiting := false }

def push (message : Value) (a : Member) : Member :=
  { a with inbox := a.inbox ++ [message], sent := a.sent ++ [message] }

def wait (a : Member) : Member := { a with waiting := true }

/-- The oldest message is received. -/
def take (message : Value) (rest : List Value) (p : Progress) (a : Member) : Member :=
  { a with inbox := rest, received := a.received ++ [message], progress := p }

end Member

/-- What happens next in a pool. -/
inductive Phase where
  /-- An actor runs. -/
  | running (i : Nat)
  /-- An actor is sending a message, and the flag of the receiver is cleared already. -/
  | pushing (i : Nat) (receiver : Mailbox) (message : Value)
  /-- An actor gives up control. -/
  | parking (i : Nat)
  /-- Somebody must be found who gets control. -/
  | waking
  /-- Nobody is left who could go on. -/
  | ending
  | finished
  deriving DecidableEq

/-- All actors of a pool. -/
structure Roster where
  /-- The cell of the pool; the cells of the mailboxes follow it. -/
  pool : CellId
  /-- In the order in which they were added. -/
  members : List Member
  /-- The parked actors, the one that was parked first at the head. -/
  active : List Nat := []
  phase : Phase
  /-- How many actors waited for mail when none could go on. -/
  deadlock : Option Nat := none

/-- The first element that satisfies the test, and the others in their order. -/
def pick {α : Type} (p : α → Bool) : List α → Option (α × List α)
  | [] => none
  | a :: rest =>
    if p a then some (a, rest) else (pick p rest).map fun x => (x.1, a :: x.2)

namespace Roster

/-- The address of an actor. -/
def address (r : Roster) (i : Nat) : Mailbox := ⟨r.pool, r.pool + 1 + 2 * i, r.pool + 2 + 2 * i⟩

/-- The actor with an address. -/
def seat (r : Roster) (receiver : Mailbox) : Nat := (receiver.inbox - (r.pool + 1)) / 2

/-- The actor that has control. -/
def current (r : Roster) : Option Nat :=
  match r.phase with
  | .running i | .pushing i _ _ | .parking i => some i
  | _ => none

/-- Change an actor. -/
def modify (r : Roster) (i : Nat) (f : Member → Member) : Roster :=
  { r with members := r.members.modify i f }

/-- Put an actor that gives up control behind the others. -/
def park (r : Roster) (i : Nat) : Roster := { r with active := r.active ++ [i], phase := .waking }

/-- Whether an actor does not wait for mail. -/
def isReady (r : Roster) (i : Nat) : Bool :=
  match r.members[i]? with
  | some a => !a.waiting
  | none => false

/-- Give control to the first actor that does not wait for mail. If all wait, report a deadlock. -/
def wake (r : Roster) : Roster :=
  match pick r.isReady r.active with
  | some (i, others) => { r.modify i Member.start with active := others, phase := .running i }
  | none => { r with active := [], deadlock := some r.active.length, phase := .ending }

/-- The next action of an actor that runs. -/
def act (r : Roster) (i : Nat) (a : Member) : Roster :=
  match a.progress with
  | .acting b loops =>
    match b with
    | .done v =>
      match Loop.after v loops with
      | some (b', loops') => r.modify i (.goOn (.acting b' loops'))
      | none =>
        { r.modify i (.goOn .ended) with
          phase := if r.active.isEmpty then .ending else .waking }
    | .send receiver message next =>
      { (r.modify i (.goOn (.acting next loops))).modify (r.seat receiver) .rouse with
        phase := .pushing i receiver message }
    | .receive next => r.modify i (.goOn (.polling next loops))
    | .spawn _ body next =>
      let child := r.members.length
      { r.modify i (.goOn (.acting (next (r.address child)) loops)) with
        members := (r.members.modify i (.goOn (.acting (next (r.address child)) loops))) ++
          [{ progress := .fresh (body (r.address child)) }]
        active := r.active ++ [child] }
    | .yield next => (r.modify i (.goOn (.acting next loops))).park i
    | .loop seed body next => r.modify i (.goOn (.acting (body seed) (⟨body, next⟩ :: loops)))
    | .retain _ next | .release _ next | .log _ next => r.modify i (.goOn (.acting next loops))
  | .polling next loops =>
    match a.inbox with
    | message :: rest => r.modify i (.take message rest (.acting (next message) loops))
    | [] => { r.modify i .wait with phase := .parking i }
  | _ => r

/-- What happens next. -/
def step (r : Roster) : Roster :=
  match r.phase with
  | .running i =>
    match r.members[i]? with
    | some a => r.act i a
    | none => r
  | .pushing i receiver message => { r.modify (r.seat receiver) (.push message) with phase := .parking i }
  | .parking i => r.park i
  | .waking => r.wake
  | .ending => { r with phase := .finished }
  | .finished => r

/-- A pool with its first actor. -/
def start (pool : CellId) (main : Mailbox → Behaviour) : Roster where
  pool
  members := [{ progress := .acting (main ⟨pool, pool + 1, pool + 2⟩) [] }]
  phase := .running 0

/-- What has become of a pool after so many steps. -/
def run (r : Roster) (t : Nat) : Roster := step^[t] r

/-- The actors that have not ended. -/
def unfinished (r : Roster) : List Nat :=
  (List.range r.members.length).filter fun i => (r.members[i]?).any fun a => !a.progress.isEnded

/-- The address of a message that is sent now was handed out before. -/
def Addressed (r : Roster) : Prop :=
  ∀ i a receiver message next loops, r.phase = .running i → r.members[i]? = some a →
    a.progress = .acting (.send receiver message next) loops →
      ∃ j < r.members.length, receiver = r.address j

end Roster

end EffectHandlers.Actor
