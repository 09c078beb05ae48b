import EffectHandlers.Computation.Prog
import EffectHandlers.Random.Draws
/-!
# What client programs keep in cells

Client programs share texts, numbers, queues and tables, and the states of their schedulers. The
cells that belong to a thread as a whole have fixed numbers; all others are made as needed.
-/

namespace EffectHandlers

/-- The address of an actor. -/
structure Mailbox where
  /-- The cell of the actor's pool. -/
  pool : CellId
  /-- The cell of the messages that were not received yet. -/
  inbox : CellId
  /-- The cell of the flag that tells whether the actor waits for mail. -/
  waiting : CellId
  deriving DecidableEq

namespace Mailbox

/-- What an address owns. -/
def owned (m : Mailbox) : List Owned := [.cell m.pool, .cell m.inbox, .cell m.waiting]

/-- An address as a value that can be sent. -/
def toValue (m : Mailbox) : Value := .pair (.cell m.pool) (.pair (.cell m.inbox) (.cell m.waiting))

/-- The address that a value stands for. -/
def ofValue? : Value → Option Mailbox
  | .pair (.cell pool) (.pair (.cell inbox) (.cell waiting)) => some ⟨pool, inbox, waiting⟩
  | _ => none

end Mailbox

/-- An actor that gave up control. -/
structure ParkedActor where
  waiting : CellId
  resumption : ResumptionId
  deriving DecidableEq

/-- What a parked actor owns. -/
def ParkedActor.owned (a : ParkedActor) : List Owned := [.cell a.waiting, .resumption a.resumption]

/-- The actors of one scheduler. -/
structure ActorPool where
  /-- The label of the installations its actors run under. -/
  label : Int
  /-- The flag of the running actor. -/
  current : CellId
  /-- The parked actors, the one that was parked first at the head. -/
  active : List ParkedActor := []
  /-- How many actors waited for mail when none could go on. -/
  deadlock : Option Nat := none
  deriving DecidableEq

/-- The result of a computation that may still be running. -/
structure Future where
  value : Option Value := none
  /-- The computations that wait for the result. -/
  waiting : List ResumptionId := []
  deriving DecidableEq

/-- The variables of running script code, and what it can refer to without a name. -/
structure Scope where
  vars : List (String × Int) := []
  /-- The cell of the handler instance's state. -/
  state : Option CellId := none
  /-- The resumption that belongs to this scope. -/
  resumption : ResumptionId := emptyResumption
  mailbox : Option Mailbox := none
  /-- The label that the surrounding generator yields to. -/
  generator : Option Int := none
  deriving DecidableEq

/-- What a scope owns. -/
def Scope.owned (s : Scope) : List Owned :=
  .resumption s.resumption :: ((s.state.map Owned.cell).toList
    ++ (s.mailbox.map Mailbox.owned).getD [])

/-- What a cell holds. -/
inductive Content where
  | value (v : Value)
  /-- A queue, its front at the head. -/
  | list (vs : List Value)
  | table (entries : List (String × Value))
  | pool (p : ActorPool)
  | future (f : Future)
  | draws (d : Option Draws)
  | scope (s : Scope)
  /-- A script's handler instance: the name it is dropped under, and the cell of its state. -/
  | handler (name : Option String) (state : CellId)
  deriving DecidableEq

instance : Inhabited Content := ⟨.value .unit⟩

namespace Content

/-- What a content owns, in the order in which it is released. -/
def owned : Content → List Owned
  | value v => v.owned
  | list vs => vs.flatMap Value.owned
  | table entries => entries.flatMap fun e => e.2.owned
  | pool p => .cell p.current :: p.active.flatMap ParkedActor.owned
  | future f => (f.value.map Value.owned).getD [] ++ f.waiting.map .resumption
  | draws _ => []
  | scope s => s.owned
  | handler name state =>
    (name.map fun n => Owned.notice (.handlerDropped n)).toList ++ [.cell state]

instance : Contents Content := { owned }

end Content

/-- A program that shares cells of such contents. -/
abbrev Task (α : Type) : Type := Prog Content α

namespace Task

/-- The value in a cell. -/
def readValue (c : CellId) : Task Value := do
  match ← Prog.read c with
  | .value v => return v
  | _ => return .unit

/-- The number in a cell. -/
def readInt (c : CellId) : Task Int := do return (← readValue c).toInt

/-- The text in a cell. -/
def readText (c : CellId) : Task String := do return (← readValue c).toText

/-- The queue in a cell. -/
def readList (c : CellId) : Task (List Value) := do
  match ← Prog.read c with
  | .list vs => return vs
  | _ => return []

/-- Replace the value in a cell. -/
def writeValue (c : CellId) (v : Value) : Task Unit := Prog.write c (.value v)

/-- Replace the number in a cell. -/
def writeInt (c : CellId) (n : Int) : Task Unit := writeValue c (.int n)

/-- Replace the text in a cell. -/
def writeText (c : CellId) (s : String) : Task Unit := writeValue c (.text s)

/-- Put a value at the back of a queue. -/
def pushBack (c : CellId) (v : Value) : Task Unit := do
  Prog.write c (.list ((← readList c) ++ [v]))

/-- Take the value at the front of a queue. -/
def popFront (c : CellId) : Task (Option Value) := do
  match ← readList c with
  | [] => return none
  | v :: rest =>
    Prog.write c (.list rest)
    return some v

end Task

end EffectHandlers
