import EffectHandlers.Client.Library
import EffectHandlers.Script.Expr
/-!
# The tables of a script

What scripts keep under names that all their code shares lies in tables, one for each kind of
thing, whose entries are kept in the order of their names. What belongs to running code alone lies
in the cell of its scope.
-/

namespace EffectHandlers.Script

/-! ### Tables -/

/-- The kinds of things that scripts keep under names. -/
inductive Kind where
  | globals
  | slots
  | queues
  | continuations
  | generators
  | shares
  | references
  /-- Resumptions that nothing discards. -/
  | free
  | mailboxes
  | futures
  | sinks
  | tracked
  deriving DecidableEq

/-- All kinds, in the order of the cells of their tables. -/
def Kind.all : List Kind :=
  [.globals, .slots, .queues, .continuations, .generators, .shares, .references, .free,
    .mailboxes, .futures, .sinks, .tracked]

/-- The cell of the table of a kind, behind the cells of the client programs. -/
def Kind.cell (k : Kind) : CellId := Client.cells.length + 1 + Kind.all.idxOf k

/-- What the cells of a fresh thread hold. -/
def cells : List Content := Client.cells ++ Kind.all.map fun _ => .table []

/-- What is released when a fault ends a script: all but the resumptions that nothing discards. -/
def statics : List Owned :=
  (((List.range cells.length).map (· + 1)).filter (· != Kind.free.cell)).map .cell

namespace Table

/-- All entries of a table, in the order of their names. -/
def entries (k : Kind) : Task (List (String × Value)) := do
  match ← Prog.read k.cell with
  | .table es => return es
  | _ => return []

/-- The entry under a name. -/
def find? (k : Kind) (name : String) : Task (Option Value) := do
  return (← entries k).lookup name

/-- Entries with one more, in the order of their names; it replaces one of the same name. -/
def insert (name : String) (v : Value) : List (String × Value) → List (String × Value)
  | [] => [(name, v)]
  | e :: rest =>
    if name < e.1 then (name, v) :: e :: rest
    else if name = e.1 then (name, v) :: rest
    else e :: insert name v rest

/-- Replace an entry; the result is what was there before. -/
def exchange (k : Kind) (name : String) (v : Value) : Task (Option Value) := do
  let es ← entries k
  Prog.write k.cell (.table (insert name v es))
  return es.lookup name

/-- Put an entry and release the one it replaces. -/
def put (k : Kind) (name : String) (v : Value) : Task Unit := do
  match ← exchange k name v with
  | some old => Prog.release old.owned
  | none => return ()

/-- Take an entry out. -/
def take (k : Kind) (name : String) : Task (Option Value) := do
  let es ← entries k
  Prog.write k.cell (.table (es.filter (·.1 != name)))
  return es.lookup name

/-- Take an entry out and release it. -/
def remove (k : Kind) (name : String) : Task Unit := do
  match ← take k name with
  | some old => Prog.release old.owned
  | none => return ()

/-- The cell under a name, made with this content if there is none. -/
def cellOrMake (k : Kind) (name : String) (content : Content) : Task CellId := do
  match ← find? k name with
  | some (.cell c) => return c
  | _ =>
    let c ← Prog.alloc content
    put k name (.cell c)
    return c

/-- The cell under a name, with a share of it for the caller. -/
def sharedCell? (k : Kind) (name : String) : Task (Option CellId) := do
  match ← find? k name with
  | some (.cell c) =>
    Prog.retain (.cell c)
    return some c
  | _ => return none

end Table

/-! ### Scopes -/

namespace Scopes

/-- The scope in a cell. -/
def read (s : CellId) : Task Scope := do
  match ← Prog.read s with
  | .scope x => return x
  | _ => return {}

/-- Replace the scope in a cell. -/
def write (s : CellId) (x : Scope) : Task Unit := Prog.write s (.scope x)

/-- The value of a variable. -/
def get (s : CellId) (x : String) : Task Int := do return ((← read s).vars.lookup x).getD 0

/-- Set a variable. -/
def set (s : CellId) (x : String) (n : Int) : Task Unit := do
  let scope ← read s
  write s { scope with vars := (x, n) :: scope.vars.filter (·.1 != x) }

/-- Set a variable to a value if there is one, and tell in `some` whether there is. -/
def setFound (s : CellId) (found : Option Value) : Task Int := do
  match found with
  | some v =>
    set s "some" 1
    return v.toInt
  | none =>
    set s "some" 0
    return -1

/-- A scope for code that is made here and runs later: a copy without the resumption. -/
def copy (s : CellId) : Task CellId := do
  let scope := { ← read s with resumption := emptyResumption }
  Prog.retainAll scope.owned
  Prog.alloc (.scope scope)

/-- A scope for a function: a copy with the argument as its only variable. -/
def forCall (s : CellId) (arg : Int) : Task CellId := do
  let inner ← copy s
  write inner { ← read inner with vars := [("arg", arg)] }
  return inner

/-- A scope for a clause of a handler instance. -/
def forClause (handler : CellId) (arg : Value) (r : ResumptionId) : Task CellId := do
  let state ← match ← Prog.read handler with
    | .handler _ state => do
      Prog.retain (.cell state)
      pure (some state)
    | _ => pure none
  Prog.alloc (.scope { vars := [("arg", arg.toInt)], state, resumption := r })

/-- Give a scope a share of a mailbox. -/
def setMailbox (s : CellId) (m : Mailbox) : Task Unit := do
  Prog.retainAll m.owned
  let scope ← read s
  write s { scope with mailbox := some m }
  Prog.release ((scope.mailbox.map Mailbox.owned).getD [])

end Scopes

/-! ### Slots -/

namespace Slot

/-- The resumption in a slot. -/
def peek (s : CellId) : Slot → Task ResumptionId
  | .own => do return (← Scopes.read s).resumption
  | .named name => do
    match ← Table.find? .slots name with
    | some (.resumption r) => return r
    | _ => return emptyResumption

/-- Move the resumption out of a slot. -/
def take (s : CellId) (slot : Slot) : Task ResumptionId := do Prog.take (← slot.peek s)

/-- Put a resumption into a slot and discard the one that was there. -/
def store (s : CellId) (slot : Slot) (r : ResumptionId) : Task Unit := do
  match slot with
  | .own =>
    let scope ← Scopes.read s
    Scopes.write s { scope with resumption := r }
    Prog.release [.resumption scope.resumption]
  | .named name => Table.put .slots name (.resumption r)

end Slot

/-! ### Handler instances -/

/-- A new instance of a handler type. -/
def newInstance (name : Option String) (state : Int) : Task CellId := do
  Prog.alloc (.handler name (← Prog.alloc (.value (.int state))))

/-- The instance that a specification asks for; the caller gets a share of it. -/
def instanceFor (spec : Spec) (state : Int) : Task CellId := do
  match spec.share with
  | none => newInstance spec.name state
  | some share =>
    match ← Table.sharedCell? .shares share with
    | some c => return c
    | none =>
      let c ← newInstance spec.name state
      Prog.retain (.cell c)
      Table.put .shares share (.cell c)
      return c

/-! ### The end of a script -/

namespace Table

/-- Release everything in a table, each entry behind a notice. -/
def tearDown (k : Kind) (word : String) : Task Unit := do
  let es ← entries k
  Prog.write k.cell (.table [])
  Prog.forEach
    (fun (name, v) => do
      Prog.log ("teardown " ++ word ++ " " ++ name)
      Prog.release v.owned)
    es

end Table

/-- Discard what is in the slots, the valid resumptions behind a notice. -/
def tearDownSlots : Task Unit := do
  let es ← Table.entries .slots
  Prog.write Kind.slots.cell (.table [])
  Prog.forEach
    (fun (name, v) => do
      match v with
      | .resumption r =>
        if (← Prog.ask (.isValid r)).isTrue then
          Prog.log ("teardown slot " ++ name)
        Prog.release [.resumption r]
      | _ => return ())
    es

/-- Discard what is in the queues, from their fronts, each resumption behind a notice. -/
def tearDownQueues : Task Unit := do
  let es ← Table.entries .queues
  Prog.forEach
    (fun (name, v) => do
      match v with
      | .cell queue =>
        let queued ← Task.readList queue
        Prog.write queue (.list [])
        Prog.forEach
          (fun v => do
            Prog.log ("teardown queue " ++ name)
            Prog.release v.owned)
          queued
      | _ => return ())
    es

/-- Discard what a script has left behind. -/
def tearDown : Task Unit := do
  tearDownSlots
  tearDownQueues
  Table.tearDown .continuations "k"
  Table.tearDown .generators "generator"
  Table.tearDown .shares "share"
  Table.tearDown .references "ref"

end EffectHandlers.Script
