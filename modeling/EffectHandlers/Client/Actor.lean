import EffectHandlers.Client.Transcript
/-!
# Actors

Every actor has a mailbox. Sending gives up control; receiving from an empty mailbox parks the
actor until somebody sends it mail. The actors of one pool run under installations of one shared
handler, which all have the label of the pool. When control is given up it goes to the actor that
was parked first among those that do not wait for mail.
-/

namespace EffectHandlers.Actor

/-- The name of the command that gives up control. -/
def yieldCommand : String := "oneshot_demos::actors::Yield"

/-- The name of the command that adds an actor to the pool. -/
def forkCommand : String := "oneshot_demos::actors::Fork"

/-- The name of the handler that actors run under. -/
def handlerName : String := "oneshot_demos::actors::Scheduler"

/-- The pool in a cell. -/
def readPool (c : CellId) : Task ActorPool := do
  match ← Prog.read c with
  | .pool p => return p
  | _ => return { label := 0, current := 0 }

/-- Replace the pool in a cell. -/
def writePool (c : CellId) (p : ActorPool) : Task Unit := Prog.write c (.pool p)

/-- The text that reports a deadlock. -/
def deadlockText (parked : Nat) : String :=
  "deadlock detected (" ++ toString parked ++ " actors waiting for mail)"

/-- The first actor that does not wait for mail, and the others in their order. -/
def firstReady : List ParkedActor → Task (Option (ParkedActor × List ParkedActor))
  | [] => return none
  | a :: rest => do
    if (← Task.readValue a.waiting).isTrue then
      match ← firstReady rest with
      | none => return none
      | some (found, others) => return some (found, a :: others)
    else
      return some (a, rest)

/-- Give control to the first actor that does not wait for mail. If all wait, nobody will ever
send mail again: the pool is in deadlock, and its actors are discarded. -/
def wake (pool : CellId) : Task Value := do
  let p ← readPool pool
  match ← firstReady p.active with
  | some (next, others) =>
    writePool pool { p with active := others, current := next.waiting }
    Prog.release [.cell p.current]
    Prog.tail next.resumption .unit
  | none =>
    let parked := p.active.length
    writePool pool { p with active := [], deadlock := some parked }
    Prog.note .warn "actors deadlocked" [("parked", toString parked)]
    Prog.release (p.active.flatMap ParkedActor.owned)
    return .unit

/-- Park an actor behind the others. -/
def park (pool : CellId) (a : ParkedActor) : Task Unit := do
  let p ← readPool pool
  writePool pool { p with active := p.active ++ [a] }

/-- The handler that actors run under; its cell is the pool. -/
def handler : HandlerType Content where
  answer := "()"
  clauses :=
    [ { command := yieldCommand
        code := .resumptive fun pool _ r => Prog.toComp do
          let waiting := (← readPool pool).current
          Prog.retain (.cell waiting)
          park pool ⟨waiting, ← Prog.take r⟩
          wake pool },
      { command := forkCommand
        code := .resumptive fun pool v r => Prog.toComp do
          match v with
          | .pair (.cell waiting) (.closure start) =>
            Prog.retain (.cell waiting)
            park pool ⟨waiting, ← Prog.function "()" start⟩
            Prog.tail r .unit
          | _ => Prog.tail r .unit } ]
  onReturn pool _ := Prog.toComp do
    if (← readPool pool).active.isEmpty then return .unit
    else wake pool

/-- The address of a new actor of a pool. -/
def newMailbox (pool : CellId) : Task Mailbox := do
  Prog.retain (.cell pool)
  let inbox ← Prog.alloc (.list [])
  let waiting ← Prog.alloc (.value (.bool false))
  return { pool, inbox, waiting }

/-- Make the actor with this flag the running one and run its body. A share of the flag goes over
to the pool. -/
def start (pool waiting : CellId) (owned : List Owned) (body : Task Value) : Task Value := do
  let p ← readPool pool
  writePool pool { p with current := waiting }
  Prog.release [.cell p.current]
  Prog.retain (.cell pool)
  Prog.handle { handlerType := handlerName, label := some p.label, handler := pool, owned }
    fun _ => body

/-- Run an actor and all actors that it adds to its pool, until they have ended or all wait for
mail. The result is `present` with the number of waiting actors if any are left. -/
def run (owned : List Owned) (main : Mailbox → Task Value) : Task Value := do
  let label := (← Prog.ask .freshLabel).toInt
  let current ← Prog.alloc (.value (.bool false))
  let pool ← Prog.alloc (.pool { label, current })
  let me ← newMailbox pool
  Prog.retain (.cell me.waiting)
  Prog.scope [.cell pool] do
    let _ ← start pool me.waiting (owned ++ me.owned) (main me)
    match (← readPool pool).deadlock with
    | some parked => return .present (.int parked)
    | none => return .absent

/-- Give up control in a pool. -/
def yield (pool : CellId) : Task Unit := do
  let label := (← readPool pool).label
  let _ ← Prog.invoke { name := yieldCommand } (.labelled label)

/-- Deliver a message and give up control. -/
def send (address : Mailbox) (message : Value) : Task Unit := do
  Task.writeValue address.waiting (.bool false)
  Task.pushBack address.inbox message
  yield address.pool

/-- Take the oldest message, waiting for one if there is none. -/
def receive (me : Mailbox) : Task Value :=
  Prog.loop .unit fun _ => do
    match ← Task.popFront me.inbox with
    | some message => return Comp.stop message
    | none =>
      Task.writeValue me.waiting (.bool true)
      yield me.pool
      return Comp.again .unit

/-- Add an actor to a pool; the caller gets a share of its address. -/
def spawn (pool : CellId) (owned : List Owned) (body : Mailbox → Task Value) : Task Mailbox := do
  let child ← newMailbox pool
  let label := (← readPool pool).label
  Prog.retainAll (child.owned ++ [.cell pool, .cell child.waiting, .cell child.waiting])
  let start ← Prog.closure ([.cell pool, .cell child.waiting] ++ owned ++ child.owned) fun _ =>
    Prog.scope [.cell pool] (start pool child.waiting (owned ++ child.owned) (body child))
  Prog.keeping child.owned do
    let _ ← Prog.invoke
      { name := forkCommand
        payload := .pair (.cell child.waiting) (.closure start)
        owned := [.cell child.waiting, .closure start] }
      (.labelled label)
  return child

/-- Send numbers back to whoever sent them, until the number is -1. -/
def echo (me : Mailbox) : Task Value :=
  Prog.loop .unit fun _ => do
    let message ← receive me
    match message with
    | .pair sender (.int n) =>
      Prog.scope sender.owned do
        if n = -1 then
          Transcript.emitLine "no more echo"
          return Comp.stop .unit
        else
          match Mailbox.ofValue? sender with
          | some address =>
            send address (.int n)
            return Comp.again .unit
          | none => return Comp.again .unit
    | _ => return Comp.again .unit

/-- Send a number to the echo actor, with the sender's address. -/
def sendNumber (me address : Mailbox) (n : Int) : Task Unit := do
  Prog.retainAll me.owned
  send address (.pair me.toValue (.int n))

/-- Send numbers to the echo actor and receive them back. -/
def starter (rounds : Int) (me : Mailbox) : Task Value := do
  let address ← spawn me.pool [] echo
  Prog.scope address.owned do
    let _ ← Prog.loop (.int 0) fun i => do
      if i.toInt < rounds then
        Transcript.emit ("sent: " ++ toString i.toInt)
        sendNumber me address i.toInt
        Transcript.emitLine (", received: " ++ toString (← receive me).toInt)
        return Comp.again (.int (i.toInt + 1))
      else
        return Comp.stop .unit
    sendNumber me address (-1)
    return .unit

/-- An actor that sends numbers and one that echoes them. -/
def demo (rounds : Int) : Task Unit := do
  match ← run [] (starter rounds) with
  | .present parked => Transcript.emitLine (deadlockText parked.toInt.toNat)
  | _ => return ()

/-- The handlers by name. -/
def handlers : List (String × HandlerType Content) := [(handlerName, handler)]

end EffectHandlers.Actor
