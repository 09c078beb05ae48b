import EffectHandlers.Machine.Dispatch
import EffectHandlers.Machine.Release
import EffectHandlers.Report.Diagnostics
/-!
# One step of a thread

`handle` puts an installation on the chain and runs the body on a fiber of its own; the driver
waits for that fiber. A body that sends a command parks its fiber with a request. The driver of
the target cuts the chain below its installation, packs fiber and segment into a continuation and
runs the clause; a driver of another installation parks its own fiber and so passes the request
on. Resuming puts the segment back and drives the fiber again.

Whatever is being released goes first: control goes on once nothing is left to release.
-/

namespace EffectHandlers.Machine

variable {ω : Type} [Contents ω]

/-- The fault of control that meets an activation it cannot belong to. -/
def misplaced : Fault := .internal "control reached an activation of another kind"

/-- Resume a parked fiber on behalf of an installation. -/
def enter (m : Machine ω) (i : InstallationId) (fiber : FiberId) : Machine ω :=
  match m.fibers.resume? fiber (.driving i fiber :: m.stack) with
  | some (stack, fibers) => { m with fibers, stack, control := .wake }
  | none => m.goOn (.fault (.internal "resumed a finished fiber"))

/-- The stack for a new fiber, unless there is none to be had. -/
def acquireStack (m : Machine ω) : Except StackPool.Failure Unit × Machine ω :=
  let (outcome, pool, warnings) := m.pool.acquire
  let m := { m with pool }.warn warnings
  match outcome with
  | .failed why => (.error why, m)
  | .fresh => (.ok (), m.bump .fibersCreated)
  | .reused => (.ok (), (m.bump .stacksReused).bump .fibersCreated)

/-- Declare a handler type at its first use. -/
def declare (m : Machine ω) (name : String) (h : HandlerType ω) : Except Fault Unit × Machine ω :=
  if name ∈ m.declared then (.ok (), m)
  else
    match HandlerType.duplicate? [] (h.clauses.map (·.command)) with
    | some command => (.error (.duplicateClause name command), m)
    | none =>
      (.ok (), { m with declared := name :: m.declared }.trace (.declared name h.clauses.length))

/-- The label of a new installation. -/
def chooseLabel (m : Machine ω) : Option Int → Except Fault Int × Machine ω
  | none =>
    let (label, chain) := m.chain.freshLabel
    (.ok label, { m with chain })
  | some label => ((m.chain.checkLabel label).map fun _ => label, m)

/-- Put an installation on the chain and start its body. The chain, the driver and the body's
reference to its own installation each hold a share. -/
def install (Γ : Library ω) (m : Machine ω) (i : Installing) (body : ReferenceId → Comp ω) :
    Machine ω :=
  let h := Γ.handlerType i.handlerType
  match m.chooseLabel i.label with
  | (.error f, m) => m.goOn (.fault f)
  | (.ok label, m) =>
  match m.declare i.handlerType h with
  | (.error f, m) => m.goOn (.fault f)
  | (.ok (), m) =>
  match m.acquireStack with
  | (.error .outOfMemory, m) => m.goOn (.fault StackPool.outOfMemory)
  | (.error .overflow, m) =>
    (m.discard (i.owned ++ [.cell i.handler])).goOn (.unwind StackPool.sizeOverflow)
  | (.ok (), m) =>
  let (id, chain) := m.chain.create
    { label, below := none, handler := i.handler, handlerType := i.handlerType,
      name := i.handlerType, clauses := h.entries, shares := 3 }
  let (this, references) := m.references.insert id
  let (fiber, fibers) := m.fibers.create
    [.start (body this), .owning (i.owned ++ [.reference this])]
  let m := { m with chain := chain.push id, references, fibers }
  (((m.bump .handles).trace (.installed label i.handlerType)).push .stepping).enter id fiber

/-- The code of the clause at a position of an installation. -/
def codeAt (Γ : Library ω) (m : Machine ω) (id : InstallationId) (entry : Nat) :
    Option (ClauseCode ω) := do
  let e ← (m.chain.get id).clauses[entry]?
  if e.entryPoint = .missing then none
  else return (← (Γ.handlerType (m.chain.get id).handlerType).clauses[entry]?).code

/-- Take the command out of an exchange. -/
def takeCommand (m : Machine ω) (e : ExchangeId) : Option (Command × Machine ω) := do
  let x ← m.exchanges.find? e
  let command ← x.command
  return (command,
    { m with exchanges := m.exchanges.modify e fun x => { x with command := none } })

/-- The panic of cutting the chain below an installation that is not on it. -/
def splitFailed : String := "split below a frame not on the metastack"

/-- The fault of a command that was taken out already. -/
def deliveredTwice (command : String) : Fault :=
  .internal ("command " ++ command ++ " delivered twice")

/-- Run a plain clause where its command was sent, with its installation and everything above it
hidden. -/
def sendInPlace (Γ : Library ω) (m : Machine ω) (id : InstallationId) (entry : Nat)
    (command : Command) : Machine ω :=
  match m.codeAt Γ id entry with
  | some (.plain code) =>
    let handler := (m.chain.get id).handler
    let m := (m.hold id).retain (.cell handler)
    let (exchange, exchanges) := m.exchanges.insert { command := some command }
    let m := { m with exchanges }
    match m.chain.split id with
    | .error _ =>
      (m.release [.exchange exchange, .asset (.cell handler), .installation id]).goOn
        (.unwind splitFailed)
    | .ok (hidden, chain) =>
      let m := ({ m with chain }.hold id).bump .plainDispatches
      match m.takeCommand exchange with
      | none => m.goOn (.fault (deliveredTwice command.name))
      | some (command, m) =>
        ((m.push (.inPlace id handler hidden exchange)).push (.owning command.owned)).goOn
          (.eval (code handler command.payload))
  | _ =>
    m.goOn (.fault
      (.internal ("plain clause for " ++ command.name ++ " has no plain entry point")))

/-- Send a command to a clause of an installation. -/
def send (Γ : Library ω) (m : Machine ω) (id : InstallationId) (entry : Nat)
    (command : Command) : Machine ω :=
  let i := m.chain.get id
  let modifier : Option Modifier := (i.clauses[entry]?).map ClauseEntry.modifier
  match modifier with
  | some .plain => m.sendInPlace Γ id entry command
  | _ =>
    let m := m.hold id
    let (exchange, exchanges) := m.exchanges.insert { command := some command }
    let m := { m with exchanges }.trace (.invoked command.name i.label i.name)
    (m.push (.sending id exchange (modifier.getD .resumptive) command.name)).goOn
      (.request { target := id, entry, exchange, command := command.name })

/-- Run the clause for a command whose continuation has been captured. -/
def runClause (m : Machine ω) (handler : CellId) (answer : String) (fiber : FiberId)
    (segment : Segment) (exchange : ExchangeId) (command : Command) : ClauseCode ω → Machine ω
  | .resumptive code | .noManage code =>
    let (resumption, resumptions) :=
      m.resumptions.insert (.captured answer fiber segment exchange)
    ({ m with resumptions }.push (.owning (.resumption resumption :: command.owned))).goOn
      (.eval (code handler command.payload resumption))
  | .noResume code | .plain code =>
    (((m.bump .discarded).trace (.discardingFor command.name)).push
      (.owning command.owned)).release (.fiber fiber :: segment.owned)
      |>.goOn (.eval (code handler command.payload))

/-- Capture the continuation for a clause and run the clause in place of its installation. -/
def capture (Γ : Library ω) (m : Machine ω) (id : InstallationId) (fiber : FiberId)
    (r : Request) : Machine ω :=
  let i := m.chain.get id
  match m.codeAt Γ id r.entry with
  | none | some (.plain _) =>
    m.goOn (.fault (.internal
      ("clause " ++ toString r.entry ++ " of " ++ i.name ++ " has no resumptive entry point")))
  | some code =>
    match m.chain.split id with
    | .error _ => (m.release [.fiber fiber, .installation id]).goOn (.unwind splitFailed)
    | .ok (segment, chain) =>
      let m := (({ m with chain }.hold id).bump .captures).trace
        (.captured i.label i.name (chain.segmentLength segment) code.modifier)
      let answer := (Γ.handlerType i.handlerType).answer
      let keep := if code.modifier = .noManage then none else some id
      let m := if code.modifier = .noManage then m.release [.installation id] else m
      match m.takeCommand r.exchange with
      | none => m.goOn (.fault (deliveredTwice r.command))
      | some (command, m) =>
        (m.push (.clause keep answer)).runClause i.handler answer fiber segment r.exchange
          command code

/-- Take an installation whose body has returned off the chain and run its return clause. -/
def finish (Γ : Library ω) (m : Machine ω) (id : InstallationId) (v : Value) : Machine ω :=
  match m.chain.pop? with
  | none =>
    m.goOn (.fault (.internal "attempted to pop the bottom of the metastack"))
  | some (top, chain) =>
    let m := { m with chain }
    let i := m.chain.get id
    if top ≠ id then
      m.goOn (.fault (.internal
        ("body of " ++ i.name ++ " returned while " ++ (m.chain.get top).name
          ++ " was installed above it")))
    else
      let h := Γ.handlerType i.handlerType
      let m := m.trace (.returned i.label i.name)
      ({ m with chain := m.chain.retire id }.push (.returning id h.answer)).goOn
        (.eval (h.onReturn i.handler v))

/-- Take the continuation out of a resumption and give it its argument. -/
def arm (m : Machine ω) (r : ResumptionId) (v : Value) : Option (Cont ω × Machine ω) :=
  (m.resumptions.find? r).map fun k =>
    let m := { m with resumptions := m.resumptions.erase r }
    match k with
    | .captured _ _ _ e =>
      (k, { m with exchanges := m.exchanges.modify e fun x => { x with result := some v } })
    | .function answer f _ => (.function answer f (some v), m)

/-- Take one step of a continuation, under the loop that is on top. The share of the segment's
lowest installation goes over to its driver. -/
def stepCont (m : Machine ω) : Cont ω → Machine ω
  | .captured _ fiber segment _ =>
    let i := m.chain.get segment.lowest
    let m := m.trace (.resumed i.label i.name (m.chain.segmentLength segment))
    { m with chain := m.chain.splice segment }.enter segment.lowest fiber
  | .function answer f arg =>
    match arg with
    | some v => (m.push (.calling answer)).goOn (.eval (f.body v))
    | none => m.goOn (.fault (.internal "function resumption stepped without a value"))

/-- Resume: step the continuation under a loop of its own. -/
def resume (m : Machine ω) (r : ResumptionId) (v : Value) : Machine ω :=
  match m.arm r v with
  | none => m.goOn (.fault .resumeEmpty)
  | some (k, m) => ((m.bump .resumes).push .stepping).goOn (.deliver (.tail k))

/-- Leave the continuation to the loop above the clause that is running. -/
def tailResume (m : Machine ω) (r : ResumptionId) (v : Value) (next : Comp ω) : Machine ω :=
  match m.arm r v with
  | none => m.goOn (.fault .resumeEmpty)
  | some (k, m) =>
    let m := m.bump .tailResumes
    match m.pending with
    | none => { m with pending := some k }.goOn (.eval next)
    | some _ => (m.release k.owned).goOn (.fault .tailSlotOccupied)

/-- Turn an answer into a step, and release what was kept for the code that answered. When a tail
resume waits, the answer is only its placeholder. -/
def settle (m : Machine ω) (answer : String) (v : Value) (kept : List Holding) : Machine ω :=
  match m.pending with
  | none => (m.release kept).goOn (.deliver (.done v))
  | some k =>
    let m := { m with pending := none }
    if k.answer = answer then (m.release (v.owned.map .asset ++ kept)).goOn (.deliver (.tail k))
    else m.goOn (.fault (.tailResumeMismatch answer))

/-- Call a closure, which is used up: what it owned is now up to its code. Calling one that was
used up before does nothing. -/
def applyClosure (m : Machine ω) (f : ClosureId) (arg : Value) : Machine ω :=
  match m.closures.find? f with
  | some c => { m with closures := m.closures.erase f }.goOn (.eval (c.body arg))
  | none => m.goOn (.ret .unit)

/-- A resumption that will never hold a continuation. -/
def unusable (m : Machine ω) : ResumptionId × Machine ω :=
  (m.resumptions.next,
    { m with resumptions := { m.resumptions with next := m.resumptions.next + 1 } })

/-- Answer a question. -/
def answer (m : Machine ω) : Query → Value × Machine ω
  | .depth => (.int m.chain.depth, m)
  | .inFiber => (.bool m.fibers.current.isSome, m)
  | .pooledStacks => (.int m.pool.pooled, m)
  | .isPending => (.bool m.pending.isSome, m)
  | .freshLabel =>
    let (label, chain) := m.chain.freshLabel
    (.int label, { m with chain })
  | .isIssued label => (.bool (m.chain.isIssued label), m)
  | .isInstalled r => (.bool (m.chain.isInstalled (m.referent r)), m)
  | .labelOf r => (.int (m.chain.get (m.referent r)).label, m)
  | .isValid r => (.bool (m.resumptions.contains r), m)

/-- The lines of the diagnostics report; this is a use of the settings. -/
def reportLines (m : Machine ω) : List String × Machine ω :=
  let (settings, slot, warnings) := m.pool.settings.use
  let m := { m with pool := { m.pool with settings := slot } }.warn warnings
  (Report.lines m.counters m.counters settings m.chain.listing, m)

/-- Put a view into the journal. -/
def view (m : Machine ω) : View → Machine ω
  | .snapshot => m.record (.snapshot m.chain.snapshot)
  | .listing => m.record (.lines m.chain.listing)
  | .tally => m.record (.tally m.counters)
  | .report =>
    let (lines, m) := m.reportLines
    m.record (.lines lines)
  | .reference r =>
    let i := m.chain.get (m.referent r)
    m.record (.reference i.label i.name (m.chain.isInstalled (m.referent r)))

/-- Write lines to standard error. -/
def print (m : Machine ω) : Printout → Machine ω
  | .listing => { m with errors := m.chain.listing.reverse ++ m.errors }
  | .report =>
    let (lines, m) := m.reportLines
    { m with errors := lines.reverse ++ m.errors }
  | .lines ls => { m with errors := ls.reverse ++ m.errors }

/-- Evaluate one operation. -/
def eval (Γ : Library ω) (m : Machine ω) : Comp ω → Machine ω
  | .done v => m.goOn (.ret v)
  | .panic message => m.goOn (.unwind message)
  | .record e next => (m.record e).goOn (.eval next)
  | .alloc content next =>
    let (id, cells) := m.cells.insert ⟨content, 1⟩
    { m with cells }.goOn (.eval (next id))
  | .read c next => m.goOn (.eval (next (m.content c)))
  | .write c content next =>
    { m with cells := m.cells.modify c fun s => { s with content } }.goOn (.eval next)
  | .retain o next => (m.retain o).goOn (.eval next)
  | .release os next => (m.discard os).goOn (.eval next)
  | .scope os body next => ((m.push (.bind next)).push (.owning os)).goOn (.eval body)
  | .catching body next => (m.push (.catching next)).goOn (.eval body)
  | .loop seed body next => (m.push (.looping body next)).goOn (.eval (body seed))
  | .call procedure arg next => (m.push (.bind next)).goOn (.eval (Γ.procedure procedure arg))
  | .closure owned body next =>
    let (id, closures) := m.closures.insert ⟨owned, body⟩
    { m with closures }.goOn (.eval (next id))
  | .apply f arg next => (m.push (.bind next)).applyClosure f arg
  | .handle i body next => (m.push (.bind next)).install Γ i body
  | .invoke target command next =>
    match m.chain.dispatch m.referent command.name target with
    | .error f => m.goOn (.fault f)
    | .ok (id, entry) => (m.push (.bind next)).send Γ id entry command
  | .find search next =>
    match m.chain.locate search with
    | .error f => m.goOn (.fault f)
    | .ok id =>
      let (r, references) := m.references.insert id
      ({ m with references }.hold id).goOn (.eval (next r))
  | .copy r next =>
    match m.references.find? r with
    | none =>
      let id := m.references.next
      { m with references := { m.references with next := id + 1 } }.goOn (.eval (next id))
    | some i =>
      let (id, references) := m.references.insert i
      ({ m with references }.hold i).goOn (.eval (next id))
  | .function answer f next =>
    match m.closures.find? f with
    | none =>
      let (id, m) := m.unusable
      m.goOn (.eval (next id))
    | some c =>
      let (id, resumptions) := m.resumptions.insert (.function answer c none)
      { m with closures := m.closures.erase f, resumptions }.goOn (.eval (next id))
  | .take r next =>
    match m.resumptions.find? r with
    | none =>
      let (id, m) := m.unusable
      m.goOn (.eval (next id))
    | some k =>
      let (id, resumptions) := (m.resumptions.erase r).insert k
      { m with resumptions }.goOn (.eval (next id))
  | .resume r v next => (m.push (.bind next)).resume r v
  | .tailResume r v next => m.tailResume r v next
  | .ask q next =>
    let (v, m) := m.answer q
    m.goOn (.eval (next v))
  | .view v next => (m.view v).goOn (.eval next)
  | .print p next => (m.print p).goOn (.eval next)
  | .pushBare label name clauses next =>
    let (id, chain) := m.chain.create
      { Installation.bottom with
        label, name
        clauses := clauses.map fun c => ⟨c.1, c.1, c.2, .missing⟩ }
    { m with chain := chain.push id }.goOn (.eval next)
  | .popBare next =>
    match m.chain.pop? with
    | none =>
      m.goOn (.fault (.internal "attempted to pop the bottom of the metastack"))
    | some (id, chain) =>
      ({ m with chain }.release [.installation id]).goOn (.eval (next (chain.get id).label))

/-- Hand control back to the code that resumed the running fiber. -/
def handBack (m : Machine ω) (control : Control ω) : Option (Machine ω) :=
  m.fibers.handBack?.map fun (stack, fibers) => { m with fibers, stack, control }

/-- Give a value to the top activation. A fiber without activations has finished: its stack goes
to the pool and its driver gets the value. -/
def give (Γ : Library ω) (m : Machine ω) (v : Value) : Machine ω :=
  match m.stack with
  | [] =>
    match m.handBack (.ret v) with
    | none => m.goOn (.halted (.finished v))
    | some m =>
      let (pool, warnings) := m.pool.giveBack
      { m with pool }.warn warnings
  | a :: stack =>
    let m := { m with stack }
    match a with
    | .bind next => m.goOn (.eval (next v))
    | .owning os => m.discard os
    | .catching next => m.goOn (.eval (next (.ok v)))
    | .looping body next =>
      match v with
      | .pair (.bool true) seed => (m.push (.looping body next)).goOn (.eval (body seed))
      | .pair _ result => m.goOn (.eval (next result))
      | _ => m.goOn (.eval (next v))
    | .driving i _ => m.finish Γ i v
    | .clause keep answer =>
      (m.release (keep.map Holding.installation).toList).goOn (.settle answer v)
    | .returning i answer => m.settle answer v [.installation i, .installation i]
    | .calling answer => m.settle answer v []
    | .inPlace i handler hidden exchange =>
      { m with chain := m.chain.splice hidden }.release
        [.installation i, .exchange exchange, .asset (.cell handler), .installation i]
    | .start _ | .stepping | .sending .. => m.goOn (.fault misplaced)

/-- Give a step to the loop on top. -/
def deliver (m : Machine ω) (s : Step (Cont ω) Value) : Machine ω :=
  match m.stack with
  | .stepping :: stack =>
    match s with
    | .done v => { m with stack, control := .ret v }
    | .tail k => m.stepCont k
  | _ => m.goOn (.fault misplaced)

/-- Go on after the running fiber was resumed: start it, give the invoker on top its result, or
pass the resume on to the fiber that a driver on top waits for. -/
def wake (m : Machine ω) : Machine ω :=
  match m.stack with
  | .start body :: stack => { m with stack, control := .eval body }
  | .driving i fiber :: stack => { m with stack }.enter i fiber
  | .sending i exchange modifier command :: stack =>
    if modifier = .noResume then m.goOn (.fault (.malformedNoResume command))
    else
      match (m.exchanges.find? exchange).bind (·.result) with
      | some v =>
        let exchanges := m.exchanges.modify exchange fun x => { x with result := none }
        { m with exchanges, stack, control := .ret v }.release
          [.exchange exchange, .installation i]
      | none => m.goOn (.fault (.internal (command ++ " resumed without a result")))
  | _ => m.goOn (.fault misplaced)

/-- Park the running fiber with a request and hand the request to the driver that waits for it. -/
def forward (Γ : Library ω) (m : Machine ω) (r : Request) : Machine ω :=
  match m.fibers.suspend? m.stack with
  | none => m.goOn (.fault (.notInFiber r.command))
  | some (stack, fibers) =>
    let m := { m with fibers }
    match stack with
    | .driving i fiber :: rest =>
      if i = r.target then { m with stack := rest }.capture Γ i fiber r
      else { m with stack, control := .request r }
    | _ => { m with stack, control := .fault misplaced }

/-- Unwind the top activation. -/
def unwind (m : Machine ω) (message : String) : Machine ω :=
  match m.stack with
  | [] => (m.handBack (.unwind message)).getD (m.goOn (.halted (.panicked message)))
  | .catching next :: stack => { m with stack, control := .eval (next (.error message)) }
  | a :: stack => { m with stack }.release a.owned

/-- End the thread with a fault. Its code is not unwound, but what the thread as a whole owns is
released: the waiting tail resume, the chain, and the statics. -/
def exit (m : Machine ω) (f : Fault) : Machine ω :=
  let owned := (m.pending.map Cont.owned).getD [] ++ [.installation m.chain.top]
    ++ m.statics.map .asset
  (({ m with pending := none }.trace (.fatal f)).release owned).goOn
    (.halted (.fatal f m.chain.listing))

/-- One step of a thread. -/
def step (Γ : Library ω) (m : Machine ω) : Machine ω :=
  match m.releasing with
  | o :: releasing => { m with releasing }.releaseOne o
  | [] =>
    match m.control with
    | .eval c => m.eval Γ c
    | .ret v => m.give Γ v
    | .deliver s => m.deliver s
    | .settle answer v => m.settle answer v []
    | .request r => m.forward Γ r
    | .wake => m.wake
    | .unwind message => m.unwind message
    | .fault f => m.exit f
    | .halted _ => m

/-- More steps than any thread takes that ends in reasonable time. -/
def stepLimit : Nat := 1000000000000000

/-- Run a thread for at most so many steps, until it has halted and nothing is left to release. -/
def run (Γ : Library ω) : Nat → Machine ω → Machine ω
  | 0, m => m
  | n + 1, m =>
    match m.control, m.releasing with
    | .halted _, [] => m
    | _, _ => run Γ n (m.step Γ)

end EffectHandlers.Machine
