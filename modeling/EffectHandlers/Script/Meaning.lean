import EffectHandlers.Script.Tables
import EffectHandlers.Machine.Step
/-!
# The meaning of scripts

Expressions become programs over the runtime and the client programs. Code that runs later gets a
scope of its own, made where its expression is evaluated.
-/

namespace EffectHandlers.Script

/-- Operations on two numbers; results are taken modulo 2⁶⁴. -/
def Arith.apply (a b : Int) : Arith → Int
  | .add => Word.wrap (a + b)
  | .sub => Word.wrap (a - b)
  | .mul => Word.wrap (a * b)
  | .remainder => Word.remainder a b
  | .less => if a < b then 1 else 0
  | .equal => if a = b then 1 else 0

/-- The number of a truth value. -/
def ofBool (b : Bool) : Int := if b then 1 else 0

/-- A program with a number as its result. -/
def numbered (p : Task Int) : Task Value := do return .int (← p)

/-- Code that owns its scope. -/
def owning (inner : CellId) (p : Task Int) : Task Value := Prog.scope [.cell inner] (numbered p)

/-- The command that an expression sends. -/
def Sending.toCommand (s : Sending) (payload : Int) : Command where
  name := s.command
  payload := .int payload
  owned := (s.tag.map fun t => Owned.notice (.commandDropped t)).toList

/-- The target of a command sent to the innermost installation. -/
def Sending.innermost (s : Sending) : Target :=
  match s.handlerType with
  | none => .innermost
  | some t => .ofType t

/-- The target of a command sent by label. -/
def Sending.labelled (s : Sending) (label : Int) : Target :=
  match s.handlerType with
  | none => .labelled label
  | some t => .labelledOfType t label

/-- The target of a command sent by reference. -/
def Sending.referred (s : Sending) (r : ReferenceId) : Target :=
  match s.handlerType with
  | none => .reference r
  | some t => .referenceOfType t r

/-- The reference under a name. -/
def referenced (name : String) : Task ReferenceId := do
  match ← Table.find? .references name with
  | some (.reference r) => return r
  | _ => return emptyReference

/-- Store a reference; the value is the label of what it refers to. -/
def storeReference (name : String) (r : ReferenceId) : Task Int := do
  let label ← Prog.ask (.labelOf r)
  Table.put .references name (.reference r)
  return label.toInt

/-- The mailbox under a name. -/
def mailbox? (name : String) : Task (Option Mailbox) := do
  return (← Table.find? .mailboxes name).bind Mailbox.ofValue?

/-- Keep a share of a mailbox under a name. -/
def storeMailbox (name : String) (m : Mailbox) : Task Unit := do
  Prog.retainAll m.owned
  Table.put .mailboxes name m.toValue

/-- The answer to a question. -/
def Question.run (q : Question) : Task Int := do
  match q with
  | .depth => return (← Prog.ask .depth).toInt
  | .inFiber => return (← Prog.ask .inFiber).toInt
  | .pooled => return (← Prog.ask .pooledStacks).toInt
  | .pending => return (← Prog.ask .isPending).toInt
  | .fresh => return (← Prog.ask .freshLabel).toInt

/-- Look at something as a whole. -/
def Picture.run : Picture → Task Unit
  | .snapshot => Prog.view .snapshot
  | .listing => Prog.view .listing
  | .tally => Prog.view .tally
  | .report => Prog.view .report
  | .printed => Prog.print .listing

/-- Run a demonstration and log what it wrote, after the texts of its sinks if it has any. -/
def runDemo (d : Demo) : Task Unit := do
  let (transcript, sinks) ← d.run
  match sinks with
  | some (out, err) => Prog.record (.lines [out, err])
  | none => pure ()
  Prog.log transcript

/-- The name of the procedure for a function of the script. -/
def procedureName (function : String) : String := "function " ++ function

mutual

/-- The program of an expression that is evaluated in the scope of a cell. -/
def Expr.run : Expr → CellId → Task Int
  | .int n, _ => return n
  | .var x, s => Scopes.get s x
  | .assign x e, s => do
    let n ← e.run s
    Scopes.set s x n
    return n
  | .global x, _ => do return ((← Table.find? .globals x).getD (.int 0)).toInt
  | .setGlobal x e, s => do
    let n ← e.run s
    Table.put .globals x (.int n)
    return n
  | .state, s => do
    match (← Scopes.read s).state with
    | some c => Task.readInt c
    | none => return 0
  | .setState e, s => do
    let n ← e.run s
    match (← Scopes.read s).state with
    | some c =>
      Task.writeInt c n
      return n
    | none => return n
  | .arith op a b, s => do
    let x ← a.run s
    let y ← b.run s
    return op.apply x y
  | .sequence es, s => runAll es 0 s
  | .cond c yes no, s => do
    if (← c.run s) ≠ 0 then runAll yes 0 s else runAll no 0 s
  | .repeatTimes n x body, s => do
    let times ← n.run s
    let last ← Prog.loop (.pair (.int 0) (.int 0)) fun state =>
      match state with
      | .pair (.int i) last => do
        if i < times then
          Scopes.set s x i
          let v ← runAll body 0 s
          return Comp.again (.pair (.int (i + 1)) (.int v))
        else
          return Comp.stop last
      | v => return Comp.stop v
    return last.toInt
  | .whileNonzero c body, s => do
    let last ← Prog.loop (.int 0) fun last => do
      if (← c.run s) ≠ 0 then
        return Comp.again (.int (← runAll body 0 s))
      else
        return Comp.stop last
    return last.toInt
  | .call function e, s => do
    let inner ← Scopes.forCall s (← e.run s)
    return (← Prog.call (procedureName function) (.cell inner)).toInt
  | .log text es, s => do
    let ns ← evalAll es s
    Prog.log (" ".intercalate (text :: ns.map toString))
    return 0
  | .guarded text body, s => do
    return (← Prog.scope [.notice (.guardDropped text)] (numbered (runAll body 0 s))).toInt
  | .panic text, _ => Prog.panic text
  | .catching body, s => do
    match ← Prog.catching (numbered (runAll body 0 s)) with
    | .ok v => return v.toInt
    | .error text =>
      Prog.log ("caught " ++ text)
      return -1
  | .invoke sent e, s => do
    let n ← e.run s
    return (← Prog.invoke (sent.toCommand n) sent.innermost).toInt
  | .invokeLabel sent label e, s => do
    let label ← label.run s
    let n ← e.run s
    return (← Prog.invoke (sent.toCommand n) (sent.labelled label)).toInt
  | .invokeAt sent reference e, s => do
    let n ← e.run s
    let r ← Prog.copy (← referenced reference)
    return (← Prog.scope [.reference r]
      (Prog.invoke (sent.toCommand n) (sent.referred r))).toInt
  | .find command reference, _ => do
    storeReference reference (← Prog.find (.command command))
  | .findLabel label reference, s => do
    let label ← label.run s
    storeReference reference (← Prog.find (.label label))
  | .handle spec label state body, s => do
    let label ← evalOption label s
    let state ← evalOption state s
    let handler ← instanceFor spec (state.getD 0)
    let inner ← Scopes.copy s
    let answer ← Prog.handle
      { handlerType := spec.handlerType, label, handler, owned := [.cell inner] } fun r => do
        match spec.reference with
        | some name => Table.put .references name (.reference (← Prog.copy r))
        | none => pure ()
        numbered (runAll body 0 inner)
    return answer.toInt
  | .resume slot e, s => do
    let n ← e.run s
    return (← Prog.resume (← slot.take s) (.int n)).toInt
  | .tail slot e, s => do
    let n ← e.run s
    return (← Prog.tail (← slot.take s) (.int n) (.int 0)).toInt
  | .valid slot, s => do return (← Prog.ask (.isValid (← slot.peek s))).toInt
  | .describe slot, s => do
    let valid := (← Prog.ask (.isValid (← slot.peek s))).isTrue
    Prog.log (if valid then "Resumption \x7b valid: true \x7d"
      else "Resumption \x7b valid: false \x7d")
    return 0
  | .drop slot, s => do
    Prog.release [.resumption (← slot.take s)]
    return 0
  | .move source target, s => do
    target.store s (← source.take s)
    return 0
  | .setFree slot name, s => do
    let _ ← Table.exchange .free name (.resumption (← slot.take s))
    return 0
  | .takeBack name slot, s => do
    match ← Table.take .free name with
    | some (.resumption r) => slot.store s r
    | _ => slot.store s emptyResumption
    return 0
  | .function slot answer body, s => do
    let inner ← Scopes.copy s
    let f ← Prog.closure [.cell inner] fun arg => do
      Scopes.set inner "arg" arg.toInt
      owning inner (runAll body 0 inner)
    slot.store s (← Prog.function answer f)
    return 0
  | .wrap slot spec answer state body, s => do
    let state ← evalOption state s
    let inner ← Scopes.copy s
    let install (handler : CellId) (arg : Value) : Task Value := do
      Scopes.set inner "arg" arg.toInt
      Prog.handle { handlerType := spec.handlerType, handler, owned := [.cell inner] } fun _ =>
        numbered (runAll body 0 inner)
    match spec.share with
    | none =>
      let f ← Prog.closure [.cell inner] fun arg => do install (← newInstance none 0) arg
      slot.store s (← Prog.function answer f)
    | some _ =>
      let handler ← instanceFor spec (state.getD 0)
      let f ← Prog.closure [.cell handler, .cell inner] fun arg => install handler arg
      slot.store s (← Prog.function answer f)
    return 0
  | .push queue slot, s => do
    let c ← Table.cellOrMake .queues queue (.list [])
    Task.pushBack c (.resumption (← slot.take s))
    return (← Task.readList c).length
  | .pop queue slot, s => do
    let c ← Table.cellOrMake .queues queue (.list [])
    match ← Task.popFront c with
    | some (.resumption r) =>
      slot.store s r
      return 1
    | _ =>
      slot.store s emptyResumption
      return 0
  | .queueLength queue, _ => do
    let c ← Table.cellOrMake .queues queue (.list [])
    return (← Task.readList c).length
  | .unshare name, _ => do
    Table.remove .shares name
    return 0
  | .unreference name, _ => do
    Table.remove .references name
    return 0
  | .ask q, _ => q.run
  | .look p, _ => do
    p.run
    return 0
  | .issued e, s => do return (← Prog.ask (.isIssued (← e.run s))).toInt
  | .installed reference, _ => do
    return (← Prog.ask (.isInstalled (← referenced reference))).toInt
  | .lookAt reference, _ => do
    let r ← referenced reference
    Prog.view (.reference r)
    return (← Prog.ask (.labelOf r)).toInt
  | .pushFrame label name clauses, s => do
    Prog.pushBare (← label.run s) name clauses
    return 0
  | .popFrame, _ => Prog.popBare
  | .stateful e body, s => do
    let n ← e.run s
    let inner ← Scopes.copy s
    return (← MutableState.withCell "i64" n [.cell inner] (numbered (runAll body 0 inner))).toInt
  | .lambda e body, s => do
    let n ← e.run s
    let inner ← Scopes.copy s
    return (← MutableState.withFunction "i64" n [.cell inner]
      (numbered (runAll body 0 inner))).toInt
  | .get, _ => MutableState.get
  | .put e, s => do
    let n ← e.run s
    MutableState.put n
    return n
  | .withDefault e body, s => do
    let n ← e.run s
    let inner ← Scopes.copy s
    return (← Fallback.withDefault n [.cell inner] (numbered (runAll body 0 inner))).toInt
  | .error, _ => do return (← Fallback.error).toInt
  | .product xs, _ => do return (← Fallback.product xs).toInt
  | .bounded e body, s => do
    let n ← e.run s
    let inner ← Scopes.copy s
    match ← Fuel.withBudget n [.cell inner] (numbered (runAll body 0 inner)) with
    | .present v => Scopes.setFound s (some v)
    | _ => Scopes.setFound s none
  | .measure body, s => do
    let inner ← Scopes.copy s
    match ← Fuel.measured [.cell inner] (numbered (runAll body 0 inner)) with
    | .pair v used =>
      Scopes.set s "used" used.toInt
      return v.toInt
    | _ => return 0
  | .consume e, s => do
    let n ← e.run s
    Fuel.consume n
    return n
  | .fuelFib e, s => do return (← Fuel.fib (← e.run s)).toInt
  | .transaction body, s => do
    let inner ← Scopes.copy s
    let committed ← Transaction.transaction [.cell inner] (numbered (runAll body 0 inner))
    return committed.toInt
  | .track x e, s => do
    let n ← e.run s
    let c ← Table.cellOrMake .tracked x (.value (.int 0))
    Transaction.track c (.int n)
    return n
  | .tracked x, _ => do Task.readInt (← Table.cellOrMake .tracked x (.value (.int 0)))
  | .rollback, _ => do
    Transaction.rollback
    return 0
  | .reset body, s => do
    let inner ← Scopes.copy s
    return (← Delimited.reset .number [.cell inner] (numbered (runAll body 0 inner))).toInt
  | .shift k body, s => do
    let inner ← Scopes.copy s
    let hole ← Delimited.shift .number [.cell inner] fun continuation =>
      owning inner do
        Table.put .continuations k (.closure continuation)
        runAll body 0 inner
    return hole.toInt
  | .callContinuation k e, s => do
    let n ← e.run s
    match ← Table.take .continuations k with
    | some (.closure f) => return (← Prog.apply f (.int n)).toInt
    | _ =>
      Prog.log "no k"
      return -1
  | .dropContinuation k, _ => do
    Table.remove .continuations k
    return 0
  | .generator g body, s => do
    let inner ← Scopes.copy s
    let state ← Generator.make "i64" [.cell inner] fun label => do
      Scopes.write inner { ← Scopes.read inner with generator := some label }
      let _ ← runAll body 0 inner
    Table.put .generators g state
    return 0
  | .yield e, s => do
    let n ← e.run s
    match (← Scopes.read s).generator with
    | some label => Generator.yield "i64" label (.int n)
    | none => pure ()
    return n
  | .next g, s => do
    match ← Table.take .generators g with
    | none =>
      Prog.log "no generator"
      Scopes.setFound s none
    | some state =>
      match ← Generator.next state with
      | some (v, state) =>
        Table.put .generators g state
        Scopes.setFound s (some v)
      | none =>
        Table.put .generators g .absent
        Scopes.setFound s none
  | .dropGenerator g, _ => do
    Table.remove .generators g
    return 0
  | .logger sink body, s => do
    let c ← Table.cellOrMake .sinks sink (.value (.text ""))
    let inner ← Scopes.copy s
    match ← Sink.withSink c [.cell inner] (numbered (runAll body 0 inner)) with
    | .present v => Scopes.setFound s (some v)
    | _ => Scopes.setFound s none
  | .logFib e, s => do return (← Sink.fib (← e.run s)).toInt
  | .readSink sink, _ => do
    Prog.log (← Task.readText (← Table.cellOrMake .sinks sink (.value (.text ""))))
    return 0
  | .emit text, _ => do
    Transcript.emit text
    return 0
  | .emitLine text, _ => do
    Transcript.emitLine text
    return 0
  | .capture body, s => do
    let (text, v) ← Transcript.capture (numbered (runAll body 0 s))
    Prog.log text
    return v.toInt
  | .actors body, s => do
    let inner ← Scopes.copy s
    let left ← Actor.run [.cell inner] fun me => do
      Scopes.setMailbox inner me
      numbered (runAll body 0 inner)
    match left with
    | .present parked =>
      Prog.log (Actor.deadlockText parked.toInt.toNat)
      return -parked.toInt
    | _ => return 1
  | .self name, s => do
    match (← Scopes.read s).mailbox with
    | some me => storeMailbox name me
    | none => pure ()
    return 0
  | .spawn name body, s => do
    match (← Scopes.read s).mailbox with
    | some me =>
      let inner ← Scopes.copy s
      let child ← Actor.spawn me.pool [.cell inner] fun child => do
        Scopes.setMailbox inner child
        numbered (runAll body 0 inner)
      Table.put .mailboxes name child.toValue
      return 0
    | none => return 0
  | .send name e, s => do
    let n ← e.run s
    match ← mailbox? name with
    | some address =>
      Prog.retainAll address.owned
      let _ ← Prog.scope address.owned do
        Actor.send address (.int n)
        return .unit
      return n
    | none => return n
  | .receive, s => do
    match (← Scopes.read s).mailbox with
    | some me => return (← Actor.receive me).toInt
    | none => return 0
  | .receiveFrom name, _ => do
    match ← mailbox? name with
    | some me =>
      Prog.retainAll me.owned
      return (← Prog.scope me.owned (Actor.receive me)).toInt
    | none => return 0
  | .actorYield, s => do
    match (← Scopes.read s).mailbox with
    | some me => Actor.yield me.pool
    | none => pure ()
    return 0
  | .asyncSpawn name body, s => do
    let inner ← Scopes.copy s
    let future ← Promise.spawn "i64" [.cell inner] (numbered (runAll body 0 inner))
    Table.put .futures name (.cell future)
    return 0
  | .await name, s => do
    match ← Table.sharedCell? .futures name with
    | some future =>
      let found ← Prog.scope [.cell future] do
        match ← Promise.await future with
        | some v => return .present v
        | none => return .absent
      match found with
      | .present v => Scopes.setFound s (some v)
      | _ => Scopes.setFound s none
    | none => Scopes.setFound s none
  | .futureValue name, s => do
    match ← Table.find? .futures name with
    | some (.cell future) => Scopes.setFound s (← Promise.value future)
    | _ => Scopes.setFound s none
  | .futureReady name, _ => do
    match ← Table.find? .futures name with
    | some (.cell future) => return ofBool (← Promise.isReady future)
    | _ => return 0
  | .asyncYield, _ => do
    Promise.yield
    return 0
  | .threadYield, _ => do
    RoundRobin.yield
    return 0
  | .threadFork body, s => do
    let inner ← Scopes.copy s
    RoundRobin.fork [.cell inner] do
      let _ ← runAll body 0 inner
    return 0
  | .demo d, _ => do
    runDemo d
    return 0

/-- The program of the rest of a block, given the value of what came before. -/
def runAll : List Expr → Int → CellId → Task Int
  | [], last, _ => return last
  | e :: rest, _, s => do runAll rest (← e.run s) s

/-- The values of all expressions of a list. -/
def evalAll : List Expr → CellId → Task (List Int)
  | [], _ => return []
  | e :: rest, s => do
    let n ← e.run s
    return n :: (← evalAll rest s)

/-- The value of an expression that may be missing. -/
def evalOption : Option Expr → CellId → Task (Option Int)
  | none, _ => return none
  | some e, s => do return some (← e.run s)

end

/-- The program of a block. -/
def block (es : List Expr) (s : CellId) : Task Int := runAll es 0 s

/-- The code of a clause. -/
def ClauseDef.code (c : ClauseDef) : ClauseCode Content :=
  let run (handler : CellId) (arg : Value) (r : ResumptionId) : Comp Content := Prog.toComp do
    let inner ← Scopes.forClause handler arg r
    owning inner (block c.body inner)
  match c.modifier with
  | .resumptive => .resumptive run
  | .noManage => .noManage run
  | .noResume => .noResume fun handler arg => run handler arg emptyResumption
  | .plain => .plain fun handler arg => run handler arg emptyResumption

/-- The handler type of a definition. -/
def TypeDef.handlerType (t : TypeDef) : HandlerType Content where
  answer := t.answer
  clauses := t.clauses.map fun c => { command := c.command, code := c.code }
  onReturn handler v :=
    match t.onReturn with
    | none => .done v
    | some body => Prog.toComp do
      let inner ← Scopes.forClause handler v emptyResumption
      owning inner (block body inner)

/-- The procedure of a function, which gets its scope as the argument. -/
def procedure (body : List Expr) (scope : Value) : Task Value :=
  match scope with
  | .cell inner => owning inner (block body inner)
  | _ => return .int 0

namespace Program

/-- Everything that the code of a script can refer to. -/
def library (p : Program) : Library Content :=
  Client.libraryOf ((p.types.map fun t => (t.name, t.handlerType)) ++ Client.handlers)
    ((p.functions.map fun f => (procedureName f.1, procedure f.2)) ++ Client.procedures)

/-- The code of the whole script: what is left when its main block has ended is discarded. -/
def code (p : Program) : Comp Content := Prog.toComp do
  let scope ← Prog.alloc (.scope {})
  let v ← owning scope (block p.main scope)
  tearDown
  return v

/-- A fresh thread about to run a script. -/
def start (settings : SettingsSlot) (p : Program) : Machine Content :=
  Machine.start settings cells statics p.code

/-- Run a script for at most so many steps. -/
def run (settings : SettingsSlot) (fuel : Nat) (p : Program) : Machine Content :=
  Machine.run p.library fuel (p.start settings)

end Program

end EffectHandlers.Script
