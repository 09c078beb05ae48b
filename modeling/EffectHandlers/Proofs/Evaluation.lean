import EffectHandlers.Proofs.Actions
import EffectHandlers.Proofs.Drivers
import EffectHandlers.Proofs.Orderly
/-!
# Deep handlers

What programs mean, without a chain, fibers or ownership. A computation is evaluated in a single
context. `handle h v` goes on with the return clause of `h`; `handle h E[c]`, where the command `c`
is dispatched to `h`, goes on with the clause for `c`, which may get the continuation
`handle h E[·]`. Resuming puts the continuation on top of whatever context there is then. Nothing
is ever dropped.
-/

namespace EffectHandlers

/-- One frame of an evaluation context. -/
inductive Frame (ω : Type) where
  | bind (next : Value → Comp ω)
  | catching (next : Except String Value → Comp ω)
  | looping (body next : Value → Comp ω)
  /-- The body of an installation. -/
  | handling (i : InstallationId)
  /-- A clause, a return clause or a resumed closure, with the name of its answer type. -/
  | answering (answer : String)
  /-- A plain clause, from which its installation and those above it are hidden. -/
  | plain (i : InstallationId)

namespace Frame

variable {ω : Type}

/-- Whether this is the body of the installation. -/
def handles (i : InstallationId) : Frame ω → Bool
  | handling j => j == i
  | _ => false

/-- Whether this is the body of some installation. -/
def isHandling : Frame ω → Bool
  | handling _ => true
  | _ => false

/-- What a frame does to the list of installations that are visible below it. -/
def expose : Frame ω → List InstallationId → List InstallationId
  | handling i, is => i :: is
  | plain i, is => dropThrough i is
  | _, is => is

end Frame

/-- The installations that code in a context sees, innermost first. -/
def visible {ω : Type} (F : List (Frame ω)) : List InstallationId := F.foldr Frame.expose []

/-- The part of a context down to and including the body of an installation. -/
def within {ω : Type} (i : InstallationId) (F : List (Frame ω)) : List (Frame ω) :=
  F.takeWhile (!·.handles i) ++ [.handling i]

/-- The part of a context below the body of an installation. -/
def beneath {ω : Type} (i : InstallationId) (F : List (Frame ω)) : List (Frame ω) :=
  (F.dropWhile (!·.handles i)).tail

/-- What a resumption goes on with. -/
inductive Continuation (ω : Type) where
  /-- The context that was captured, with its handler at the bottom. -/
  | context (answer : String) (frames : List (Frame ω))
  | function (answer : String) (body : Value → Comp ω)

/-- The name of the type of the continuation's answer. -/
def Continuation.answer {ω : Type} : Continuation ω → String
  | context a _ => a
  | function a _ => a

/-- An installed handler. -/
structure Handler where
  label : Int
  name : String
  handlerType : String
  /-- The cell of the handler instance. -/
  cell : CellId
  deriving DecidableEq

/-- What stands for a handler that was never installed. -/
def Handler.bottom : Handler := ⟨bottomLabel, "<bottom>", "()", 0⟩

/-- The code of the clause that the handler declares for a command. -/
def Handler.clauseFor? {ω : Type} (Γ : Library ω) (h : Handler) (command : String) :
    Option (ClauseCode ω) :=
  ((Γ.handlerType h.handlerType).clauses.find? (·.command == command)).map (·.code)

/-- How an evaluation goes on. -/
inductive Phase (ω : Type) where
  | eval (c : Comp ω)
  /-- Give a value to the top frame. -/
  | ret (v : Value)
  /-- Put a continuation on top of the context and give it a value. -/
  | resume (k : Continuation ω) (v : Value)
  | finished (v : Value)
  | failed (f : Fault)

/-- A computation that is being evaluated. -/
structure Evaluation (ω : Type) where
  /-- The context, top first. -/
  frames : List (Frame ω) := []
  cells : Store ω := {}
  closures : Store (Value → Comp ω) := {}
  references : Store InstallationId := {}
  /-- All handlers that were ever installed. -/
  installed : Store Handler := {}
  resumptions : Store (Continuation ω) := {}
  /-- The tail resume that waits for the end of the running clause, with its value. -/
  pending : Option (Continuation ω × Value) := none
  nextLabel : Int := -1
  declared : List String := []
  /-- The actions so far, newest first. -/
  actions : List Event := []
  phase : Phase ω

namespace Evaluation

variable {ω : Type}

/-- A computation that is about to be evaluated, with some cells to begin with. -/
def start (cells : List ω) (main : Comp ω) : Evaluation ω :=
  { cells := cells.foldl (fun s content => (s.insert content).2) { next := 1 }
    references := { next := emptyReference + 1 }
    installed := { next := 1 }
    resumptions := { next := emptyResumption + 1 }
    phase := .eval main }

/-- Go on this way. -/
def goOn (s : Evaluation ω) (phase : Phase ω) : Evaluation ω := { s with phase }

/-- End with a fault. -/
def fail (s : Evaluation ω) (f : Fault) : Evaluation ω := s.goOn (.failed f)

/-- Put a frame on top of the context. -/
def push (s : Evaluation ω) (f : Frame ω) : Evaluation ω := { s with frames := f :: s.frames }

/-! ### Where commands go -/

/-- The installed handler with this number. -/
def handler (s : Evaluation ω) (i : InstallationId) : Handler :=
  (s.installed.find? i).getD Handler.bottom

/-- The handler that a reference refers to. -/
def referent (s : Evaluation ω) (r : ReferenceId) : InstallationId :=
  (s.references.find? r).getD 0

/-- The innermost visible installation whose handler satisfies the test. -/
def innermost? (s : Evaluation ω) (p : Handler → Bool) : Option InstallationId :=
  (visible s.frames).find? fun i => p (s.handler i)

/-- The innermost visible installation with the label, if it can be found by label. -/
def labelled? (s : Evaluation ω) (label : Int) : Option InstallationId :=
  if label == bottomLabel || label == retiredLabel then none
  else s.innermost? (·.label == label)

/-- Whether an installation is visible and its return clause has not started. -/
def isInstalled (s : Evaluation ω) (i : InstallationId) : Bool :=
  !((s.handler i).label == retiredLabel) && decide (i ∈ visible s.frames)

/-- A referenced installation, if it can be reached now. -/
def reach (s : Evaluation ω) (i : InstallationId) : Except Fault InstallationId :=
  if s.isInstalled i then .ok i
  else .error (.staleReference (s.handler i).label (s.handler i).name)

/-- The installation must be of the handler type. -/
def expectType (s : Evaluation ω) (handlerType : String) (i : InstallationId) :
    Except Fault InstallationId :=
  if (s.handler i).handlerType == handlerType then .ok i
  else .error (.handlerMismatch handlerType (s.handler i).name)

/-- The installation that a command is sent to. -/
def locate (Γ : Library ω) (s : Evaluation ω) (command : String) :
    Target → Except Fault InstallationId
  | .innermost => (s.innermost? fun h => (h.clauseFor? Γ command).isSome).elim
      (.error (.noHandler command)) .ok
  | .labelled label => (s.labelled? label).elim (.error (.labelNotFound label command)) .ok
  | .reference r => s.reach (s.referent r)
  | .ofType handlerType => (s.innermost? (·.handlerType == handlerType)).elim
      (.error (.noHandler command)) .ok
  | .labelledOfType handlerType label =>
    (s.labelled? label).elim (.error (.labelNotFound label command)) (s.expectType handlerType)
  | .referenceOfType handlerType r => do s.expectType handlerType (← s.reach (s.referent r))

/-- The installation that a command is sent to, with the code of its clause. -/
def dispatch (Γ : Library ω) (s : Evaluation ω) (command : String) (target : Target) :
    Except Fault (InstallationId × ClauseCode ω) := do
  let i ← s.locate Γ command target
  match (s.handler i).clauseFor? Γ command with
  | some code => return (i, code)
  | none => .error (.labelDoesNotHandle (s.handler i).label (s.handler i).name command)

/-- The installation that a search finds. -/
def search (Γ : Library ω) (s : Evaluation ω) : Search → Except Fault InstallationId
  | .command name => (s.innermost? fun h => (h.clauseFor? Γ name).isSome).elim
      (.error (.noHandler name)) .ok
  | .label label => (s.labelled? label).elim (.error (.noSuchLabel label)) .ok

/-! ### Operations -/

/-- Whether the label was handed out, or can be chosen freely. -/
def isIssued (s : Evaluation ω) (label : Int) : Bool :=
  label > 0 || (label != retiredLabel && label > s.nextLabel)

/-- The label of a new installation, and the next fresh label. -/
def chooseLabel (s : Evaluation ω) : Option Int → Except Fault (Int × Int)
  | none => .ok (s.nextLabel, s.nextLabel - 1)
  | some label =>
    if label == bottomLabel || label == retiredLabel then .error (.reservedLabel label)
    else if s.isIssued label then .ok (label, s.nextLabel)
    else .error (.unissuedLabel label)

/-- The declared handler types once this one is among them. -/
def declare (s : Evaluation ω) (name : String) (h : HandlerType ω) :
    Except Fault (List String) :=
  if name ∈ s.declared then .ok s.declared
  else
    match HandlerType.duplicate? [] (h.clauses.map (·.command)) with
    | some command => .error (.duplicateClause name command)
    | none => .ok (name :: s.declared)

/-- Evaluate a body under a handler. -/
def install (Γ : Library ω) (s : Evaluation ω) (i : Installing) (body : ReferenceId → Comp ω) :
    Evaluation ω :=
  match s.chooseLabel i.label with
  | .error f => s.fail f
  | .ok (label, nextLabel) =>
  match s.declare i.handlerType (Γ.handlerType i.handlerType) with
  | .error f => s.fail f
  | .ok declared =>
    let (id, installed) := s.installed.insert ⟨label, i.handlerType, i.handlerType, i.handler⟩
    let (this, references) := s.references.insert id
    { s with
      frames := .handling id :: s.frames, installed, references, nextLabel, declared
      phase := .eval (body this) }

/-- Evaluate the clause for a command. A plain clause stands in the place of the invocation; any
other one stands in the place of the handler, and may get what it has replaced. -/
def runClause (Γ : Library ω) (s : Evaluation ω) (i : InstallationId) (command : Command) :
    ClauseCode ω → Evaluation ω
  | .plain run => (s.push (.plain i)).goOn (.eval (run (s.handler i).cell command.payload))
  | code =>
    let answer := (Γ.handlerType (s.handler i).handlerType).answer
    { s with
      frames := .answering answer :: beneath i s.frames
      resumptions :=
        if code.takes then (s.resumptions.insert (.context answer (within i s.frames))).2
        else s.resumptions
      phase := .eval (code.body (s.handler i).cell command.payload s.resumptions.next) }

/-- Take a continuation out of its resumption. -/
def taken (s : Evaluation ω) (r : ResumptionId) : Evaluation ω :=
  { s with resumptions := s.resumptions.erase r }

/-- Leave a number of the resumptions unused. -/
def skipResumption (s : Evaluation ω) : Evaluation ω :=
  { s with resumptions := { s.resumptions with next := s.resumptions.next + 1 } }

/-- Answer a question; nothing is known of the pool of stacks. -/
def answer? (s : Evaluation ω) : Query → Option (Value × Evaluation ω)
  | .depth => some (.int (visible s.frames).length, s)
  | .inFiber => some (.bool (s.frames.any Frame.isHandling), s)
  | .pooledStacks => none
  | .isPending => some (.bool s.pending.isSome, s)
  | .freshLabel => some (.int s.nextLabel, { s with nextLabel := s.nextLabel - 1 })
  | .isIssued label => some (.bool (s.isIssued label), s)
  | .isInstalled r => some (.bool (s.isInstalled (s.referent r)), s)
  | .labelOf r => some (.int (s.handler (s.referent r)).label, s)
  | .isValid r => some (.bool (s.resumptions.contains r), s)

/-- Evaluate one operation. Operations outside of the interface for effects have no meaning. -/
def eval [Inhabited ω] (Γ : Library ω) (s : Evaluation ω) : Comp ω → Evaluation ω
  | .done v => s.goOn (.ret v)
  | .record e next =>
    { s with actions := if e.isAction then e :: s.actions else s.actions }.goOn (.eval next)
  | .alloc content next =>
    let (id, cells) := s.cells.insert content
    { s with cells }.goOn (.eval (next id))
  | .read c next => s.goOn (.eval (next ((s.cells.find? c).getD default)))
  | .write c content next =>
    { s with cells := s.cells.modify c fun _ => content }.goOn (.eval next)
  | .retain _ next | .release _ next | .view _ next | .print _ next => s.goOn (.eval next)
  | .scope _ body next => (s.push (.bind next)).goOn (.eval body)
  | .catching body next => (s.push (.catching next)).goOn (.eval body)
  | .loop seed body next => (s.push (.looping body next)).goOn (.eval (body seed))
  | .call procedure arg next => (s.push (.bind next)).goOn (.eval (Γ.procedure procedure arg))
  | .closure _ body next =>
    let (id, closures) := s.closures.insert body
    { s with closures }.goOn (.eval (next id))
  | .apply f arg next =>
    match s.closures.find? f with
    | some body =>
      { s.push (.bind next) with closures := s.closures.erase f }.goOn (.eval (body arg))
    | none => (s.push (.bind next)).goOn (.ret .unit)
  | .handle i body next => (s.push (.bind next)).install Γ i body
  | .invoke target command next =>
    match s.dispatch Γ command.name target with
    | .error f => s.fail f
    | .ok (i, code) => (s.push (.bind next)).runClause Γ i command code
  | .find search next =>
    match s.search Γ search with
    | .error f => s.fail f
    | .ok i =>
      let (r, references) := s.references.insert i
      { s with references }.goOn (.eval (next r))
  | .copy r next =>
    match s.references.find? r with
    | none =>
      let id := s.references.next
      { s with references := { s.references with next := id + 1 } }.goOn (.eval (next id))
    | some i =>
      let (id, references) := s.references.insert i
      { s with references }.goOn (.eval (next id))
  | .function answer f next =>
    match s.closures.find? f with
    | none => s.skipResumption.goOn (.eval (next s.resumptions.next))
    | some body =>
      let (id, resumptions) := s.resumptions.insert (.function answer body)
      { s with closures := s.closures.erase f, resumptions }.goOn (.eval (next id))
  | .take r next =>
    match s.resumptions.find? r with
    | none => s.skipResumption.goOn (.eval (next s.resumptions.next))
    | some k =>
      let (id, resumptions) := (s.resumptions.erase r).insert k
      { s with resumptions }.goOn (.eval (next id))
  | .resume r v next =>
    match s.resumptions.find? r with
    | none => s.fail .resumeEmpty
    | some k => ((s.taken r).push (.bind next)).goOn (.resume k v)
  | .tailResume r v next =>
    match s.resumptions.find? r, s.pending with
    | none, _ => s.fail .resumeEmpty
    | some k, none => { s.taken r with pending := some (k, v) }.goOn (.eval next)
    | some _, some _ => s.fail .tailSlotOccupied
  | .ask q next =>
    match s.answer? q with
    | some (v, s) => s.goOn (.eval (next v))
    | none => s
  | .panic _ | .pushBare .. | .popBare _ => s

/-- Give a value to the top frame. The body of a handler is followed by the return clause; where
code has answered, a tail resume may wait. -/
def give (Γ : Library ω) (s : Evaluation ω) (v : Value) : Evaluation ω :=
  match s.frames with
  | [] => s.goOn (.finished v)
  | f :: frames =>
    let s := { s with frames }
    match f with
    | .bind next => s.goOn (.eval (next v))
    | .catching next => s.goOn (.eval (next (.ok v)))
    | .looping body next =>
      match v with
      | .pair (.bool true) seed => (s.push (.looping body next)).goOn (.eval (body seed))
      | .pair _ result => s.goOn (.eval (next result))
      | _ => s.goOn (.eval (next v))
    | .handling i =>
      let h := Γ.handlerType (s.handler i).handlerType
      { s.push (.answering h.answer) with
        installed := s.installed.modify i fun x => { x with label := retiredLabel }
        phase := .eval (h.onReturn (s.handler i).cell v) }
    | .answering answer =>
      match s.pending with
      | none => s.goOn (.ret v)
      | some (k, w) =>
        if k.answer = answer then { s with pending := none }.goOn (.resume k w)
        else s.fail (.tailResumeMismatch answer)
    | .plain _ => s.goOn (.ret v)

/-- Put a continuation on top of the context and give it a value. -/
def enter (s : Evaluation ω) (k : Continuation ω) (v : Value) : Evaluation ω :=
  match k with
  | .context _ frames => { s with frames := frames ++ s.frames }.goOn (.ret v)
  | .function answer body => (s.push (.answering answer)).goOn (.eval (body v))

/-- One step of an evaluation. -/
def step [Inhabited ω] (Γ : Library ω) (s : Evaluation ω) : Evaluation ω :=
  match s.phase with
  | .eval c => s.eval Γ c
  | .ret v => s.give Γ v
  | .resume k v => s.enter k v
  | .finished _ | .failed _ => s

/-- How an evaluation has ended: with a value or with a fault. -/
def ending (s : Evaluation ω) : Option (Except Fault Value) :=
  match s.phase with
  | .finished v => some (.ok v)
  | .failed f => some (.error f)
  | _ => none

end Evaluation

end EffectHandlers
