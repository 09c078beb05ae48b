import EffectHandlers.Chain.Basic
import EffectHandlers.Computation.Basic
/-!
# Dispatch

Where a command goes is decided on the chain alone. First the installation is located, by the
command, a label, a reference or a handler type; then it must declare the command.
-/

namespace EffectHandlers

namespace Chain

/-- Whether a referenced installation is on the chain and has not finished. -/
def isInstalled (c : Chain) (id : InstallationId) : Bool := !(c.get id).isRetired && c.isLive id

/-- The innermost installation with the label. -/
def locateLabel (c : Chain) (label : Int) (command : String) : Except Fault InstallationId :=
  match c.findLabel? label with
  | some id => .ok id
  | none => .error (.labelNotFound label command)

/-- A referenced installation, if it can be reached now. -/
def locateReference (c : Chain) (id : InstallationId) : Except Fault InstallationId :=
  if c.isInstalled id then .ok id
  else .error (.staleReference (c.get id).label (c.get id).name)

/-- The installation must be of the handler type. -/
def expectType (c : Chain) (handlerType : String) (id : InstallationId) :
    Except Fault InstallationId :=
  if (c.get id).handlerType == handlerType then .ok id
  else .error (.handlerMismatch handlerType (c.get id).name)

/-- The position of the clause for the command, which the installation must declare. -/
def clausePosition (c : Chain) (command : String) (id : InstallationId) :
    Except Fault (InstallationId × Nat) :=
  match (c.get id).clauseFor? command with
  | some entry => .ok (id, entry)
  | none => .error (.labelDoesNotHandle (c.get id).label (c.get id).name command)

/-- The installation and the position of the clause that a command is sent to. -/
def dispatch (c : Chain) (referent : ReferenceId → InstallationId) (command : String) :
    Target → Except Fault (InstallationId × Nat)
  | .innermost =>
    match c.findCommand? command with
    | some found => .ok found
    | none => .error (.noHandler command)
  | .labelled label => do c.clausePosition command (← c.locateLabel label command)
  | .reference r => do c.clausePosition command (← c.locateReference (referent r))
  | .ofType handlerType =>
    match c.findType? handlerType with
    | some id => c.clausePosition command id
    | none => .error (.noHandler command)
  | .labelledOfType handlerType label => do
    c.clausePosition command (← c.expectType handlerType (← c.locateLabel label command))
  | .referenceOfType handlerType r => do
    c.clausePosition command (← c.expectType handlerType (← c.locateReference (referent r)))

/-- The installation that a search finds. -/
def locate (c : Chain) : Search → Except Fault InstallationId
  | .command name =>
    match c.findCommand? name with
    | some (id, _) => .ok id
    | none => .error (.noHandler name)
  | .label label =>
    match c.findLabel? label with
    | some id => .ok id
    | none => .error (.noSuchLabel label)

/-- An explicit label must be positive, or one that was handed out before. -/
def checkLabel (c : Chain) (label : Int) : Except Fault Unit :=
  if label == bottomLabel || label == retiredLabel then .error (.reservedLabel label)
  else if c.isIssued label then .ok ()
  else .error (.unissuedLabel label)

end Chain

namespace HandlerType

/-- The first command that is declared twice. -/
def duplicate? : List String → List String → Option String
  | _, [] => none
  | seen, c :: rest => if c ∈ seen then some c else duplicate? (c :: seen) rest

/-- The entries an installation of the handler type gets. -/
def entries {ω : Type} (h : HandlerType ω) : List ClauseEntry :=
  h.clauses.map fun c =>
    { command := c.command, name := c.command, modifier := c.code.modifier,
      entryPoint := match c.code with
        | .plain _ => .inPlace
        | _ => .resuming }

end HandlerType

end EffectHandlers
