import EffectHandlers.Store
import EffectHandlers.Chain.Modifier
/-!
# The chain of installations

Every `handle` puts an installation on top of a chain that ends in a bottom installation with
label 0. Installations are linked from the top down. Capturing a continuation cuts a run of
installations off the top (a *segment*); resuming puts the segment back on top of whatever the
chain holds then. Both change only the top and the link of the segment's lowest installation.

`Chain.toList` reads the links off as a list; the operations and searches are to be understood
through it.
-/

namespace EffectHandlers

/-- Number of an installation; it is never reused. -/
abbrev InstallationId := Nat

/-- Number of a shared cell; it is never reused. -/
abbrev CellId := Nat

/-- What code a declared clause offers to the dispatcher. -/
inductive EntryPoint where
  /-- No code: the installation was put on the chain by hand. -/
  | missing
  /-- Code that receives the captured continuation. -/
  | resuming
  /-- Code that runs in the place of the invocation. -/
  | inPlace
  deriving DecidableEq

/-- One command an installation declares. -/
structure ClauseEntry where
  /-- What commands are matched against. -/
  command : String
  /-- The command's name in listings and messages. -/
  name : String
  modifier : Modifier
  entryPoint : EntryPoint
  deriving DecidableEq

/-- One installation of a handler. -/
structure Installation where
  label : Int
  /-- The installation below; cut while this one is the lowest of a segment. -/
  below : Option InstallationId
  /-- The cell that holds the handler instance. -/
  handler : CellId
  /-- What searches by handler type are matched against. -/
  handlerType : String
  /-- The handler's name in listings and messages. -/
  name : String
  clauses : List ClauseEntry
  /-- How many owners keep the installation alive. -/
  shares : Nat
  deriving DecidableEq

/-- The label of the bottom installation, which no search by label finds. -/
def bottomLabel : Int := 0

/-- The label of an installation whose return clause has started. -/
def retiredLabel : Int := -9223372036854775808

namespace Installation

/-- Whether the return clause of the installation has started. -/
def isRetired (i : Installation) : Bool := i.label == retiredLabel

/-- Whether this is the installation that ends the chain. -/
def isBottom (i : Installation) : Bool := i.label == bottomLabel && i.below.isNone

/-- The position and entry of the first clause declared for the command. -/
def clauseFor? (i : Installation) (command : String) : Option Nat :=
  i.clauses.findIdx? (·.command == command)

/-- The installation that ends every chain. -/
def bottom : Installation where
  label := bottomLabel
  below := none
  handler := 0
  handlerType := "()"
  name := "<bottom>"
  clauses := []
  shares := 1

end Installation

/-- A run of installations cut off the chain, from its top down to its lowest. -/
structure Segment where
  top : InstallationId
  lowest : InstallationId
  deriving DecidableEq

/-- All installations of a thread, the one on top of the chain, and the next fresh label. -/
structure Chain where
  installations : Store Installation
  top : InstallationId
  nextLabel : Int

namespace Chain

/-- The chain of a new thread: only the bottom installation. -/
def initial : Chain where
  installations := Store.ofList [Installation.bottom]
  top := 0
  nextLabel := -1

instance : Inhabited Chain := ⟨initial⟩

/-- The installation with this number; one that was freed reads as the bottom. -/
def get (c : Chain) (id : InstallationId) : Installation :=
  (c.installations.find? id).getD Installation.bottom

/-- Change one installation. -/
def modify (c : Chain) (id : InstallationId) (f : Installation → Installation) : Chain :=
  { c with installations := c.installations.modify id f }

/-- Follow the links down from an installation, at most this many of them. -/
def follow (c : Chain) : Nat → InstallationId → List InstallationId
  | 0, _ => []
  | n + 1, id =>
    match (c.get id).below with
    | none => [id]
    | some next => id :: c.follow n next

/-- The chain read from the top down to its end. -/
def toList (c : Chain) : List InstallationId := c.follow c.installations.next c.top

/-- The installations on the chain without the bottom one, top first. -/
def live (c : Chain) : List InstallationId :=
  c.toList.takeWhile fun id => !(c.get id).isBottom

/-- Search down from an installation for the first one that satisfies the test. -/
def searchFrom (c : Chain) (p : InstallationId → Installation → Bool) :
    Nat → InstallationId → Option InstallationId
  | 0, _ => none
  | n + 1, id =>
    let i := c.get id
    if i.isBottom then none
    else if p id i then some id
    else i.below.bind (c.searchFrom p n)

/-- The innermost live installation that satisfies the test. -/
def search? (c : Chain) (p : InstallationId → Installation → Bool) : Option InstallationId :=
  c.searchFrom p c.installations.next c.top

/-- The innermost live installation that declares the command, with the position of the clause. -/
def findCommand? (c : Chain) (command : String) : Option (InstallationId × Nat) := do
  let id ← c.search? fun _ i => (i.clauseFor? command).isSome
  let entry ← (c.get id).clauseFor? command
  return (id, entry)

/-- The innermost live installation with the label; the two reserved labels are never found. -/
def findLabel? (c : Chain) (label : Int) : Option InstallationId :=
  if label == bottomLabel || label == retiredLabel then none
  else c.search? fun _ i => i.label == label

/-- The innermost live installation of the handler type. -/
def findType? (c : Chain) (handlerType : String) : Option InstallationId :=
  c.search? fun _ i => i.handlerType == handlerType

/-- Whether the installation is on the chain. -/
def isLive (c : Chain) (id : InstallationId) : Bool := (c.search? fun n _ => n == id).isSome

/-- How many installations are on the chain, the bottom one not counted. -/
def depth (c : Chain) : Nat := c.live.length

/-- Make an installation that is not on the chain yet. -/
def create (c : Chain) (i : Installation) : InstallationId × Chain :=
  let (id, installations) := c.installations.insert i
  (id, { c with installations })

/-- Put an installation on top. -/
def push (c : Chain) (id : InstallationId) : Chain :=
  { c.modify id fun i => { i with below := some c.top } with top := id }

/-- Take the top installation off; the bottom one cannot be taken. -/
def pop? (c : Chain) : Option (InstallationId × Chain) :=
  (c.get c.top).below.map fun below =>
    (c.top, { c.modify c.top fun i => { i with below := none } with top := below })

/-- Why a segment could not be cut off. -/
inductive SplitFailure where
  /-- The installation is not on the chain. -/
  | notLive
  /-- The installation is the end of the chain. -/
  | atBottom
  deriving DecidableEq

/-- Cut off the installation and everything above it. -/
def split (c : Chain) (lowest : InstallationId) : Except SplitFailure (Segment × Chain) :=
  if c.isLive lowest then
    match (c.get lowest).below with
    | none => .error .atBottom
    | some below =>
      .ok (⟨c.top, lowest⟩,
        { c.modify lowest fun i => { i with below := none } with top := below })
  else .error .notLive

/-- Put a segment back on top. -/
def splice (c : Chain) (s : Segment) : Chain :=
  { c.modify s.lowest fun i => { i with below := some c.top } with top := s.top }

/-- Count the installations from one down to the lowest of a segment. -/
def countDown (c : Chain) (lowest : InstallationId) : Nat → InstallationId → Nat
  | 0, _ => 1
  | n + 1, id =>
    if id == lowest then 1
    else match (c.get id).below with
      | none => 1
      | some next => c.countDown lowest n next + 1

/-- How many installations a segment holds. -/
def segmentLength (c : Chain) (s : Segment) : Nat :=
  c.countDown s.lowest c.installations.next s.top

/-- Mark an installation as finished. -/
def retire (c : Chain) (id : InstallationId) : Chain :=
  c.modify id fun i => { i with label := retiredLabel }

/-- A label that no other installation has received. Fresh labels are negative. -/
def freshLabel (c : Chain) : Int × Chain :=
  (c.nextLabel, { c with nextLabel := c.nextLabel - 1 })

/-- Whether the label lies above the fresh labels still to come and is not the retired label. -/
def isIssued (c : Chain) (label : Int) : Bool :=
  label > 0 || (label != retiredLabel && label > c.nextLabel)

end Chain

end EffectHandlers
