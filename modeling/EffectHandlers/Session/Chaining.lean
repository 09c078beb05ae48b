import EffectHandlers.Chain.Listing
import EffectHandlers.Fault
/-!
# Chain sessions

A session works on a chain directly: it pushes installations, cuts segments off and puts them
back, and looks at the result. Installations go by the order in which they were pushed, the
bottom one by -1; segments by the order in which they were cut off.
-/

namespace EffectHandlers.ChainSession

/-- One step of a session. -/
inductive Action where
  | push (label : Int) (name handlerType : String) (clauses : List ClauseEntry)
  /-- Push an installation again that was popped. -/
  | repush (frame : Int)
  | pop
  | split (frame : Int)
  | splice (segment : Nat)
  | drop (segment : Nat)
  | count (segment : Nat)
  | findCommand (command : String)
  | findLabel (label : Int)
  | findType (handlerType : String)
  | contains (frame : Int)
  | depth
  | snapshot
  | write
  | top
  | retire (frame : Int)
  | isRetired (frame : Int)
  | label (frame : Int)
  | name (frame : Int)
  | isType (frame : Int) (handlerType : String)
  | clauses (frame : Int)
  | fresh
  | isIssued (label : Int)

/-- What a step shows. -/
inductive Entry where
  | none
  | number (n : Int)
  | found (frame : Int) (position : Nat)
  | segment (length : Nat) (lowest : Int)
  | flag (b : Bool)
  | name (s : String)
  | snapshot (installations : List (Int × String))
  | lines (ls : List String)
  | clauses (cs : List (String × Modifier × Option Nat))

/-- How a session can fail. -/
inductive Failure where
  | fatal (fault : Fault)
  | panic (message : String)

/-- The text of the panic when a segment is cut below an installation that is not on the chain. -/
def splitPanic : String := "split below a frame not on the metastack"

/-- A chain and the segments cut off it. -/
structure State where
  chain : Chain := Chain.initial
  segments : Store Segment := {}

/-- The installation a session means by a number. -/
def idOf (frame : Int) : InstallationId := (frame + 1).toNat

/-- The number of an installation in a session. -/
def frameOf (id : InstallationId) : Int := (id : Int) - 1

namespace State

/-- Apply something to a segment that is cut off. -/
def segment (s : State) (n : Nat) : Segment := (s.segments.find? n).getD ⟨0, 0⟩

/-- One step of a session. -/
def step (s : State) : Action → Except Failure (Entry × State)
  | .push label name handlerType clauses =>
    let (id, chain) :=
      s.chain.create { Installation.bottom with label, name, handlerType, clauses }
    .ok (.number (frameOf id), { s with chain := chain.push id })
  | .repush frame => .ok (.number frame, { s with chain := s.chain.push (idOf frame) })
  | .pop =>
    match s.chain.pop? with
    | some (id, chain) => .ok (.number (frameOf id), { s with chain })
    | none =>
      .error (.fatal (.internal "attempted to pop the bottom of the metastack"))
  | .split frame =>
    match s.chain.split (idOf frame) with
    | .ok (segment, chain) =>
      .ok (.segment (chain.segmentLength segment) (frameOf segment.lowest),
        { chain, segments := (s.segments.insert segment).2 })
    | .error .notLive => .error (.panic splitPanic)
    | .error .atBottom =>
      .error (.fatal (.internal "attempted to split off the bottom of the metastack"))
  | .splice n =>
    let chain := s.chain.splice (s.segment n)
    .ok (.number chain.depth, { chain, segments := s.segments.erase n })
  | .drop n => .ok (.none, { s with segments := s.segments.erase n })
  | .count n => .ok (.number (s.chain.segmentLength (s.segment n)), s)
  | .findCommand command =>
    .ok (match s.chain.findCommand? command with
      | some (id, position) => .found (frameOf id) position
      | none => .none, s)
  | .findLabel label => .ok (frame (s.chain.findLabel? label), s)
  | .findType handlerType => .ok (frame (s.chain.findType? handlerType), s)
  | .contains frame => .ok (.flag (s.chain.isLive (idOf frame)), s)
  | .depth => .ok (.number s.chain.depth, s)
  | .snapshot => .ok (.snapshot s.chain.snapshot, s)
  | .write => .ok (.lines s.chain.listing, s)
  | .top => .ok (.number (frameOf s.chain.top), s)
  | .retire frame => .ok (.none, { s with chain := s.chain.retire (idOf frame) })
  | .isRetired frame => .ok (.flag (s.chain.get (idOf frame)).isRetired, s)
  | .label frame => .ok (.number (s.chain.get (idOf frame)).label, s)
  | .name frame => .ok (.name (s.chain.get (idOf frame)).name, s)
  | .isType frame handlerType =>
    .ok (.flag ((s.chain.get (idOf frame)).handlerType == handlerType), s)
  | .clauses frame =>
    let i := s.chain.get (idOf frame)
    .ok (.clauses (i.clauses.map fun e => (e.name, e.modifier, i.clauseFor? e.command)), s)
  | .fresh =>
    let (label, chain) := s.chain.freshLabel
    .ok (.number label, { s with chain })
  | .isIssued label => .ok (.flag (s.chain.isIssued label), s)
where
  frame : Option InstallationId → Entry
    | some id => .number (frameOf id)
    | none => .none

/-- Run a session: what its steps showed, the last chain, and why it failed, if it did. -/
def run (s : State) : List Action → List Entry × Chain × Option Failure
  | [] => ([], s.chain, none)
  | a :: rest =>
    match s.step a with
    | .error failure => ([], s.chain, some failure)
    | .ok (entry, s) =>
      let (later, chain, failure) := s.run rest
      (entry :: later, chain, failure)

end State

end EffectHandlers.ChainSession
