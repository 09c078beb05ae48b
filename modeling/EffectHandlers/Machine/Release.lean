import EffectHandlers.Machine.State
/-!
# Releasing what is owned

Releasing the last share of a cell or an installation frees it and releases what it owns in turn.
Releasing a valid resumption discards its continuation. Releasing a parked fiber unwinds it: what
its activations own is released from the top down, and no code of it runs any more.
-/

namespace EffectHandlers.Machine

variable {ω : Type} [Contents ω]

/-- Release one share of a cell. -/
def releaseCell (m : Machine ω) (c : CellId) : Machine ω :=
  match m.cells.find? c with
  | none => m
  | some s =>
    if s.shares ≤ 1 then
      { m with cells := m.cells.erase c }.discard (Contents.owned s.content)
    else { m with cells := m.cells.modify c fun s => { s with shares := s.shares - 1 } }

/-- Release one share of an installation. The installation below goes before the handler. -/
def releaseInstallation (m : Machine ω) (i : InstallationId) : Machine ω :=
  match m.chain.installations.find? i with
  | none => m
  | some s =>
    if s.shares ≤ 1 then
      { m with
        chain := { m.chain with installations := m.chain.installations.erase i } }.release
        ((s.below.map Holding.installation).toList ++ [Holding.asset (.cell s.handler)])
    else { m with chain := m.chain.modify i fun s => { s with shares := s.shares - 1 } }

/-- Release one thing that a computation owned. -/
def releaseAsset (m : Machine ω) : Owned → Machine ω
  | .cell c => m.releaseCell c
  | .reference r =>
    match m.references.find? r with
    | none => m
    | some i => { m with references := m.references.erase r }.release [.installation i]
  | .closure f =>
    match m.closures.find? f with
    | none => m
    | some c => { m with closures := m.closures.erase f }.discard c.owned
  | .resumption r =>
    match m.resumptions.find? r with
    | none => m
    | some k =>
      (({ m with resumptions := m.resumptions.erase r }.bump .discarded).trace
        (.discarding k.answer)).release k.owned
  | .notice n => m.record n.event

/-- Release one thing. -/
def releaseOne (m : Machine ω) : Holding → Machine ω
  | .asset o => m.releaseAsset o
  | .installation i => m.releaseInstallation i
  | .fiber f =>
    match m.fibers.drop? f with
    | none => m
    | some (stack, fibers) => { m with fibers }.release (stack.flatMap Activation.owned)
  | .exchange e =>
    match m.exchanges.find? e with
    | none => m
    | some x =>
      { m with exchanges := m.exchanges.erase e }.discard
        ((x.command.map Command.owned).getD [] ++ (x.result.map Value.owned).getD [])

end EffectHandlers.Machine
