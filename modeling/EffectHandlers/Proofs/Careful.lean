import EffectHandlers.Proofs.Evaluating
/-!
# Careful programs

What a computation uses belongs to it, so a program never uses what was dropped. Here this is said
about a run: at some step the last share of a cell, or a reference, closure or resumption goes,
and no operation that is evaluated later mentions it.
-/

namespace EffectHandlers

variable {ω : Type}

/-- What is used to find the installation that a command is sent to. -/
def Target.uses : Target → List Owned
  | reference r | referenceOfType _ r => [.reference r]
  | _ => []

/-- What a question is about. -/
def Query.uses : Query → List Owned
  | isInstalled r | labelOf r => [.reference r]
  | isValid r => [.resumption r]
  | _ => []

/-- What the first operation of a computation uses, other than to hold it or to give it up. -/
def Comp.uses : Comp ω → List Owned
  | read c _ | write c _ _ => [.cell c]
  | apply f _ _ | function _ f _ => [.closure f]
  | copy r _ => [.reference r]
  | invoke target _ _ => target.uses
  | take r _ | resume r _ _ | tailResume r _ _ => [.resumption r]
  | ask q _ => q.uses
  | _ => []

/-- Whether the first operation of a computation asks how many stacks are pooled. -/
def Comp.asksPool : Comp ω → Bool
  | ask .pooledStacks _ => true
  | _ => false

namespace Machine

/-- Whether something that can be owned is there. -/
def holds (m : Machine ω) : Owned → Bool
  | .cell c => m.cells.contains c
  | .reference r => m.references.contains r
  | .closure f => m.closures.contains f
  | .resumption r => m.resumptions.contains r
  | .notice _ => false

/-- What the operation uses that is evaluated in the next step, if there is one. -/
def uses (m : Machine ω) : List Owned :=
  match m.releasing, m.control with
  | [], .eval c => c.uses
  | _, _ => []

/-- Whether the operation that is evaluated in the next step asks how many stacks are pooled. -/
def asksPool (m : Machine ω) : Bool :=
  match m.releasing, m.control with
  | [], .eval c => c.asksPool
  | _, _ => false

variable [Contents ω]

/-- The next step drops something: it is released, and it is not there any more. -/
def Drops (Γ : Library ω) (m : Machine ω) (o : Owned) : Prop :=
  m.releasing.head? = some (.asset o) ∧ m.holds o = true ∧ (m.step Γ).holds o = false

/-- What is dropped in so many steps. -/
def Dropped (Γ : Library ω) (m : Machine ω) (n : Nat) (o : Owned) : Prop :=
  ∃ k < n, (m.run Γ k).Drops Γ o

/-- The operations that a thread evaluates use nothing that was dropped before, and do not depend
on the pool of stacks. -/
def Careful (Γ : Library ω) (m : Machine ω) : Prop :=
  ∀ n, (∀ o ∈ (m.run Γ n).uses, ¬ m.Dropped Γ n o) ∧ (m.run Γ n).asksPool = false

end Machine

end EffectHandlers
