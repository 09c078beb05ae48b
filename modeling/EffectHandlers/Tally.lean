/-!
# Tallies of runtime events

Eight kinds of events are counted. A tally holds one number for each kind; the difference of two
tallies measures what happened in between.
-/

namespace EffectHandlers

/-- The kinds of events that are counted. -/
inductive Counter where
  /-- A handler was installed. -/
  | handles
  /-- A continuation was captured for a clause. -/
  | captures
  /-- A resumption was resumed directly. -/
  | resumes
  /-- A resumption was left to the loop that runs tail resumes. -/
  | tailResumes
  /-- A plain clause ran. -/
  | plainDispatches
  /-- A continuation was dropped without being resumed. -/
  | discarded
  /-- A fiber was created. -/
  | fibersCreated
  /-- A fiber's stack came from the pool. -/
  | stacksReused
  deriving DecidableEq

/-- One number for each kind of event. -/
structure Tally where
  handles : Nat := 0
  captures : Nat := 0
  resumes : Nat := 0
  tailResumes : Nat := 0
  plainDispatches : Nat := 0
  discarded : Nat := 0
  fibersCreated : Nat := 0
  stacksReused : Nat := 0
  deriving DecidableEq

namespace Tally

/-- Count a number of events of one kind. -/
def add (t : Tally) (n : Nat) : Counter → Tally
  | .handles => { t with handles := t.handles + n }
  | .captures => { t with captures := t.captures + n }
  | .resumes => { t with resumes := t.resumes + n }
  | .tailResumes => { t with tailResumes := t.tailResumes + n }
  | .plainDispatches => { t with plainDispatches := t.plainDispatches + n }
  | .discarded => { t with discarded := t.discarded + n }
  | .fibersCreated => { t with fibersCreated := t.fibersCreated + n }
  | .stacksReused => { t with stacksReused := t.stacksReused + n }

/-- Count one event. -/
def bump (t : Tally) (c : Counter) : Tally := t.add 1 c

/-- The numbers in the order of the counters. -/
def toList (t : Tally) : List Nat :=
  [t.handles, t.captures, t.resumes, t.tailResumes, t.plainDispatches, t.discarded,
    t.fibersCreated, t.stacksReused]

/-- Counter-wise sum. -/
def plus (a b : Tally) : Tally where
  handles := a.handles + b.handles
  captures := a.captures + b.captures
  resumes := a.resumes + b.resumes
  tailResumes := a.tailResumes + b.tailResumes
  plainDispatches := a.plainDispatches + b.plainDispatches
  discarded := a.discarded + b.discarded
  fibersCreated := a.fibersCreated + b.fibersCreated
  stacksReused := a.stacksReused + b.stacksReused

/-- Difference of two counts; a count cannot have gone down. -/
private def less (a b : Nat) : Option Nat := if b ≤ a then some (a - b) else none

/-- Counter-wise difference, undefined when some counter would go below zero. -/
def since? (a b : Tally) : Option Tally := do
  let handles ← less a.handles b.handles
  let captures ← less a.captures b.captures
  let resumes ← less a.resumes b.resumes
  let tailResumes ← less a.tailResumes b.tailResumes
  let plainDispatches ← less a.plainDispatches b.plainDispatches
  let discarded ← less a.discarded b.discarded
  let fibersCreated ← less a.fibersCreated b.fibersCreated
  let stacksReused ← less a.stacksReused b.stacksReused
  return { handles, captures, resumes, tailResumes, plainDispatches, discarded, fibersCreated,
           stacksReused }

/-- How many continuations count as settled: resumed, tail-resumed or discarded. -/
def settled (t : Tally) : Nat := t.resumes + t.tailResumes + t.discarded

end Tally

end EffectHandlers
