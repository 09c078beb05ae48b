import EffectHandlers.Tally
import EffectHandlers.Word
/-!
# Counting sessions

A session counts events on its own thread and on others, and reads the tallies back. The tally
of the process adds up all threads.
-/

namespace EffectHandlers.CountingSession

/-- One step of a session. -/
inductive Action where
  | bump (counter : Counter) (n : Nat)
  /-- Count on a thread of its own, which ends at once. -/
  | bumpElsewhere (counter : Counter) (n : Nat)
  | thread
  | process
  /-- Remember the thread's tally. -/
  | mark
  /-- The tally since the mark. -/
  | since
  | difference (a b : Tally)

/-- The tallies of a session. -/
structure State where
  thread : Tally := {}
  elsewhere : Tally := {}
  marked : Tally := {}

/-- One step: the tally it shows, if any, and the next state; a difference may overflow. -/
def step (s : State) : Action → Except String (Option Tally × State)
  | .bump c n => .ok (none, { s with thread := s.thread.add n c })
  | .bumpElsewhere c n =>
    .ok (some (({} : Tally).add n c), { s with elsewhere := s.elsewhere.add n c })
  | .thread => .ok (some s.thread, s)
  | .process => .ok (some (s.thread.plus s.elsewhere), s)
  | .mark => .ok (none, { s with marked := s.thread })
  | .since => shown s (s.thread.since? s.marked)
  | .difference a b => shown s (a.since? b)
where
  shown (s : State) : Option Tally → Except String (Option Tally × State)
    | some t => .ok (some t, s)
    | none => .error (Word.overflow "subtract")

/-- Run a session: what its steps showed, and the thread's tally or the text of the panic. -/
def run (s : State) : List Action → List (Option Tally) × Except String Tally
  | [] => ([], .ok s.thread)
  | a :: rest =>
    match step s a with
    | .error text => ([], .error text)
    | .ok (shown, s) =>
      let (later, result) := run s rest
      (shown :: later, result)

end EffectHandlers.CountingSession
