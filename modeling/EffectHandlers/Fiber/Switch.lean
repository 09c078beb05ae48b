import EffectHandlers.Store
/-!
# Switching between fibers

A thread runs one piece of code at a time. Code that resumes a fiber waits until that fiber hands
control back, by suspending or by finishing; the waiting pieces of code form a stack, the native
code of the thread at its bottom. `current` names the fiber that a suspension would park. Each
piece of waiting code remembers what `current` was for it, and gets it back with control.

The code itself is a parameter: all that matters here is who waits for whom.
-/

namespace EffectHandlers

/-- Number of a fiber; it is never reused. -/
abbrev FiberId := Nat

/-- A piece of code that waits for a fiber it has resumed. -/
structure Resumer (κ : Type) where
  /-- The fiber it waits for. -/
  fiber : FiberId
  /-- The fiber a suspension by this code would park; `none` for native code. -/
  current : Option FiberId
  code : κ

/-- The fibers of a thread, apart from the code that is running. -/
structure Fibers (κ : Type) where
  /-- The fibers that are not running and not waiting, with the code they go on with. -/
  parked : Store κ := {}
  /-- The fiber that code suspends when it suspends; `none` for native code. -/
  current : Option FiberId := none
  /-- The code that waits for a fiber, the most recent resumer first. -/
  resumers : List (Resumer κ) := []

namespace Fibers

variable {κ : Type}

instance : Inhabited (Fibers κ) := ⟨{}⟩

/-- Make a fiber that will run this code when it is first resumed. -/
def create (f : Fibers κ) (code : κ) : FiberId × Fibers κ :=
  let (id, parked) := f.parked.insert code
  (id, { f with parked })

/-- Resume a parked fiber from the running code, which waits; the result is the fiber's code. -/
def resume? (f : Fibers κ) (id : FiberId) (running : κ) : Option (κ × Fibers κ) :=
  (f.parked.find? id).map fun code =>
    (code,
      { parked := f.parked.erase id
        current := some id
        resumers := ⟨id, f.current, running⟩ :: f.resumers })

/-- Hand control back to the latest resumer, which gets its own `current` again. -/
def handBack? (f : Fibers κ) : Option (κ × Fibers κ) :=
  match f.resumers with
  | [] => none
  | r :: rest => some (r.code, { f with current := r.current, resumers := rest })

/-- Park the current fiber with the code it will go on with, and hand control back. -/
def suspend? (f : Fibers κ) (running : κ) : Option (κ × Fibers κ) :=
  f.current.bind fun id =>
    { f with parked := ⟨f.parked.next, (id, running) :: f.parked.entries⟩ }.handBack?

/-- Drop a parked fiber; the result is the code that will never go on. -/
def drop? (f : Fibers κ) (id : FiberId) : Option (κ × Fibers κ) :=
  (f.parked.find? id).map fun code => (code, { f with parked := f.parked.erase id })

end Fibers

end EffectHandlers
