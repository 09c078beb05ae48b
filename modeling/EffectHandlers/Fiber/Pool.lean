import EffectHandlers.Tally
import EffectHandlers.Settings.Fixed
/-!
# The stack pool

A new fiber takes its stack from the thread's pool, or a fresh one when the pool is empty. A
fiber that finishes gives its stack to the pool, unless the pool is full; the stack of a fiber
that is dropped before it finishes is freed.
-/

namespace EffectHandlers

/-- How many stacks wait for reuse, and the settings that bound them. -/
structure StackPool where
  pooled : Nat := 0
  settings : SettingsSlot := {}

namespace StackPool

/-- Stacks from this size on cannot be allocated: 2⁴⁷ bytes. -/
def addressSpace : Nat := 140737488355328

/-- What is added to a stack's size before it is rounded down to whole pages: two pages of 4096
bytes, one of them a guard, less one byte. -/
def margin : Nat := 8191

/-- Why a stack could not be allocated. -/
inductive Failure where
  /-- There is no such amount of memory. -/
  | outOfMemory
  /-- The size with its margin is not a word. -/
  | overflow
  deriving DecidableEq

/-- The fault of a stack for which there is no memory. -/
def outOfMemory : Fault := .stackAllocation "Cannot allocate memory (os error 12)"

/-- The text of the panic when a size overflows. -/
def sizeOverflow : String := "integer overflow while calculating stack size"

/-- What came of asking for a stack. -/
inductive Acquired where
  | reused
  | fresh
  | failed (why : Failure)
  deriving DecidableEq

/-- What comes of allocating a stack of a size. -/
def allocate (size : Nat) : Acquired :=
  if Word.count ≤ size + margin then .failed .overflow
  else if addressSpace ≤ size then .failed .outOfMemory
  else .fresh

/-- Take a stack from the pool, or allocate one. -/
def acquire (p : StackPool) : Acquired × StackPool × List SettingsWarning :=
  if 0 < p.pooled then (.reused, { p with pooled := p.pooled - 1 }, [])
  else
    let (settings, slot, warnings) := p.settings.use
    (allocate settings.stackSize, { p with settings := slot }, warnings)

/-- Give back the stack of a finished fiber. -/
def giveBack (p : StackPool) : StackPool × List SettingsWarning :=
  let (settings, slot, warnings) := p.settings.use
  let pooled := if p.pooled < settings.poolCapacity then p.pooled + 1 else p.pooled
  ({ pooled, settings := slot }, warnings)

/-- An allocated stack does not come from the pool. -/
theorem allocate_ne_reused (size : Nat) : allocate size ≠ .reused := by
  unfold allocate
  split
  · simp
  · split <;> simp

variable {p : StackPool}

theorem acquire_of_pos (h : 0 < p.pooled) :
    p.acquire = (.reused, { p with pooled := p.pooled - 1 }, []) := if_pos h

theorem acquire_of_not_pos (h : ¬ 0 < p.pooled) :
    p.acquire = (allocate p.settings.use.1.stackSize, { p with settings := p.settings.use.2.1 },
      p.settings.use.2.2) := if_neg h

/-- A failure does not touch the pool. -/
theorem pooled_of_failed {why : Failure} (h : p.acquire.1 = .failed why) :
    p.acquire.2.1.pooled = p.pooled := by
  unfold acquire at h ⊢
  split at h
  · cases h
  · rename_i hempty
    rw [if_neg hempty]

theorem use_acquire (p : StackPool) : p.acquire.2.1.settings.use.1 = p.settings.use.1 := by
  unfold acquire
  split
  · rfl
  · exact p.settings.use_use

theorem use_giveBack (p : StackPool) : p.giveBack.1.settings.use.1 = p.settings.use.1 :=
  p.settings.use_use

end StackPool

end EffectHandlers
