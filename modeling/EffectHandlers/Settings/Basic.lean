import EffectHandlers.Word
/-!
# Settings

Two numbers govern fibers: the size of a fiber's stack, and how many finished stacks a thread
keeps for reuse. They come from two environment variables; a value that is missing or not a
number gives the default, and a warning tells of every value that was not taken as written.
-/

namespace EffectHandlers

/-- Stack size and pool capacity. -/
structure Settings where
  /-- Bytes of a fiber's stack. -/
  stackSize : Nat
  /-- Finished stacks a thread keeps; none are kept when it is 0. -/
  poolCapacity : Nat
  deriving DecidableEq

/-- The values of the two environment variables, as bytes; `none` when unset. -/
structure Environment where
  stackSize : Option (List UInt8) := none
  poolCapacity : Option (List UInt8) := none
  deriving DecidableEq

/-- A value of an environment variable that was not taken as written. -/
inductive SettingsWarning where
  | zeroStackSize
  | smallStackSize (size : Nat)
  | badStackSize (text : String)
  | badPoolCapacity (text : String)
  deriving DecidableEq

namespace Settings

/-- The stack size used when none is given. -/
def defaultStackSize : Nat := 262144

/-- The smallest stack size in use. -/
def minStackSize : Nat := 16384

/-- The pool capacity used when none is given. -/
def defaultPoolCapacity : Nat := 64

/-- The settings of an empty environment. -/
def standard : Settings := ⟨defaultStackSize, defaultPoolCapacity⟩

instance : Inhabited Settings := ⟨standard⟩

/-- Settings as given explicitly: a stack size below the minimum is raised to it. -/
def explicit (stackSize poolCapacity : Nat) : Settings :=
  ⟨max stackSize minStackSize, poolCapacity⟩

/-- The value of a run of ASCII digits, read on from `acc`. -/
def digitsValue (acc : Nat) : List Char → Option Nat
  | [] => some acc
  | c :: cs =>
    if '0' ≤ c ∧ c ≤ '9' then digitsValue (acc * 10 + (c.toNat - '0'.toNat)) cs else none

/-- A number below 2⁶⁴: ASCII digits, at least one, behind an optional single `+`. -/
def parseWord? (text : String) : Option Nat :=
  let digits := match text.toList with
    | '+' :: rest => rest
    | cs => cs
  if digits.isEmpty then none
  else (digitsValue 0 digits).filter (· < Word.count)

/-- The text of a variable; one that is not UTF-8 counts as unset. -/
def decode (value : Option (List UInt8)) : Option String :=
  value.bind fun bytes => String.fromUTF8? ⟨bytes.toArray⟩

/-- The stack size a variable asks for. -/
def stackSizeOf : Option String → Nat × List SettingsWarning
  | none => (defaultStackSize, [])
  | some text =>
    match parseWord? text with
    | none => (defaultStackSize, [.badStackSize text])
    | some 0 => (defaultStackSize, [.zeroStackSize])
    | some n => if n < minStackSize then (minStackSize, [.smallStackSize n]) else (n, [])

/-- The pool capacity a variable asks for. -/
def poolCapacityOf : Option String → Nat × List SettingsWarning
  | none => (defaultPoolCapacity, [])
  | some text =>
    match parseWord? text with
    | none => (defaultPoolCapacity, [.badPoolCapacity text])
    | some n => (n, [])

/-- The settings an environment asks for, with the warnings it gives rise to. -/
def ofEnvironment (env : Environment) : Settings × List SettingsWarning :=
  let stack := stackSizeOf (decode env.stackSize)
  let pool := poolCapacityOf (decode env.poolCapacity)
  (⟨stack.1, pool.1⟩, stack.2 ++ pool.2)

end Settings

namespace SettingsWarning

/-- The text of a warning. -/
def message : SettingsWarning → String
  | zeroStackSize =>
    "ONESHOT_STACK_SIZE=0 is invalid, using default " ++ toString Settings.defaultStackSize
  | smallStackSize size =>
    "ONESHOT_STACK_SIZE=" ++ toString size ++ " is too small, using minimum "
      ++ toString Settings.minStackSize
  | badStackSize text =>
    "ONESHOT_STACK_SIZE='" ++ text ++ "' is not a valid number, using default "
      ++ toString Settings.defaultStackSize
  | badPoolCapacity text =>
    "ONESHOT_POOL_CAPACITY='" ++ text ++ "' is not a valid number, using default "
      ++ toString Settings.defaultPoolCapacity

end SettingsWarning

end EffectHandlers
