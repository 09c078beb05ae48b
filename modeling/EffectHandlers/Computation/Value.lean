import EffectHandlers.Chain.Basic
import EffectHandlers.Journal
/-!
# Values and ownership

Computations pass values to each other. Some values stand for things that are owned: shares of
cells, references to installations, closures that can be called once, resumptions that can be
resumed once. What is owned is released by its owner; releasing a closure or resumption that has
been used up, or that was moved away, does nothing.
-/

namespace EffectHandlers

/-- Number of a resumption; it is never reused. -/
abbrev ResumptionId := Nat

/-- The resumption that never held a continuation. -/
def emptyResumption : ResumptionId := 0

/-- Number of a closure; it is never reused. -/
abbrev ClosureId := Nat

/-- Number of a reference to an installation; it is never reused. -/
abbrev ReferenceId := Nat

/-- The reference that never referred to anything. -/
def emptyReference : ReferenceId := 0

/-- What computations pass to each other. -/
inductive Value where
  | unit
  | int (n : Int)
  | bool (b : Bool)
  | text (s : String)
  | absent
  | present (v : Value)
  | pair (a b : Value)
  | cell (id : CellId)
  | reference (id : ReferenceId)
  | closure (id : ClosureId)
  | resumption (id : ResumptionId)
  deriving DecidableEq

instance : Inhabited Value := ⟨.unit⟩

/-- Something that is released when its owner goes away. -/
inductive Owned where
  /-- One share of a cell. -/
  | cell (id : CellId)
  | reference (id : ReferenceId)
  | closure (id : ClosureId)
  | resumption (id : ResumptionId)
  /-- Nothing but a notice, which goes into the journal. -/
  | notice (n : Notice)
  deriving DecidableEq

namespace Value

/-- What a value owns. -/
def owned : Value → List Owned
  | present v => v.owned
  | pair a b => a.owned ++ b.owned
  | cell id => [.cell id]
  | reference id => [.reference id]
  | closure id => [.closure id]
  | resumption id => [.resumption id]
  | _ => []

/-- The number a value stands for; 1 and 0 for the truth values. -/
def toInt : Value → Int
  | int n => n
  | bool true => 1
  | _ => 0

/-- The text that a value is; nothing for other values. -/
def toText : Value → String
  | text s => s
  | _ => ""

/-- Whether a value is the truth value `true`. -/
def isTrue : Value → Bool
  | bool b => b
  | _ => false

end Value

/-- A command on its way to a clause. -/
structure Command where
  name : String
  payload : Value := .unit
  /-- What is released when the command is dropped. -/
  owned : List Owned := []
  deriving DecidableEq

end EffectHandlers
