import EffectHandlers.Computation.Basic
import EffectHandlers.Word
/-!
# Writing computations

A program is a computation that still lacks its last part. Programs form a monad, so client code
is written with `do`; `Prog.toComp` turns a program into a computation that ends with its value.
-/

namespace EffectHandlers

/-- A computation up to what is done with its result. -/
def Prog (ω α : Type) : Type := (α → Comp ω) → Comp ω

namespace Prog

variable {ω α β : Type}

instance : Monad (Prog ω) where
  pure a := fun k => k a
  bind p f := fun k => p fun a => f a k

/-- The computation that runs a program and ends with its value. -/
def toComp (p : Prog ω Value) : Comp ω := p .done

/-- Unwind to the nearest `catching` with this message. -/
def panic (message : String) : Prog ω α := fun _ => .panic message

/-- Add an event to the journal. -/
def record (e : Event) : Prog ω Unit := fun k => .record e (k ())

/-- Add a text to the journal. -/
def log (text : String) : Prog ω Unit := record (.text text)

/-- A remark for the trace. -/
def note (level : Level) (message : String) (fields : List (String × String) := []) :
    Prog ω Unit := record (.trace (.note level message fields))

/-- Make a cell with this content; the program gets its only share. -/
def alloc (content : ω) : Prog ω CellId := fun k => .alloc content k

/-- The content of a cell. -/
def read (c : CellId) : Prog ω ω := fun k => .read c k

/-- Replace the content of a cell without releasing what the old one owned. -/
def write (c : CellId) (content : ω) : Prog ω Unit := fun k => .write c content (k ())

/-- Add a share to a cell. -/
def retain (o : Owned) : Prog ω Unit := fun k => .retain o (k ())

/-- Give up what is owned, in order. -/
def release (os : List Owned) : Prog ω Unit := fun k => .release os (k ())

/-- Add a share to everything in a list. -/
def retainAll : List Owned → Prog ω Unit
  | [] => pure ()
  | o :: os => do
    retain o
    retainAll os

/-- Own something while the body runs, and give it up however the body is left. -/
def scope (os : List Owned) (body : Prog ω Value) : Prog ω Value :=
  fun k => .scope os body.toComp k

/-- Run the body and get its value, or the message of the panic that left it. -/
def catching (body : Prog ω Value) : Prog ω (Except String Value) :=
  fun k => .catching body.toComp k

/-- Run the body again and again, until its result is a `Comp.stop`. -/
def loop (seed : Value) (body : Value → Prog ω Value) : Prog ω Value :=
  fun k => .loop seed (fun v => (body v).toComp) k

/-- Call a procedure of the library. -/
def call (procedure : String) (arg : Value) : Prog ω Value := fun k => .call procedure arg k

/-- Make a closure that owns something until it is called. -/
def closure (owned : List Owned) (body : Value → Prog ω Value) : Prog ω ClosureId :=
  fun k => .closure owned (fun v => (body v).toComp) k

/-- Call a closure, which is used up. -/
def apply (f : ClosureId) (arg : Value) : Prog ω Value := fun k => .apply f arg k

/-- Run a body under a handler and get the handler's answer. -/
def handle (i : Installing) (body : ReferenceId → Prog ω Value) : Prog ω Value :=
  fun k => .handle i (fun r => (body r).toComp) k

/-- Send a command and get what its clause resumes with. -/
def invoke (command : Command) (target : Target := .innermost) : Prog ω Value :=
  fun k => .invoke target command k

/-- Find an installation; the program gets a reference to it. -/
def find (search : Search) : Prog ω ReferenceId := fun k => .find search k

/-- Make another reference to the same installation. -/
def copy (r : ReferenceId) : Prog ω ReferenceId := fun k => .copy r k

/-- Make a resumption of a closure, with answers of the named type. -/
def function (answer : String) (f : ClosureId) : Prog ω ResumptionId :=
  fun k => .function answer f k

/-- Move a continuation to a resumption that nobody else knows. -/
def take (r : ResumptionId) : Prog ω ResumptionId := fun k => .take r k

/-- Resume with a value and get the answer. -/
def resume (r : ResumptionId) (v : Value) : Prog ω Value := fun k => .resume r v k

/-- Leave a continuation to the loop above the clause that is running. -/
def tailResume (r : ResumptionId) (v : Value) : Prog ω Unit := fun k => .tailResume r v (k ())

/-- Ask a question that is answered at once. -/
def ask (q : Query) : Prog ω Value := fun k => .ask q k

/-- Put a view into the journal. -/
def view (v : View) : Prog ω Unit := fun k => .view v (k ())

/-- Write something to standard error. -/
def print (p : Printout) : Prog ω Unit := fun k => .print p (k ())

/-- Put an installation without driver and code on the chain. -/
def pushBare (label : Int) (name : String) (clauses : List (String × Modifier)) : Prog ω Unit :=
  fun k => .pushBare label name clauses (k ())

/-- Take the top installation off the chain and get its label. -/
def popBare : Prog ω Int := fun k => .popBare k

/-- Own something while the body runs, and go on owning it when the body has ended. -/
def keeping (os : List Owned) (body : Prog ω Unit) : Prog ω Unit := do
  let _ ← scope os do
    body
    retainAll os
    return .unit

/-- Resume in tail position; the result is only the placeholder. -/
def tail (r : ResumptionId) (v : Value) (placeholder : Value := .unit) : Prog ω Value := do
  tailResume r v
  return placeholder

/-- The result of checked arithmetic, or a panic. -/
def checked : Except String Int → Prog ω Int
  | .ok n => pure n
  | .error text => panic text

/-- Do something for each element of a list, in order. -/
def forEach (f : α → Prog ω Unit) : List α → Prog ω Unit
  | [] => pure ()
  | a :: as => do
    f a
    forEach f as

end Prog

end EffectHandlers
