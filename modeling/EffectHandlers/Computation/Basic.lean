import EffectHandlers.Computation.Value
/-!
# Computations

A computation is the code of a body, a clause or a closure: a tree of operations, each followed
by what is done with its result. Computations share data only through cells, whose contents are
of a type `ω` that the client programs choose.

A `Library` gives code to the names that computations use: what each handler type declares, and
the procedures that may call each other and themselves.
-/

namespace EffectHandlers

/-- Which installation a command is sent to. -/
inductive Target where
  /-- The innermost one that declares the command. -/
  | innermost
  /-- The innermost one with a label. -/
  | labelled (label : Int)
  /-- The one referred to. -/
  | reference (r : ReferenceId)
  /-- The innermost one of a handler type. -/
  | ofType (handlerType : String)
  /-- The innermost one with a label, which must be of a handler type. -/
  | labelledOfType (handlerType : String) (label : Int)
  /-- The one referred to, which must be of a handler type. -/
  | referenceOfType (handlerType : String) (r : ReferenceId)
  deriving DecidableEq

/-- How an installation is searched for, to be referred to later. -/
inductive Search where
  | command (name : String)
  | label (label : Int)
  deriving DecidableEq

/-- What is installed, and on whose behalf. -/
structure Installing where
  handlerType : String
  /-- An explicit label; a fresh one is made when there is none. -/
  label : Option Int := none
  /-- The cell of the handler instance; the installation takes over one share. -/
  handler : CellId
  /-- What the body owns. -/
  owned : List Owned := []
  deriving DecidableEq

/-- A question that is answered at once. -/
inductive Query where
  | depth
  | inFiber
  | pooledStacks
  | isPending
  | freshLabel
  | isIssued (label : Int)
  | isInstalled (r : ReferenceId)
  | labelOf (r : ReferenceId)
  | isValid (r : ResumptionId)
  deriving DecidableEq

/-- A view that goes into the journal. -/
inductive View where
  | snapshot
  | listing
  | tally
  | report
  | reference (r : ReferenceId)
  deriving DecidableEq

/-- Something that is written to standard error. -/
inductive Printout where
  | listing
  | report
  | lines (ls : List String)
  deriving DecidableEq

/-- Code that shares cells with contents of type `ω`. -/
inductive Comp (ω : Type) where
  /-- End with a value. -/
  | done (v : Value)
  /-- Unwind to the nearest `catching`. -/
  | panic (message : String)
  | record (e : Event) (next : Comp ω)
  /-- Make a cell, with one share. -/
  | alloc (content : ω) (next : CellId → Comp ω)
  | read (c : CellId) (next : ω → Comp ω)
  /-- Replace the content of a cell; what the old content owned is not released. -/
  | write (c : CellId) (content : ω) (next : Comp ω)
  /-- Add a share of a cell. -/
  | retain (o : Owned) (next : Comp ω)
  | release (os : List Owned) (next : Comp ω)
  /-- Own something while the body runs, and release it when the body ends or is unwound. -/
  | scope (os : List Owned) (body : Comp ω) (next : Value → Comp ω)
  /-- Stop panics of the body. -/
  | catching (body : Comp ω) (next : Except String Value → Comp ω)
  /-- Run the body again and again, see `Comp.again` and `Comp.stop`. -/
  | loop (seed : Value) (body : Value → Comp ω) (next : Value → Comp ω)
  /-- Call a procedure of the library. -/
  | call (procedure : String) (arg : Value) (next : Value → Comp ω)
  /-- Make a closure, which can be called once. It owns something until it is called; from then on
  its code is to own it. -/
  | closure (owned : List Owned) (body : Value → Comp ω) (next : ClosureId → Comp ω)
  | apply (f : ClosureId) (arg : Value) (next : Value → Comp ω)
  /-- Run a body under a handler; the result is the handler's answer. The body gets a reference
  to its own installation. -/
  | handle (i : Installing) (body : ReferenceId → Comp ω) (next : Value → Comp ω)
  /-- Send a command; the result is what the clause resumes with. -/
  | invoke (target : Target) (command : Command) (next : Value → Comp ω)
  /-- Find an installation; the computation gets a reference to it. -/
  | find (search : Search) (next : ReferenceId → Comp ω)
  /-- Make another reference to the same installation. -/
  | copy (r : ReferenceId) (next : ReferenceId → Comp ω)
  /-- Make a resumption out of a closure. -/
  | function (answer : String) (f : ClosureId) (next : ResumptionId → Comp ω)
  /-- Move a continuation to a new resumption, leaving the old one empty. -/
  | take (r : ResumptionId) (next : ResumptionId → Comp ω)
  | resume (r : ResumptionId) (v : Value) (next : Value → Comp ω)
  /-- Resume once the clause that is running has ended. -/
  | tailResume (r : ResumptionId) (v : Value) (next : Comp ω)
  | ask (q : Query) (next : Value → Comp ω)
  | view (v : View) (next : Comp ω)
  | print (p : Printout) (next : Comp ω)
  /-- Put an installation without driver and code on the chain. -/
  | pushBare (label : Int) (name : String) (clauses : List (String × Modifier)) (next : Comp ω)
  /-- Take the top installation off the chain and drop it; the result is its label. -/
  | popBare (next : Int → Comp ω)

namespace Comp

variable {ω : Type}

instance : Inhabited (Comp ω) := ⟨.done .unit⟩

/-- A loop body's result when the loop goes on with this value. -/
def again (v : Value) : Value := .pair (.bool true) v

/-- A loop body's result when the loop ends with this value. -/
def stop (v : Value) : Value := .pair (.bool false) v

end Comp

/-- The code of a clause, given the handler's cell, the command's payload and, where it captures
the continuation and keeps it, the resumption. -/
inductive ClauseCode (ω : Type) where
  | resumptive (run : CellId → Value → ResumptionId → Comp ω)
  | noManage (run : CellId → Value → ResumptionId → Comp ω)
  | noResume (run : CellId → Value → Comp ω)
  | plain (run : CellId → Value → Comp ω)

/-- The modifier that clauses with such code are declared with. -/
def ClauseCode.modifier {ω : Type} : ClauseCode ω → Modifier
  | resumptive _ => .resumptive
  | noManage _ => .noManage
  | noResume _ => .noResume
  | plain _ => .plain

/-- A clause that a handler type declares. -/
structure Clause (ω : Type) where
  command : String
  code : ClauseCode ω

/-- A handler type: the name of its answer type, its clauses, and its return clause, which gets
the handler's cell and the value of the body. -/
structure HandlerType (ω : Type) where
  answer : String
  clauses : List (Clause ω)
  onReturn : CellId → Value → Comp ω := fun _ v => .done v

/-- The code behind the names that computations use. -/
structure Library (ω : Type) where
  handlerType : String → HandlerType ω
  procedure : String → Value → Comp ω := fun _ _ => .done .unit

/-- What the contents of a cell own. -/
class Contents (ω : Type) extends Inhabited ω where
  owned : ω → List Owned

end EffectHandlers
