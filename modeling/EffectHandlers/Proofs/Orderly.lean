import EffectHandlers.Machine.Step
/-!
# Orderly programs

The programs that keep to the interface for effects: they do not panic, and they do not put
installations on the chain by hand. Everything is said about all values that code can get, since
values come from other code.
-/

namespace EffectHandlers

variable {ω : Type}

/-- Code that neither panics nor puts installations on the chain by hand, whatever values it
gets. -/
def Comp.Orderly : Comp ω → Prop
  | .done _ => True
  | .panic _ => False
  | .record _ next => next.Orderly
  | .alloc _ next => ∀ c, (next c).Orderly
  | .read _ next => ∀ content, (next content).Orderly
  | .write _ _ next => next.Orderly
  | .retain _ next => next.Orderly
  | .release _ next => next.Orderly
  | .scope _ body next => body.Orderly ∧ ∀ v, (next v).Orderly
  | .catching body next => body.Orderly ∧ ∀ r, (next r).Orderly
  | .loop _ body next => (∀ v, (body v).Orderly) ∧ ∀ v, (next v).Orderly
  | .call _ _ next => ∀ v, (next v).Orderly
  | .closure _ body next => (∀ v, (body v).Orderly) ∧ ∀ f, (next f).Orderly
  | .apply _ _ next => ∀ v, (next v).Orderly
  | .handle _ body next => (∀ r, (body r).Orderly) ∧ ∀ v, (next v).Orderly
  | .invoke _ _ next => ∀ v, (next v).Orderly
  | .find _ next => ∀ r, (next r).Orderly
  | .copy _ next => ∀ r, (next r).Orderly
  | .function _ _ next => ∀ r, (next r).Orderly
  | .take _ next => ∀ r, (next r).Orderly
  | .resume _ _ next => ∀ v, (next v).Orderly
  | .tailResume _ _ next => next.Orderly
  | .ask _ next => ∀ v, (next v).Orderly
  | .view _ next => next.Orderly
  | .print _ next => next.Orderly
  | .pushBare .. => False
  | .popBare _ => False

/-- A clause whose code is orderly. -/
def ClauseCode.Orderly : ClauseCode ω → Prop
  | resumptive run => ∀ c v r, (run c v r).Orderly
  | noManage run => ∀ c v r, (run c v r).Orderly
  | noResume run => ∀ c v, (run c v).Orderly
  | plain run => ∀ c v, (run c v).Orderly

namespace ClauseCode

/-- The computation of a clause, given the handler's cell, the payload and the resumption. -/
def body (handler : CellId) (payload : Value) (r : ResumptionId) : ClauseCode ω → Comp ω
  | resumptive run | noManage run => run handler payload r
  | noResume run | plain run => run handler payload

/-- Whether the clause gets the continuation. -/
def takes : ClauseCode ω → Bool
  | resumptive _ | noManage _ => true
  | noResume _ | plain _ => false

/-- The installation that the clause keeps alive. -/
def keeps (i : InstallationId) : ClauseCode ω → Option InstallationId
  | noManage _ => none
  | _ => some i

theorem modifier_of_takes {code : ClauseCode ω} (h : code.takes = true) :
    code.modifier ≠ .noResume := by
  cases code with
  | noResume run => cases h
  | _ => simp [modifier]

theorem Orderly.body {code : ClauseCode ω} (h : code.Orderly) (handler : CellId) (payload : Value)
    (r : ResumptionId) : (code.body handler payload r).Orderly := by
  cases code with
  | resumptive run | noManage run => exact h handler payload r
  | noResume run | plain run => exact h handler payload

end ClauseCode

/-- A library all of whose code is orderly. -/
structure Library.Orderly (Γ : Library ω) : Prop where
  clauses : ∀ t, ∀ c ∈ (Γ.handlerType t).clauses, c.code.Orderly
  onReturn : ∀ t c v, ((Γ.handlerType t).onReturn c v).Orderly
  procedure : ∀ p v, (Γ.procedure p v).Orderly

/-- A continuation whose code, where it has not started, is orderly. -/
def Cont.Orderly : Cont ω → Prop
  | captured .. => True
  | function _ f _ => ∀ v, (f.body v).Orderly

end EffectHandlers
