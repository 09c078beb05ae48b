import EffectHandlers.Client.Transcript
import EffectHandlers.Proofs.Orderly
/-!
# Orderly parts of programs

A program is orderly if it is an orderly computation whenever what is done with its result is. The
operations of the interface for effects are orderly, and programs that are put together from orderly
ones.
-/

namespace EffectHandlers.Prog

variable {ω α β : Type}

/-- A program that neither panics nor puts installations on the chain by hand. -/
def Orderly (p : Prog ω α) : Prop :=
  ∀ k : α → Comp ω, (∀ a, (k a).Orderly) → Comp.Orderly (p k)

theorem Orderly.toComp {p : Prog ω Value} (h : p.Orderly) : p.toComp.Orderly :=
  h _ fun _ => trivial

theorem orderly_pure (a : α) : (pure a : Prog ω α).Orderly := fun _ hk => hk a

theorem Orderly.bind {p : Prog ω α} {f : α → Prog ω β} (h : p.Orderly)
    (hf : ∀ a, (f a).Orderly) : (p >>= f).Orderly :=
  fun k hk => h _ fun a => hf a k hk

/-! ### Operations -/

section Operations

variable (c : CellId) (content : ω) (o : Owned) (os : List Owned)

theorem orderly_read : (read c : Prog ω ω).Orderly := fun _ hk => hk

theorem orderly_write : (write c content).Orderly := fun _ hk => hk ()

theorem orderly_alloc : (alloc content).Orderly := fun _ hk => hk

theorem orderly_retain : (retain o : Prog ω Unit).Orderly := fun _ hk => hk ()

theorem orderly_release : (release os : Prog ω Unit).Orderly := fun _ hk => hk ()

theorem orderly_retainAll : (retainAll os : Prog ω Unit).Orderly := by
  induction os with
  | nil => exact orderly_pure ()
  | cons o os ih => exact (orderly_retain o).bind fun _ => ih

theorem orderly_record (e : Event) : (record e : Prog ω Unit).Orderly := fun _ hk => hk ()

theorem orderly_ask (q : Query) : (ask q : Prog ω Value).Orderly := fun _ hk => hk

theorem orderly_invoke (command : Command) (target : Target) :
    (invoke command target : Prog ω Value).Orderly := fun _ hk => hk

theorem orderly_take (r : ResumptionId) : (take r : Prog ω ResumptionId).Orderly := fun _ hk => hk

theorem orderly_function (answer : String) (f : ClosureId) :
    (function answer f : Prog ω ResumptionId).Orderly := fun _ hk => hk

theorem orderly_resume (r : ResumptionId) (v : Value) :
    (resume r v : Prog ω Value).Orderly := fun _ hk => hk

theorem orderly_tail (r : ResumptionId) (v placeholder : Value) :
    (tail r v placeholder : Prog ω Value).Orderly := fun _ hk => hk placeholder

variable {c content o os}

theorem Orderly.scope {body : Prog ω Value} (h : body.Orderly) : (scope os body).Orderly :=
  fun _ hk => ⟨h.toComp, hk⟩

theorem Orderly.keeping {body : Prog ω Unit} (h : body.Orderly) : (keeping os body).Orderly :=
  (h.bind fun _ => (orderly_retainAll os).bind fun _ => orderly_pure Value.unit).scope.bind
    fun _ => orderly_pure ()

theorem Orderly.loop {seed : Value} {body : Value → Prog ω Value} (h : ∀ v, (body v).Orderly) :
    (loop seed body).Orderly := fun _ hk => ⟨fun v => (h v).toComp, hk⟩

theorem Orderly.forEach {f : α → Prog ω Unit} (h : ∀ a, (f a).Orderly) (as : List α) :
    (forEach f as).Orderly := by
  induction as with
  | nil => exact orderly_pure ()
  | cons a as ih => exact (h a).bind fun _ => ih

theorem Orderly.closure {body : Value → Prog ω Value} (h : ∀ v, (body v).Orderly) :
    (closure os body).Orderly := fun _ hk => ⟨fun v => (h v).toComp, hk⟩

theorem Orderly.handle {i : Installing} {body : ReferenceId → Prog ω Value}
    (h : ∀ r, (body r).Orderly) : (handle i body).Orderly := fun _ hk => ⟨fun r => (h r).toComp, hk⟩

end Operations

end EffectHandlers.Prog

namespace EffectHandlers.Task

variable (c : CellId)

theorem orderly_readValue : (readValue c).Orderly :=
  (Prog.orderly_read c).bind fun content => by cases content <;> exact Prog.orderly_pure _

theorem orderly_readList : (readList c).Orderly :=
  (Prog.orderly_read c).bind fun content => by cases content <;> exact Prog.orderly_pure _

theorem orderly_pushBack (v : Value) : (pushBack c v).Orderly :=
  (orderly_readList c).bind fun _ => Prog.orderly_write c _

theorem orderly_popFront : (popFront c).Orderly :=
  (orderly_readList c).bind fun vs => by
    cases vs with
    | nil => exact Prog.orderly_pure _
    | cons v rest => exact (Prog.orderly_write c _).bind fun _ => Prog.orderly_pure _

end EffectHandlers.Task

namespace EffectHandlers.Transcript

theorem orderly_emit (text : String) : (emit text).Orderly :=
  ((Task.orderly_readValue _).bind fun _ => Prog.orderly_pure _).bind fun _ => Prog.orderly_write _ _

end EffectHandlers.Transcript
