import EffectHandlers.Proofs.Frugality
import EffectHandlers.Proofs.Following
/-!
# The course of a frugal evaluation

Frugal evaluations are followed operation by operation. Each lemma says what an operation must not
use or take over so that the evaluation is frugal when it gets there.
-/

namespace EffectHandlers.Evaluation

variable {ω : Type} [Contents ω] {Γ : Library ω} {K : List CellId} {R R' : Evaluation ω → Prop}
  {s t : Evaluation ω} {v : Value} {F : List (Frame ω)}

/-- An evaluation gets to a state in which it satisfies `R`, and is frugal all the way. -/
inductive Passes (Γ : Library ω) (K : List CellId) (R : Evaluation ω → Prop) : Evaluation ω → Prop
  | here {s : Evaluation ω} (h : R s) : Passes Γ K R s
  | next {s : Evaluation ω} (hfrugal : s.Frugal Γ K) (h : Passes Γ K R (s.step Γ)) : Passes Γ K R s

/-! ### Frugal operations -/

namespace Frugal

/-- Only operations can be wasteful. -/
theorem of_idle (h : ∀ c, s.phase ≠ .eval c) : s.Frugal Γ K where
  pool c hc := absurd hc (h c)
  uses c hc := absurd hc (h c)
  spends c hc := absurd hc (h c)
  clears _ _ _ hc := absurd hc (h _)

/-- An operation that takes nothing over and sends no command. -/
theorem of_spends {c : Comp ω} (hpool : c.asksPool = false)
    (huses : ∀ o ∈ c.uses, o.isName = true ∨ ∃ k ∈ K, o = .cell k)
    (hspends : ∀ o ∈ c.spends, o.isName = false ∧ ∀ k ∈ K, o ≠ .cell k)
    (hinvoke : ∀ target command next, c ≠ .invoke target command next) :
    (s.goOn (.eval c)).Frugal Γ K where
  pool c' hc := by cases hc; exact hpool
  uses c' hc := by cases hc; exact huses
  spends c' hc o ho := by
    cases hc
    obtain ⟨hname, hcell⟩ := hspends o ho
    exact ⟨hcell, fun hname' => by cases hname.symm.trans hname'⟩
  clears target command next hc := by
    cases hc
    exact absurd rfl (hinvoke target command next)

end Frugal

namespace Passes

theorem trans (h : Passes Γ K R s) (h' : ∀ t, R t → Passes Γ K R' t) : Passes Γ K R' s := by
  induction h with
  | here hR => exact h' _ hR
  | next hfrugal _ ih => exact .next hfrugal ih

theorem of_step (hfrugal : s.Frugal Γ K) (hstep : s.step Γ = t) (h : Passes Γ K R t) :
    Passes Γ K R s := .next hfrugal (hstep ▸ h)

/-- An evaluation that is frugal from some state on, and on the way to it, is frugal at every step. -/
theorem frugal (h : Passes Γ K (fun t => ∀ n, ((step Γ)^[n] t).Frugal Γ K) s) (n : Nat) :
    ((step Γ)^[n] s).Frugal Γ K := by
  induction h generalizing n with
  | here hR => exact hR n
  | next hfrugal _ ih =>
    cases n with
    | zero => exact hfrugal
    | succ n => exact ih n

/-- Once an evaluation has returned, there is nothing left in which it could be wasteful. -/
theorem frugal_of_returns (h : Passes Γ K R s)
    (hR : ∀ t, R t → t.frames = [] ∧ ∃ v, t.phase = .ret v) (n : Nat) :
    ((step Γ)^[n] s).Frugal Γ K := by
  refine (h.trans fun t ht => .here fun n => ?_).frugal n
  obtain ⟨hframes, v, hphase⟩ := hR t ht
  cases n with
  | zero => exact .of_idle (by simp [hphase])
  | succ n =>
    have hended : ((step Γ)^[1] t).ending = some (.ok v) := by
      simp [ending, step, hphase, give, hframes, goOn]
    rw [iterate_of_ending hended n]
    exact .of_idle (by simp [step, hphase, give, hframes, goOn])

theorem exists_steps (h : Passes Γ K R s) : ∃ n, R ((step Γ)^[n] s) := by
  induction h with
  | here hR => exact ⟨0, hR⟩
  | next _ _ ih =>
    obtain ⟨n, hn⟩ := ih
    exact ⟨n + 1, hn⟩

/-! ### Operations -/

theorem done (hv : v.owned = []) (h : Passes Γ K R (s.goOn (.ret v))) :
    Passes Γ K R (s.goOn (.eval (.done v))) :=
  of_step (.of_spends rfl (by simp [Comp.uses]) (by simp [Comp.spends, hv]) (by simp)) rfl h

theorem alloc {x : ω} {next : CellId → Comp ω} (hx : Contents.owned x = [])
    (h : Passes Γ K R (({ s with cells := (s.cells.insert x).2 } : Evaluation ω).goOn
      (.eval (next s.cells.next)))) : Passes Γ K R (s.goOn (.eval (.alloc x next))) :=
  of_step (.of_spends rfl (by simp [Comp.uses]) (by simp [Comp.spends, hx]) (by simp)) rfl h

theorem read {c : CellId} {x : ω} {next : ω → Comp ω} (hc : c ∈ K) (hx : s.cells.find? c = some x)
    (h : Passes Γ K R (s.goOn (.eval (next x)))) :
    Passes Γ K R (s.goOn (.eval (.read c next))) :=
  of_step (.of_spends rfl (by simp [Comp.uses, hc]) (by simp [Comp.spends]) (by simp))
    (by simp [step, eval, goOn, hx]) h

/-- What is written into a cell that is kept was made before. -/
theorem write {c : CellId} {x : ω} {next : Comp ω} (hc : c ∈ K)
    (hx : ∀ o ∈ Contents.owned x, s.Issued o ∧ ∀ k, o ≠ .cell k)
    (h : Passes Γ K R (({ s with cells := s.cells.modify c fun _ => x } : Evaluation ω).goOn
      (.eval next))) : Passes Γ K R (s.goOn (.eval (.write c x next))) := by
  refine of_step ?_ rfl h
  exact
    { pool := fun c' hc' => by cases hc'; rfl
      uses := fun c' hc' o ho => by
        cases hc'
        obtain rfl : o = .cell c := by simpa [Comp.uses] using ho
        exact .inr ⟨c, hc, rfl⟩
      spends := fun c' hc' o ho => by
        cases hc'
        obtain ⟨hissued, hcell⟩ := hx o ho
        refine ⟨fun k _ => hcell k, fun _ => ⟨?_, .inl ⟨c, hc, x, next, rfl⟩⟩⟩
        cases o <;> exact hissued
      clears := fun _ _ _ hc' => by cases hc' }

theorem loop {seed : Value} {body next : Value → Comp ω}
    (h : Passes Γ K R ((s.push (.looping body next)).goOn (.eval (body seed)))) :
    Passes Γ K R (s.goOn (.eval (.loop seed body next))) :=
  of_step (.of_spends rfl (by simp [Comp.uses]) (by simp [Comp.spends]) (by simp)) rfl h

theorem closure {body : Value → Comp ω} {next : ClosureId → Comp ω}
    (h : Passes Γ K R (({ s with closures := (s.closures.insert body).2 } : Evaluation ω).goOn
      (.eval (next s.closures.next)))) :
    Passes Γ K R (s.goOn (.eval (.closure [] body next))) :=
  of_step (.of_spends rfl (by simp [Comp.uses]) (by simp [Comp.spends]) (by simp)) rfl h

theorem function {answer : String} {f : ClosureId} {body : Value → Comp ω}
    {next : ResumptionId → Comp ω} (hf : s.closures.find? f = some body)
    (h : Passes Γ K R (({ s with
        closures := s.closures.erase f
        resumptions := (s.resumptions.insert (.function answer body)).2 } : Evaluation ω).goOn
      (.eval (next s.resumptions.next)))) :
    Passes Γ K R (s.goOn (.eval (.function answer f next))) :=
  of_step (.of_spends rfl (by simp [Comp.uses, Owned.isName]) (by simp [Comp.spends]) (by simp))
    (by simp [step, eval, goOn, hf]) h

theorem take {r : ResumptionId} {k : Continuation ω} {next : ResumptionId → Comp ω}
    (hr : s.resumptions.find? r = some k)
    (h : Passes Γ K R (({ s with resumptions := ((s.resumptions.erase r).insert k).2 } :
        Evaluation ω).goOn (.eval (next s.resumptions.next)))) :
    Passes Γ K R (s.goOn (.eval (.take r next))) := by
  refine of_step (.of_spends rfl (by simp [Comp.uses, Owned.isName]) (by simp [Comp.spends])
    (by simp)) ?_ h
  simp only [step, eval, goOn, hr]
  rfl

theorem resume {r : ResumptionId} {k : Continuation ω} {next : Value → Comp ω} (hv : v.owned = [])
    (hr : s.resumptions.find? r = some k)
    (h : Passes Γ K R (((s.taken r).push (.bind next)).goOn (.resume k v))) :
    Passes Γ K R (s.goOn (.eval (.resume r v next))) :=
  of_step (.of_spends rfl (by simp [Comp.uses, Owned.isName]) (by simp [Comp.spends, hv])
    (by simp)) (by simp [step, eval, goOn, hr, taken, push]) h

/-- A handler in a cell that is not kept is installed with a fresh label. -/
theorem handle {handlerType : String} {cell : CellId} {body : ReferenceId → Comp ω}
    {next : Value → Comp ω} {declared : List String} (hcell : cell ∉ K)
    (hdeclare : s.declare handlerType (Γ.handlerType handlerType) = .ok declared)
    (h : Passes Γ K R (({ s with
        frames := .handling s.installed.next :: .bind next :: s.frames
        installed := (s.installed.insert ⟨s.nextLabel, handlerType, handlerType, cell⟩).2
        references := (s.references.insert s.installed.next).2
        nextLabel := s.nextLabel - 1
        declared } : Evaluation ω).goOn (.eval (body s.references.next)))) :
    Passes Γ K R (s.goOn (.eval (.handle { handlerType, handler := cell } body next))) := by
  refine of_step (.of_spends rfl (by simp [Comp.uses]) ?_ (by simp)) ?_ h
  · intro o ho
    obtain rfl : o = .cell cell := by simpa [Comp.spends] using ho
    refine ⟨rfl, fun k hk heq => ?_⟩
    cases heq
    exact hcell hk
  · have hdeclare' : (s.push (.bind next)).declare handlerType (Γ.handlerType handlerType) =
        .ok declared := hdeclare
    show (s.push (.bind next)).install Γ { handlerType, handler := cell } body = _
    simp only [install, chooseLabel, hdeclare']
    rfl

/-- A command to the handler right above which its code runs. The clause takes up all that it gets. -/
theorem invoke {command : Command} {next : Value → Comp ω} {i : InstallationId}
    {code : CellId → Value → ResumptionId → Comp ω} {U : List (Frame ω)} {h₀ : Handler}
    {answer : String} (hi : s.installed.find? i = some h₀)
    (hclause : h₀.clauseFor? Γ command.name = some (.resumptive code))
    (hanswer : (Γ.handlerType h₀.handlerType).answer = answer)
    (hframes : s.frames = U ++ .handling i :: F) (hU : ∀ f ∈ U, f.isCode = true)
    (howned : ∀ o ∈ command.owned, s.Issued o ∧ ∀ k, o ≠ .cell k)
    (hclears : ∀ cell r, (code cell command.payload r).Clears (.resumption r :: command.owned))
    (h : Passes Γ K R (({ s with
        frames := .answering answer :: F
        resumptions :=
          (s.resumptions.insert (.context answer (.bind next :: U ++ [.handling i]))).2 } :
        Evaluation ω).goOn (.eval (code h₀.cell command.payload s.resumptions.next)))) :
    Passes Γ K R (s.goOn (.eval (.invoke .innermost command next))) := by
  have hdispatch : s.dispatch Γ command.name .innermost = .ok (i, .resumptive code) :=
    dispatch_innermost hframes hU hi hclause
  refine of_step ?_ (step_invoke rfl hdispatch hi hanswer hframes hU) h
  exact
    { pool := fun c hc => by cases hc; rfl
      uses := fun c hc o ho => by
        cases hc
        cases ho
      spends := fun c hc o ho => by
        cases hc
        obtain ⟨hissued, hcell⟩ := howned o ho
        refine ⟨fun k _ => hcell k, fun _ => ⟨?_, .inr ⟨.innermost, command, next, rfl⟩⟩⟩
        cases o <;> exact hissued
      clears := fun target command' next' hc j code' hcode' => by
        cases hc
        cases hdispatch.symm.trans hcode'
        exact ⟨code, rfl, hclears⟩ }

/-! ### Values -/

theorem bind {next : Value → Comp ω} (hframes : s.frames = .bind next :: F)
    (h : Passes Γ K R (({ s with frames := F } : Evaluation ω).goOn (.eval (next v)))) :
    Passes Γ K R (s.goOn (.ret v)) :=
  of_step (.of_idle (by simp [goOn])) (by simp [step, give, goOn, hframes]) h

/-- The loop goes round again. -/
theorem again {body next : Value → Comp ω} (hframes : s.frames = .looping body next :: F)
    (h : Passes Γ K R (s.goOn (.eval (body v)))) :
    Passes Γ K R (s.goOn (.ret (Comp.again v))) :=
  of_step (.of_idle (by simp [goOn]))
    (by simp only [step, give, goOn, hframes, Comp.again, push]) h

/-- The loop ends. -/
theorem stop {body next : Value → Comp ω} (hframes : s.frames = .looping body next :: F)
    (h : Passes Γ K R (({ s with frames := F } : Evaluation ω).goOn (.eval (next v)))) :
    Passes Γ K R (s.goOn (.ret (Comp.stop v))) :=
  of_step (.of_idle (by simp [goOn])) (by simp only [step, give, goOn, hframes, Comp.stop]) h

/-- The body of a handler has ended, and its return clause comes next. -/
theorem returning {i : InstallationId} {h₀ : Handler} (hframes : s.frames = .handling i :: F)
    (hi : s.installed.find? i = some h₀)
    (h : Passes Γ K R (({ s with
        frames := .answering (Γ.handlerType h₀.handlerType).answer :: F
        installed := s.installed.modify i fun x => { x with label := retiredLabel } } :
      Evaluation ω).goOn (.eval ((Γ.handlerType h₀.handlerType).onReturn h₀.cell v)))) :
    Passes Γ K R (s.goOn (.ret v)) :=
  of_step (.of_idle (by simp [goOn]))
    (by simp [step, give, goOn, hframes, handler, hi, push]) h

theorem answering {answer : String} (hframes : s.frames = .answering answer :: F)
    (hpending : s.pending = none)
    (h : Passes Γ K R (({ s with frames := F } : Evaluation ω).goOn (.ret v))) :
    Passes Γ K R (s.goOn (.ret v)) :=
  of_step (.of_idle (by simp [goOn])) (by simp [step, give, goOn, hframes, hpending]) h

theorem enter_context {answer : String} {frames : List (Frame ω)}
    (h : Passes Γ K R (({ s with frames := frames ++ s.frames } : Evaluation ω).goOn (.ret v))) :
    Passes Γ K R (s.goOn (.resume (.context answer frames) v)) :=
  of_step (.of_idle (by simp [goOn])) rfl h

theorem enter_function {answer : String} {body : Value → Comp ω}
    (h : Passes Γ K R ((s.push (.answering answer)).goOn (.eval (body v)))) :
    Passes Γ K R (s.goOn (.resume (.function answer body) v)) :=
  of_step (.of_idle (by simp [goOn])) rfl h

end Passes

end EffectHandlers.Evaluation
