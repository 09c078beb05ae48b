import EffectHandlers.Proofs.Moving
import EffectHandlers.Proofs.Seats
/-!
# Steps apart from the tail slot

The tail slot is filled by a tail resume and emptied by what settles an answer, and when a fault
ends the thread. All other steps leave it as it is, and raise no fault about it.
-/

namespace EffectHandlers

variable {ω : Type} {Γ : Library ω}

/-- Whether a fault is about the tail slot. -/
def Fault.isSlot : Fault → Bool
  | .tailSlotOccupied | .tailResumeMismatch _ => true
  | _ => false

/-- The fault that is raised, or has ended the thread. -/
def Control.fault? : Control ω → Option Fault
  | fault f | halted (.fatal f _) => some f
  | _ => none

/-! ### The faults of operations -/

namespace Chain

variable {c : Chain} {f : Fault}

theorem isSlot_dispatch {referent : ReferenceId → InstallationId} {command : String}
    {target : Target} (h : c.dispatch referent command target = .error f) : f.isSlot = false := by
  cases target <;>
    simp only [dispatch, locateLabel, locateReference, expectType, clausePosition, bind,
      Except.bind] at h <;>
    grind [Fault.isSlot]

theorem isSlot_locate {search : Search} (h : c.locate search = .error f) : f.isSlot = false := by
  cases search <;> simp only [locate] at h <;> split at h <;> cases h <;> rfl

end Chain

namespace Machine

variable {m m' : Machine ω} {f : Fault}

theorem isSlot_chooseLabel {label : Option Int} (h : m.chooseLabel label = (.error f, m')) :
    f.isSlot = false := by
  cases label with
  | none => cases h
  | some explicit =>
    obtain ⟨hcheck, -⟩ := Prod.mk.inj h
    unfold Chain.checkLabel at hcheck
    split at hcheck
    · cases hcheck
      rfl
    · split at hcheck <;> cases hcheck
      rfl

theorem isSlot_declare {name : String} {x : HandlerType ω}
    (h : m.declare name x = (.error f, m')) : f.isSlot = false := by
  unfold declare at h
  split at h
  · cases h
  · split at h <;> cases h
    rfl

theorem isSlot_enter {i : InstallationId} {g : FiberId}
    (h : (m.enter i g).control.fault? = some f) : f.isSlot = false := by
  unfold enter at h
  split at h <;> cases h
  rfl

theorem isSlot_install {x : Installing} {body : ReferenceId → Comp ω}
    (h : (m.install Γ x body).control.fault? = some f) : f.isSlot = false := by
  unfold install at h
  simp only at h
  split at h
  · rename_i hchoose
    cases h
    exact isSlot_chooseLabel hchoose
  · split at h
    · rename_i hdeclare
      cases h
      exact isSlot_declare hdeclare
    · split at h
      · cases h
        rfl
      · cases h
      · exact isSlot_enter h

/-! ### Steps -/

/-- The tail slot has no part in this. -/
structure Apart (m m' : Machine ω) : Prop where
  pending : m'.pending = m.pending
  fault : ∀ f, m'.control.fault? = some f → f.isSlot = false

namespace Apart

/-- No fault is raised. -/
theorem quiet (hpending : m'.pending = m.pending) (hcontrol : m'.control.fault? = none) :
    m.Apart m' := ⟨hpending, by simp [hcontrol]⟩

/-- This fault is raised. -/
theorem raise (hpending : m'.pending = m.pending) (hcontrol : m'.control = .fault f)
    (hf : f.isSlot = false) : m.Apart m' := by
  refine ⟨hpending, fun g hg => ?_⟩
  rw [hcontrol] at hg
  obtain rfl : f = g := Option.some.inj hg
  exact hf

theorem enter (h : m'.pending = m.pending) (i : InstallationId) (g : FiberId) :
    m.Apart (m'.enter i g) :=
  ⟨(Moves.enter_leaves m' i g).2.1.trans h, fun _ => isSlot_enter⟩

theorem install (h : m'.pending = m.pending) (x : Installing) (body : ReferenceId → Comp ω) :
    m.Apart (m'.install Γ x body) := by
  refine ⟨?_, fun _ => isSlot_install⟩
  obtain ⟨nextLabel, declared, pool, counters, journal, hinstall⟩ :=
    exists_install_eq (Γ := Γ) m' x body
  rcases hinstall with ⟨f, heq⟩ | heq | ⟨label, -, heq⟩ <;>
    · rw [heq]
      exact h

theorem sendInPlace (h : m'.pending = m.pending) (i : InstallationId) (position : Nat)
    (command : Command) : m.Apart (m'.sendInPlace Γ i position command) := by
  rcases sendInPlace_cases (Γ := Γ) m' i position command with
    ⟨text, heq⟩ | ⟨run, -, heq⟩ | ⟨run, hidden, c', -, -, heq⟩
  · rw [heq]
    exact raise h rfl rfl
  · rw [heq]
    exact quiet h rfl
  · rw [heq]
    exact quiet h rfl

theorem capture (h : m'.pending = m.pending) (i : InstallationId) (g : FiberId) (r : Request) :
    m.Apart (m'.capture Γ i g r) := by
  rcases capture_cases (Γ := Γ) m' i g r with ⟨text, heq⟩ | heq | ⟨code, s, c', -, -, heq⟩
  · rw [heq]
    exact raise h rfl rfl
  · rw [heq]
    exact quiet h rfl
  · rcases heq with ⟨counters, journal, heq⟩ | ⟨y, command, counters, journal, -, -, heq⟩
    · rw [heq]
      exact raise h rfl rfl
    · rw [heq]
      exact quiet h rfl

theorem stepCont (h : m'.pending = m.pending) (k : Cont ω) : m.Apart (m'.stepCont k) := by
  cases k with
  | captured answer f s e =>
    exact enter (by exact h) s.lowest f
  | function answer g arg =>
    cases arg with
    | none => exact raise h rfl rfl
    | some v => exact quiet h rfl

theorem finish (h : m'.pending = m.pending) (i : InstallationId) (v : Value) :
    m.Apart (m'.finish Γ i v) := by
  unfold Machine.finish
  split
  · exact raise h rfl rfl
  · simp only
    split
    · exact raise h rfl rfl
    · exact quiet h rfl

theorem wake (m : Machine ω) : m.Apart m.wake := by
  unfold Machine.wake
  split
  · exact quiet rfl rfl
  · rename_i i g S hstack
    exact enter (by exact rfl) i g
  · split
    · exact raise rfl rfl rfl
    · split
      · exact quiet rfl rfl
      · exact raise rfl rfl rfl
  · exact raise rfl rfl rfl

theorem forward (m : Machine ω) (r : Request) : m.Apart (m.forward Γ r) := by
  unfold Machine.forward
  split
  · exact raise rfl rfl rfl
  · simp only
    split
    · split
      · exact capture (by exact rfl) _ _ r
      · exact quiet rfl rfl
    · exact raise rfl rfl rfl

theorem unwind {message : String} (hcontrol : m.control = .unwind message) :
    m.Apart (m.unwind message) := by
  unfold Machine.unwind
  split
  · cases hback : m.handBack (.unwind message) with
    | none => exact quiet rfl rfl
    | some m' =>
      obtain ⟨⟨S, fs⟩, -, rfl⟩ := Option.map_eq_some_iff.mp hback
      exact quiet rfl rfl
  · exact quiet rfl rfl
  · exact quiet rfl (by simp [release, hcontrol, Control.fault?])

theorem deliver (m : Machine ω) (s : Step (Cont ω) Value) : m.Apart (m.deliver s) := by
  unfold Machine.deliver
  split
  · cases s with
    | done v => exact quiet rfl rfl
    | tail k => exact stepCont rfl k
  · exact raise rfl rfl rfl

/-- A value is given to code, if not to a return clause or a closure. -/
theorem give {v : Value} (hcontrol : m.control = .ret v)
    (hreturning : ∀ i answer S, m.stack ≠ .returning i answer :: S)
    (hcalling : ∀ answer S, m.stack ≠ .calling answer :: S) : m.Apart (m.give Γ v) := by
  unfold Machine.give
  split
  · split
    · exact quiet rfl rfl
    · rename_i m₁ hback
      obtain ⟨journal, hwarn⟩ := exists_warn_eq { m₁ with pool := m₁.pool.giveBack.1 }
        m₁.pool.giveBack.2
      show m.Apart (({ m₁ with pool := m₁.pool.giveBack.1 } : Machine ω).warn m₁.pool.giveBack.2)
      rw [hwarn]
      obtain ⟨⟨S, fs⟩, -, rfl⟩ := Option.map_eq_some_iff.mp hback
      exact quiet rfl rfl
  · rename_i a S hstack
    cases a with
    | driving i g => exact finish (by exact rfl) i v
    | returning i answer => exact absurd hstack (hreturning i answer S)
    | calling answer => exact absurd hstack (hcalling answer S)
    | looping body next =>
      simp only
      split <;> exact quiet rfl rfl
    | owning os | inPlace i handler hidden e =>
      exact quiet rfl (by simp [discard, release, hcontrol, Control.fault?])
    | start body | stepping | sending i e modifier command => exact raise rfl rfl rfl
    | _ => exact quiet rfl rfl

/-- An operation that is not a tail resume. -/
theorem eval [Contents ω] {c : Comp ω} (hc : ∀ r v next, c ≠ .tailResume r v next) :
    m.Apart (m.eval Γ c) := by
  cases c with
  | tailResume r v next => exact absurd rfl (hc r v next)
  | handle x body next => exact install (by exact rfl) x body
  | invoke target command next =>
    simp only [Machine.eval]
    split
    · rename_i f hdispatch
      exact raise rfl rfl (Chain.isSlot_dispatch hdispatch)
    · unfold Machine.send
      simp only
      split
      · exact sendInPlace (by exact rfl) _ _ _
      · exact quiet rfl rfl
  | find search next =>
    simp only [Machine.eval]
    split
    · rename_i f hlocate
      exact raise rfl rfl (Chain.isSlot_locate hlocate)
    · exact quiet rfl rfl
  | apply f arg next =>
    simp only [Machine.eval, applyClosure]
    split <;> exact quiet rfl rfl
  | copy r next | function answer f next | take r next =>
    simp only [Machine.eval]
    split <;> exact quiet rfl rfl
  | resume r v next =>
    simp only [Machine.eval, Machine.resume]
    split
    · exact raise rfl rfl rfl
    · rename_i k m' harm
      refine quiet ?_ rfl
      obtain ⟨k', -, heq⟩ := Option.map_eq_some_iff.mp harm
      cases k' <;>
        · obtain ⟨-, rfl⟩ := Prod.mk.inj heq
          rfl
  | ask q next =>
    obtain ⟨nextLabel, hanswer⟩ := exists_answer_eq m q
    simp only [Machine.eval, hanswer]
    exact quiet rfl rfl
  | view v next =>
    obtain ⟨pool, journal, hview⟩ := exists_view_eq m v
    simp only [Machine.eval, hview]
    exact quiet rfl rfl
  | print p next =>
    obtain ⟨pool, journal, errors, hprint⟩ := exists_print_eq m p
    simp only [Machine.eval, hprint]
    exact quiet rfl rfl
  | popBare next =>
    simp only [Machine.eval]
    split
    · exact raise rfl rfl rfl
    · exact quiet rfl rfl
  | retain o next => cases o <;> exact quiet rfl rfl
  | _ => exact quiet rfl rfl

end Apart

variable [Contents ω]

/-- What a step has to do with the tail slot. -/
inductive Slots (Γ : Library ω) (m : Machine ω) : Prop
  | apart (hreleasing : m.releasing = []) (h : m.Apart (m.step Γ))
  | releases {x hs} (hreleasing : m.releasing = x :: hs)
  | tails {r v next} (hm : m.Evaluates (.tailResume r v next))
  /-- An answer is settled. -/
  | settles {answer v} (hreleasing : m.releasing = []) (hcontrol : m.control = .settle answer v)
  /-- A return clause or a closure ends, and its answer is settled at once. -/
  | answers {a answer v S kept} (hreleasing : m.releasing = []) (hcontrol : m.control = .ret v)
      (hstack : m.stack = a :: S)
      (ha : (∃ i, a = .returning i answer) ∨ a = .calling answer)
      (hstep : m.step Γ = ({ m with stack := S } : Machine ω).settle answer v kept)
  | ends {f : Fault} (hreleasing : m.releasing = []) (hcontrol : m.control = .fault f)
  | ended {o} (hreleasing : m.releasing = []) (hcontrol : m.control = .halted o)

theorem step_slots (Γ : Library ω) (m : Machine ω) : m.Slots Γ := by
  cases hreleasing : m.releasing with
  | cons x hs => exact .releases hreleasing
  | nil =>
    cases hcontrol : m.control with
    | eval c =>
      by_cases hc : ∃ r v next, c = .tailResume r v next
      · obtain ⟨r, v, next, rfl⟩ := hc
        exact .tails ⟨hreleasing, hcontrol⟩
      · refine .apart hreleasing ?_
        simp only [step, hreleasing, hcontrol]
        exact .eval fun r v next heq => hc ⟨r, v, next, heq⟩
    | ret v =>
      have hstep : m.step Γ = m.give Γ v := by simp only [step, hreleasing, hcontrol]
      by_cases hreturning : ∃ i answer S, m.stack = .returning i answer :: S
      · obtain ⟨i, answer, S, hstack⟩ := hreturning
        have hsettles : m.step Γ = ({ m with stack := S } : Machine ω).settle answer v
            [.installation i, .installation i] := by
          simp only [hstep, give, hstack]
        exact .answers hreleasing hcontrol hstack (.inl ⟨i, rfl⟩) hsettles
      by_cases hcalling : ∃ answer S, m.stack = .calling answer :: S
      · obtain ⟨answer, S, hstack⟩ := hcalling
        have hsettles : m.step Γ = ({ m with stack := S } : Machine ω).settle answer v [] := by
          simp only [hstep, give, hstack]
        exact .answers hreleasing hcontrol hstack (.inr rfl) hsettles
      · refine .apart hreleasing (hstep ▸ .give hcontrol ?_ ?_)
        · exact fun i answer S hstack => hreturning ⟨i, answer, S, hstack⟩
        · exact fun answer S hstack => hcalling ⟨answer, S, hstack⟩
    | deliver s =>
      refine .apart hreleasing ?_
      simp only [step, hreleasing, hcontrol]
      exact .deliver m s
    | settle answer v => exact .settles hreleasing hcontrol
    | request r =>
      refine .apart hreleasing ?_
      simp only [step, hreleasing, hcontrol]
      exact .forward m r
    | wake =>
      refine .apart hreleasing ?_
      simp only [step, hreleasing, hcontrol]
      exact .wake m
    | unwind message =>
      refine .apart hreleasing ?_
      simp only [step, hreleasing, hcontrol]
      exact .unwind hcontrol
    | fault f => exact .ends hreleasing hcontrol
    | halted o => exact .ended hreleasing hcontrol

end Machine

end EffectHandlers
