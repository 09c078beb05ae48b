import EffectHandlers.Proofs.Clearing
import EffectHandlers.Proofs.Conservation
import EffectHandlers.Proofs.Guards
import EffectHandlers.Proofs.Following
/-!
# The end of a thread

A thread that ends with a value has run its own code to the end and waits for no fiber. What it has
left then is what its evaluation has left: continuations that were not used, closures that were not
called. Where there is none, no fiber is parked, and all guards were noticed.
-/

namespace EffectHandlers

variable {ω : Type} {Γ : Library ω} {v : Value}

/-! ### Evaluations -/

namespace Evaluation

variable [Inhabited ω] {s : Evaluation ω}

/-- No operation ends an evaluation with a value. -/
theorem ending_eval (hs : s.ending = none) (c : Comp ω) : (s.eval Γ c).ending ≠ some (.ok v) := by
  unfold ending at hs
  cases c with
  | handle i body next =>
    simp only [eval, install]
    split
    · simp [ending, fail, goOn]
    · split <;> simp [ending, fail, goOn]
  | invoke target command next =>
    simp only [eval]
    split
    · simp [ending, fail, goOn]
    · rename_i i code hdispatch
      cases code <;> simp [runClause, ending, goOn]
  | _ =>
    simp only [eval]
    repeat' split
    all_goals simp [ending, fail, goOn, hs]

/-- An evaluation ends with a value once it returns it and nothing is left to do. -/
theorem returns_of_step (hend : (s.step Γ).ending = some (.ok v)) (hs : s.ending = none) :
    s.phase = .ret v ∧ s.frames = [] := by
  unfold step at hend
  split at hend
  · exact absurd hend (ending_eval hs _)
  · rename_i w hphase
    unfold give at hend
    split at hend
    · rename_i hframes
      obtain rfl : w = v := by simpa [ending, goOn] using hend
      exact ⟨hphase, hframes⟩
    · rename_i f frames hframes
      exfalso
      cases f with
      | looping body next =>
        simp only at hend
        split at hend <;> simp [ending, goOn] at hend
      | answering answer =>
        simp only at hend
        split at hend
        · simp [ending, goOn] at hend
        · split at hend <;> simp [ending, goOn, fail] at hend
      | _ => simp [ending, goOn] at hend
  · rename_i k w hphase
    cases k <;> simp [enter, ending, goOn] at hend
  · rename_i hphase
    simp [ending, hphase] at hs
  · rename_i hphase
    simp [ending, hphase] at hs

/-- The step after that is the last one. -/
theorem step_of_returns (hphase : s.phase = .ret v) (hframes : s.frames = []) :
    (s.step Γ).phase = .finished v := by
  simp [step, hphase, give, hframes, goOn]

/-- An evaluation returns once. -/
theorem returns_once {s₀ : Evaluation ω} {i j : Nat} {w : Value}
    (hi : ((step Γ)^[i] s₀).phase = .ret v) (hiframes : ((step Γ)^[i] s₀).frames = [])
    (hj : ((step Γ)^[j] s₀).phase = .ret w) (hjframes : ((step Γ)^[j] s₀).frames = []) : i = j := by
  have hstays : ∀ i j, i < j → ∀ v w, ((step Γ)^[i] s₀).phase = .ret v →
      ((step Γ)^[i] s₀).frames = [] → ((step Γ)^[j] s₀).phase ≠ .ret w := by
    intro i j hlt v w hv hframes hw
    have hended : ((step Γ)^[i + 1] s₀).ending = some (.ok v) := by
      rw [Function.iterate_succ_apply', ending, step_of_returns hv hframes]
    obtain ⟨d, rfl⟩ := Nat.exists_eq_add_of_le' hlt
    rw [iterate_of_ending hended d] at hw
    simp only [ending, hw] at hended
    cases hended
  rcases Nat.lt_trichotomy i j with hlt | heq | hlt
  · exact absurd hj (hstays _ _ hlt _ _ hi hiframes)
  · exact heq
  · exact absurd hi (hstays _ _ hlt _ _ hj hjframes)

end Evaluation

/-! ### Threads -/

namespace Machine

variable {m : Machine ω} {o : Outcome}

/-- The next step of a thread is its last one: its own code has returned. -/
structure AtEnd (m : Machine ω) (v : Value) : Prop where
  releasing : m.releasing = []
  control : m.control = .ret v
  stack : m.stack = []
  resumers : m.fibers.resumers = []

theorem settle_goes (m : Machine ω) (answer : String) (v : Value) (kept : List Holding) :
    (m.settle answer v kept).control ≠ .halted o := by
  unfold settle
  split
  · simp [goOn]
  · simp only
    split <;> simp [goOn]

theorem finish_goes (m : Machine ω) (i : InstallationId) (v : Value) :
    (m.finish Γ i v).control ≠ .halted o := by
  unfold finish
  split
  · simp [goOn]
  · simp only
    split <;> simp [goOn]

theorem enter_goes (m : Machine ω) (i : InstallationId) (f : FiberId) :
    (m.enter i f).control ≠ .halted o := by
  unfold enter
  split <;> simp [goOn]

theorem wake_goes (m : Machine ω) : m.wake.control ≠ .halted o := by
  unfold wake
  split
  · simp
  · exact enter_goes _ _ _
  · split
    · simp [goOn]
    · split <;> simp [goOn, release]
  · simp [goOn]

/-- Giving a value ends a thread where nobody is left to take it. -/
theorem ends_of_give (hreleasing : m.releasing = []) (hcontrol : m.control = .ret v)
    (h : (m.give Γ v).control = .halted o) : m.AtEnd v := by
  unfold give at h
  split at h
  · rename_i hstack
    split at h
    · rename_i hback
      have hnone : m.fibers.handBack? = none := Option.map_eq_none_iff.mp hback
      unfold Fibers.handBack? at hnone
      split at hnone
      · rename_i hresumers
        exact ⟨hreleasing, hcontrol, hstack, hresumers⟩
      · cases hnone
    · rename_i m₁ hback
      obtain ⟨⟨S, fs⟩, -, rfl⟩ := Option.map_eq_some_iff.mp hback
      obtain ⟨journal, hwarn⟩ := exists_warn_eq { m with
        fibers := fs, stack := S, control := .ret v, pool := m.pool.giveBack.1 } m.pool.giveBack.2
      simp [hwarn] at h
  · rename_i a S hstack
    exfalso
    cases a with
    | driving i f => exact finish_goes _ i v h
    | returning i answer | calling answer => exact settle_goes _ answer v _ h
    | looping body next =>
      simp only at h
      split at h <;> simp [goOn] at h
    | owning os => simp [discard, release, hcontrol] at h
    | inPlace i c hidden e => simp [release, hcontrol] at h
    | _ => simp [goOn] at h

theorem AtEnd.step [Contents ω] (h : m.AtEnd v) : m.step Γ = m.goOn (.halted (.finished v)) := by
  simp only [Machine.step, h.releasing, h.control, give, h.stack, handBack, Fibers.handBack?,
    h.resumers, Option.map_none]

theorem halted_of_ending {out : Except Fault Value} (hend : m.ending = some out) :
    ∃ o, m.control = .halted o ∧ o.result = some out := by
  unfold ending at hend
  split at hend
  · exact ⟨_, ‹_›, hend⟩
  · cases hend

section Shows

variable [Contents ω] {m₀ : Machine ω} {s₀ : Evaluation ω} {clock : Nat → Nat} {n : Nat}

theorem run_halted (h : m.control = .halted o) (hreleasing : m.releasing = []) (n : Nat) :
    run Γ n m = m := by
  induction n with
  | zero => rfl
  | succ n ih => rw [run_succ, ih, step_halted h hreleasing]

/-- A thread that ends with a value has a last step, and so has its evaluation. -/
theorem exists_ends (hpace : Pace clock)
    (hshows : ∀ n, ∃ d, m₀.Shows Γ n ((Evaluation.step Γ)^[clock n] s₀) d)
    (hstart : ∀ o, m₀.control ≠ .halted o) (hend : (run Γ n m₀).ending = some (.ok v)) :
    ∃ q < n, (run Γ q m₀).AtEnd v ∧
      run Γ n m₀ = (run Γ q m₀).goOn (.halted (.finished v)) ∧
      ((Evaluation.step Γ)^[clock q] s₀).phase = .ret v ∧
      ((Evaluation.step Γ)^[clock q] s₀).frames = [] ∧
      ∃ l, Sound Γ (run Γ q m₀) l ∧
        Tracks (m₀.Dropped Γ q) (run Γ q m₀) ((Evaluation.step Γ)^[clock q] s₀) := by
  obtain ⟨o, ho, hresult⟩ := halted_of_ending hend
  have hfinished : o = .finished v := by
    cases o with
    | finished w =>
      obtain rfl : w = v := by simpa [Outcome.result] using hresult
      rfl
    | panicked | fatal => simp [Outcome.result] at hresult
  subst hfinished
  have hhalts : ∃ n o, (run Γ n m₀).control = .halted o := ⟨n, _, ho⟩
  classical
  obtain ⟨o, hfirst⟩ := Nat.find_spec hhalts
  have hle : Nat.find hhalts ≤ n := Nat.find_min' hhalts ⟨_, ho⟩
  have hbefore : ∀ q < Nat.find hhalts, ∀ o, (run Γ q m₀).control ≠ .halted o := fun q hq o heq =>
    Nat.find_min hhalts hq ⟨o, heq⟩
  cases hfind : Nat.find hhalts with
  | zero =>
    rw [hfind] at hfirst
    exact absurd hfirst (hstart o)
  | succ q =>
    rw [hfind] at hfirst hle hbefore
    have hrunning := hbefore q (Nat.lt_succ_self q)
    obtain ⟨d, rfl⟩ := Nat.exists_eq_add_of_le hle
    have hsame : o = .finished v := by
      have hlater := control_run_halted (Γ := Γ) hfirst d
      rw [← run_add, ho] at hlater
      exact (Control.halted.inj hlater).symm
    subst hsame
    obtain ⟨b, hb⟩ := hshows q
    cases hb with
    | ended hm => exact absurd hm (hrunning _)
    | faulting hm =>
      rw [run_succ] at hfirst
      cases hreleasing : (run Γ q m₀).releasing with
      | cons x hs =>
        rw [step_releasing hreleasing, releaseOne_control] at hfirst
        cases hm.symm.trans hfirst
      | nil => simp [Machine.step, hreleasing, hm, exit, goOn] at hfirst
    | @running l _ hsound htracks hstage =>
      have hreleasing : (run Γ q m₀).releasing = [] := by
        cases hreleasing : (run Γ q m₀).releasing with
        | nil => rfl
        | cons x hs =>
          rw [run_succ, step_releasing hreleasing, releaseOne_control] at hfirst
          exact absurd hfirst (hrunning _)
      have hstep : (run Γ (q + 1) m₀).control = ((run Γ q m₀).step Γ).control :=
        congrArg control (run_succ q m₀)
      rw [hfirst] at hstep
      -- the evaluation ends when the thread does
      obtain ⟨hphase, hframes⟩ : ((Evaluation.step Γ)^[clock q] s₀).phase = .ret v ∧
          ((Evaluation.step Γ)^[clock q] s₀).frames = [] := by
        obtain ⟨b', hb'⟩ := hshows (q + 1)
        have hended : ((Evaluation.step Γ)^[clock (q + 1)] s₀).ending = some (.ok v) := by
          cases hb' with
          | running hsound' => exact absurd hsound'.tip.allows (by simp [hfirst])
          | faulting hm' => cases hm'.symm.trans hfirst
          | ended hm' ho' hs' =>
            cases hm'.symm.trans hfirst
            rw [hs', ← ho']
            rfl
        have hnone : ((Evaluation.step Γ)^[clock q] s₀).ending = none := by
          cases hstage with
          | _ => simp [Evaluation.ending, *]
        rcases hpace.next q with hclock | hclock
        · rw [hclock, hnone] at hended
          cases hended
        · rw [hclock, Function.iterate_succ_apply'] at hended
          exact Evaluation.returns_of_step hended hnone
      have hends : (run Γ q m₀).AtEnd v := by
        cases hstage with
        | eval hm hs | tail hm hs | start hm hstack hs | request hm hcarries hclause hy hcommand hs =>
          cases hs.symm.trans hphase
        | ret hm hs =>
          cases hs.symm.trans hphase
          refine ends_of_give (Γ := Γ) hreleasing hm (o := .finished v) ?_
          simpa only [Machine.step, hreleasing, hm] using hstep.symm
        | done hm =>
          obtain ⟨S, hstack, -⟩ := (hsound.of_deliver hm).2.2
          simp [Machine.step, hreleasing, hm, deliver, hstack] at hstep
        | settle hm hs hsettling => simp [hframes] at hsettling
        | wake hm =>
          simp only [Machine.step, hreleasing, hm] at hstep
          exact absurd hstep.symm (wake_goes _)
      have hlast : run Γ (q + 1) m₀ = (run Γ q m₀).goOn (.halted (.finished v)) := by
        rw [run_succ, hends.step]
      refine ⟨q, by omega, hends, ?_, hphase, hframes, l, hsound, htracks⟩
      rw [run_add, hlast]
      exact run_halted (m := (run Γ q m₀).goOn _) rfl hends.releasing d

end Shows

/-! ### What is left -/

/-- No code is left, and nothing that could be started again. -/
structure Bare (m : Machine ω) : Prop where
  stack : m.stack = []
  resumers : m.fibers.resumers = []
  parked : m.fibers.parked.entries = []
  resumptions : m.resumptions.entries = []
  closures : m.closures.entries = []
  releasing : m.releasing = []

theorem Bare.guards (h : m.Bare) (n : Notice) : m.guards n = 0 := by
  simp [Machine.guards, waiting, Store.gather, h.stack, h.resumers, h.parked, guardsOf, ownedBy]

/-- Where no continuation is left at the end, no fiber is left. -/
theorem AtEnd.parked {l : Layout ω} (h : m.AtEnd v) (hsound : Sound Γ m l)
    (hresumptions : m.resumptions.entries = []) (hpending : m.pending = none) :
    m.fibers.parked.entries = [] := by
  have hkept : l.kept = [] := by
    have hcaptured := hsound.captured
    simp [conts, armed, Control.conts, hresumptions, hpending, h.control] at hcaptured
    exact hcaptured
  have hdropped : l.dropped = [] := by
    have hdropping := hsound.dropping
    simp [h.releasing] at hdropping
    exact hdropping
  have hparks := hsound.parks.entries
  simp [(hsound.of_ret h.control).2.1, Layout.towers, hkept, hdropped] at hparks
  exact hparks

/-- A thread is bare at the end where no resumption is valid and its evaluation has nothing left. -/
theorem AtEnd.bare {l : Layout ω} {gone : Owned → Prop} {s : Evaluation ω} (h : m.AtEnd v)
    (hsound : Sound Γ m l) (htracks : Tracks gone m s)
    (hnone : ∀ r, m.resumptions.find? r = none) (hclosures : s.closures.entries = [])
    (hpending : s.pending = none) : m.Bare := by
  have hresumptions := Store.entries_eq_nil htracks.resumptions.left hnone
  have hempty : m.pending = none := by
    have hrel := htracks.pending
    rw [hpending] at hrel
    cases hp : m.pending with
    | none => rfl
    | some k =>
      rw [hp] at hrel
      cases hrel
  refine ⟨h.stack, h.resumers, h.parked hsound hresumptions hempty, hresumptions, ?_, h.releasing⟩
  refine Store.entries_eq_nil htracks.closures.left fun f => ?_
  cases hf : m.closures.find? f with
  | none => rfl
  | some y =>
    obtain ⟨body, hbody, -⟩ := htracks.closures.forth hf
    simp [Store.find?, hclosures] at hbody

section Releases

variable [Contents ω] {m₀ : Machine ω} {k q : Nat} {os : List Owned} {next : Comp ω}
  {r : ResumptionId}

/-- A resumption that is released is gone once everything is released. -/
theorem released_gone (htidy : m₀.Tidy) (hm : (run Γ k m₀).Filed) (hreleasing : (run Γ k m₀).releasing = [])
    (hcontrol : (run Γ k m₀).control = .eval (.release os next)) (hr : .resumption r ∈ os)
    (hissued : r < (run Γ k m₀).resumptions.next) (hkq : k < q)
    (hdone : (run Γ q m₀).releasing = []) : (run Γ q m₀).resumptions.find? r = none := by
  obtain ⟨p, rfl⟩ := Nat.exists_eq_add_of_lt hkq
  let m₁ : Machine ω := ((run Γ k m₀).discard os).goOn (.eval next)
  have hstep : run Γ (k + 1) m₀ = m₁ := by
    rw [run_succ]
    simp only [Machine.step, hreleasing, hcontrol]
    rfl
  have hafter : m₁.releasing = os.map .asset ++ [] := by
    show os.map Holding.asset ++ (run Γ k m₀).releasing = _
    rw [hreleasing]
  have hfiled : m₁.Filed := { hm with }
  obtain ⟨zs, m', hclears, hend⟩ := Releases.exists_clear hafter
  have hlater : run Γ (k + p + 1) m₀ = run Γ p m₁ := by
    rw [← hstep, ← run_add, Nat.add_right_comm]
  rw [hlater] at hdone ⊢
  have hlong : zs.length ≤ p := by
    by_contra hlt
    obtain ⟨x, xs, hmore⟩ := hclears.exists_next (Γ := Γ) (Nat.lt_of_not_le hlt)
    simp [hmore] at hdone
  obtain ⟨d, rfl⟩ := Nat.exists_eq_add_of_le hlong
  have hreleased : .asset (.resumption r) ∈ zs := by
    obtain ⟨ys, hys, hsub⟩ := hclears.sublist hafter
    have hnil : ys = [] := by simpa [hend] using hys.symm
    rw [hnil, List.append_nil] at hsub
    exact hsub.subset (List.mem_map_of_mem hr)
  have hgone := hclears.gone hfiled hreleased (.inr (.inl ⟨r, rfl⟩))
  have hnone : m'.resumptions.find? r = none := by
    simpa [Machine.has, holds, Store.contains] using hgone
  -- no number is handed out twice
  have hcleared : run Γ (k + (1 + zs.length)) m₀ = m' := by
    rw [← Nat.add_assoc, run_add, hstep, hclears.run]
  have hissued' : r < m'.resumptions.next := by
    rw [← hcleared, run_add]
    exact (run_find? (htidy.run k) hissued _).1
  have htidy' : m'.Tidy := hcleared ▸ htidy.run _
  obtain ⟨-, hused, hunused⟩ := run_find? (Γ := Γ) htidy' hissued' d
  rw [run_add, hclears.run]
  by_cases huses : ∃ j < d, (run Γ j m').Uses r
  · exact hused huses
  · rw [hunused fun j hj hu => huses ⟨j, hj, hu⟩, hnone]

end Releases

end Machine

end EffectHandlers
