import Mathlib.Data.Set.Basic
import Mathlib.Order.Basic
import EffectHandlers.Proofs.Conservation
import EffectHandlers.Proofs.Yielding
/-!
# Threads agree with evaluations

A thread that runs a careful program shows the evaluation of the program at every step, so the
same is observed of both: the same actions in the same order, and the same end.
-/

namespace EffectHandlers

/-! ### Runs that show the same

Two runs are watched through what can be observed of each of their states. When their states can
be paired up again and again, and nothing new is to be seen between one pair and the next, the
same is observed of both. -/

section

variable {O : Type} {p q : Nat → O}

/-- Pairs of moments of two runs. At a pair the same is observed, and there is always a next one,
until which nothing changes. -/
structure Lockstep (p q : Nat → O) (R : Nat → Nat → Prop) : Prop where
  same : ∀ {i j}, R i j → p i = q j
  next : ∀ {i j}, R i j → ∃ i' j', i < i' ∧ j < j' ∧ R i' j' ∧
    (∀ k, i ≤ k → k < i' → p k = p i) ∧ ∀ k, j ≤ k → k < j' → q k = q j

namespace Lockstep

variable {R : Nat → Nat → Prop}

/-- The two runs can change places. -/
theorem swap (h : Lockstep p q R) : Lockstep q p fun j i => R i j where
  same hR := (h.same hR).symm
  next hR := by
    obtain ⟨i', j', hi, hj, hR', hp, hq⟩ := h.next hR
    exact ⟨j', i', hj, hi, hR', hq, hp⟩

/-- What is observed of one run from a pair on is observed of the other. -/
theorem observed_of_le (h : Lockstep p q R) {i j n : Nat} (hR : R i j) (hn : i ≤ n) :
    ∃ k, q k = p n := by
  -- by induction on the distance to the moment: either nothing has changed yet, or the next pair
  -- is nearer
  induction hd : n - i using Nat.strong_induction_on generalizing i j with
  | _ d ih =>
    obtain ⟨i', j', hi, -, hR', hp, -⟩ := h.next hR
    by_cases hlt : n < i'
    · exact ⟨j, by rw [hp n hn hlt, h.same hR]⟩
    · exact ih (n - i') (by omega) hR' (by omega) rfl

/-- The same is observed of both runs. -/
theorem range_eq (h : Lockstep p q R) (hstart : R 0 0) : Set.range p = Set.range q := by
  ext o
  constructor
  · rintro ⟨n, rfl⟩
    exact h.observed_of_le hstart (Nat.zero_le n)
  · rintro ⟨n, rfl⟩
    exact h.swap.observed_of_le hstart (Nat.zero_le n)

end Lockstep

/-- Where each step of an iteration comes after some steps of a run, in which nothing new is to be seen,
the same is observed of both. -/
theorem range_eq_iterate {σ : Type} {view : σ → O} {step : σ → σ} {R : Nat → σ → Prop} {s₀ : σ}
    (hsame : ∀ {i s}, R i s → p i = view s)
    (hnext : ∀ {i s}, R i s →
      ∃ i', i < i' ∧ R i' (step s) ∧ ∀ k, i ≤ k → k < i' → p k = view s)
    (hstart : R 0 s₀) : Set.range p = Set.range fun n => view (step^[n] s₀) := by
  have hlockstep : Lockstep p (fun n => view (step^[n] s₀)) fun i j => R i (step^[j] s₀) :=
    { same := hsame
      next := by
        intro i j h
        obtain ⟨i', hi, hR, hquiet⟩ := hnext h
        refine ⟨i', j + 1, hi, Nat.lt_succ_self j, ?_, fun k hk hki => ?_, fun k hk hkj => ?_⟩
        · rwa [Function.iterate_succ_apply']
        · exact (hquiet k hk hki).trans (hsame h).symm
        · obtain rfl : k = j := by omega
          rfl }
  exact hlockstep.range_eq hstart

end

variable {ω : Type} [Contents ω] {Γ : Library ω} {m m' : Machine ω} {s s' : Evaluation ω}
  {l l' : Layout ω} {gone : Owned → Prop} {n : Nat} {c : Comp ω}

/-! ### Views -/

omit [Contents ω] in
/-- The diagnostics report only uses the settings. -/
theorem Alike.reportLines (m : Machine ω) : Alike m m.reportLines.2 := by
  have hused : Alike m { m with pool := { m.pool with settings := m.pool.settings.use.2.1 } } := by
    simp only [Alike, Machine.bare, SettingsSlot.use_use]
    rfl
  exact hused.trans (Alike.warn _ _)

omit [Contents ω] in
theorem Alike.view (m : Machine ω) (v : View) : Alike m (m.view v) := by
  cases v with
  | report => exact (Alike.reportLines m).trans rfl
  | _ => rfl

omit [Contents ω] in
theorem Alike.print (m : Machine ω) (p : Printout) : Alike m (m.print p) := by
  cases p with
  | report => exact (Alike.reportLines m).trans rfl
  | _ => rfl

omit [Contents ω] in
/-- Threads that are alike go on alike. -/
theorem Alike.goOn (h : Alike m m') (control : Control ω) :
    Alike (m.goOn control) (m'.goOn control) := by
  obtain ⟨pool, counters, journal, errors, rfl, hactions, hsettings⟩ := h.exists_eq
  simp only [Alike, Machine.bare, Machine.goOn, Machine.actions] at hactions ⊢
  rw [hactions, hsettings]

/-! ### Operations -/

/-- Where code is shared, the thread and the evaluation evaluate the same operation. -/
theorem Shares.steps (h : Shares m s c) (hreleasing : m.releasing = []) :
    m.step Γ = m.eval Γ c ∧ s.step Γ = s.eval Γ c :=
  ⟨by simp only [Machine.step, hreleasing, h.control], by simp only [Evaluation.step, h.phase]⟩

omit [Contents ω] in
/-- What waits for an operation waits in both. -/
theorem Shares.pushed (h : Shares m s c) (a : Activation ω) (x : Frame ω) (ha : a.frame? = some x) :
    x :: s.frames = context (a :: m.stack ++ m.waiting) := by
  rw [List.cons_append, context_cons, ha, h.frames]
  rfl

/-- An operation that faults, faults in both. -/
theorem Shares.faults (h : Shares m s c) (htracks : Tracks gone m s) {f : Fault}
    (hcontrol : (m.step Γ).control = .fault f) (hactions : (m.step Γ).actions = m.actions)
    (hfail : s.step Γ = s.fail f) : Advances Γ gone m s (n + 1) :=
  .fault (Nat.succ_pos _) (by simp only [Evaluation.ending, h.phase]) htracks.actions hcontrol hactions
    (by rw [hfail]; rfl) (by rw [hfail]; rfl)

namespace Sound

/-- A closure that was not dropped is called in both, or in none. -/
theorem applies (h : Sound Γ m l) (hΓ : Γ.Orderly) {f : ClosureId} {arg : Value}
    {next : Value → Comp ω} (htracks : Tracks gone m s)
    (hshares : Shares m s (.apply f arg next)) (hreleasing : m.releasing = [])
    (hgone : ¬ gone (.closure f)) : Advances Γ gone m s (m.fibers.resumers.length + 1) := by
  have hgood : Good Γ (m.step Γ) := h.step hΓ
  obtain ⟨hm, hs⟩ := hshares.steps (Γ := Γ) hreleasing
  have htracks' := htracks.push (.bind next) (.bind next)
  rcases htracks.closures.find? hgone with ⟨hf, hf'⟩ | ⟨x, body, hf, hf', rfl⟩
  · exact hgood.returns htracks' (hshares.pushed _ _ rfl)
      (by rw [hm]; simp only [Machine.eval, Machine.applyClosure, Machine.push, hf]; rfl)
      (by rw [hs]; simp only [Evaluation.eval, hf'])
  · exact hgood.evaluates (htracks'.useClosure f) (hshares.pushed _ _ rfl)
      (by rw [hm]; simp only [Machine.eval, Machine.applyClosure, Machine.push, hf]; rfl)
      (by rw [hs]; simp only [Evaluation.eval, hf']; rfl)

/-- A search finds the same. -/
theorem finds (h : Sound Γ m l) (hΓ : Γ.Orderly) {search : Search}
    {next : ReferenceId → Comp ω} (htracks : Tracks gone m s)
    (hshares : Shares m s (.find search next)) (hreleasing : m.releasing = []) :
    Advances Γ gone m s (m.fibers.resumers.length + 1) := by
  have hgood : Good Γ (m.step Γ) := h.step hΓ
  obtain ⟨hfront, -⟩ := h.of_eval hshares.control
  obtain ⟨hm, hs⟩ := hshares.steps (Γ := Γ) hreleasing
  have hsearch := (htracks.seen h hfront hshares.frames).search_eq search
  cases hlocate : m.chain.locate search with
  | error f =>
    rw [hlocate] at hsearch
    exact hshares.faults htracks (by rw [hm]; simp only [Machine.eval, hlocate]; rfl)
      (by rw [hm]; simp only [Machine.eval, hlocate]; rfl)
      (by rw [hs]; simp only [Evaluation.eval, ← hsearch])
  | ok i =>
    rw [hlocate] at hsearch
    refine hgood.evaluates ((htracks.refer i).hold i) hshares.frames
      (by rw [hm]; simp only [Machine.eval, hlocate]; rfl) (hs.trans ?_)
    simp only [Evaluation.eval, ← hsearch, Store.insert_fst, htracks.references.next]

/-- A reference that was not dropped is copied in both. -/
theorem copies (h : Sound Γ m l) (hΓ : Γ.Orderly) {r : ReferenceId}
    {next : ReferenceId → Comp ω} (htracks : Tracks gone m s)
    (hshares : Shares m s (.copy r next)) (hreleasing : m.releasing = [])
    (hgone : ¬ gone (.reference r)) : Advances Γ gone m s (m.fibers.resumers.length + 1) := by
  have hgood : Good Γ (m.step Γ) := h.step hΓ
  obtain ⟨hm, hs⟩ := hshares.steps (Γ := Γ) hreleasing
  have hfind := htracks.find?_reference hgone
  cases hr : m.references.find? r with
  | none =>
    rw [hr] at hfind
    refine hgood.evaluates htracks.skipReference hshares.frames
      (by rw [hm]; simp only [Machine.eval, hr]; rfl) (hs.trans ?_)
    simp only [Evaluation.eval, hfind, htracks.references.next]
  | some i =>
    rw [hr] at hfind
    refine hgood.evaluates ((htracks.refer i).hold i) hshares.frames
      (by rw [hm]; simp only [Machine.eval, hr]; rfl) (hs.trans ?_)
    simp only [Evaluation.eval, hfind, Store.insert_fst, htracks.references.next]

/-- A resumption is made of the same closure. -/
theorem makes (h : Sound Γ m l) (hΓ : Γ.Orderly) {answer : String} {f : ClosureId}
    {next : ResumptionId → Comp ω} (htracks : Tracks gone m s)
    (hshares : Shares m s (.function answer f next)) (hreleasing : m.releasing = [])
    (hgone : ¬ gone (.closure f)) : Advances Γ gone m s (m.fibers.resumers.length + 1) := by
  have hgood : Good Γ (m.step Γ) := h.step hΓ
  obtain ⟨hm, hs⟩ := hshares.steps (Γ := Γ) hreleasing
  rcases htracks.closures.find? hgone with ⟨hf, hf'⟩ | ⟨x, body, hf, hf', rfl⟩
  · refine hgood.evaluates htracks.skipResumption hshares.frames
      (by rw [hm]; simp only [Machine.eval, hf]; rfl) (hs.trans ?_)
    simp only [Evaluation.eval, hf', htracks.resumptions.next]
    rfl
  · have hstands : (Cont.function answer x none).Stands m.fibers (.function answer x.body) :=
      .function
    refine hgood.evaluates ((htracks.useClosure f).keep hstands) hshares.frames
      (by rw [hm]; simp only [Machine.eval, hf]; rfl) (hs.trans ?_)
    simp only [Evaluation.eval, hf', Store.insert_fst, htracks.resumptions.next]

/-- The same continuation is moved to a new resumption. -/
theorem takes (h : Sound Γ m l) (hΓ : Γ.Orderly) {r : ResumptionId}
    {next : ResumptionId → Comp ω} (htracks : Tracks gone m s)
    (hshares : Shares m s (.take r next)) (hreleasing : m.releasing = [])
    (hgone : ¬ gone (.resumption r)) : Advances Γ gone m s (m.fibers.resumers.length + 1) := by
  have hgood : Good Γ (m.step Γ) := h.step hΓ
  obtain ⟨hm, hs⟩ := hshares.steps (Γ := Γ) hreleasing
  rcases htracks.resumptions.find? hgone with ⟨hr, hr'⟩ | ⟨k, κ, hr, hr', hstands⟩
  · refine hgood.evaluates htracks.skipResumption hshares.frames
      (by rw [hm]; simp only [Machine.eval, hr]; rfl) (hs.trans ?_)
    simp only [Evaluation.eval, hr', htracks.resumptions.next]
    rfl
  · refine hgood.evaluates ((htracks.useResumption r).keep hstands) hshares.frames
      (by rw [hm]; simp only [Machine.eval, hr]; rfl) (hs.trans ?_)
    have hnext : (s.resumptions.erase r).next = (m.resumptions.erase r).next :=
      htracks.resumptions.next
    simp only [Evaluation.eval, hr', Store.insert_fst, hnext]
    rfl

/-- The same continuation is resumed. -/
theorem resumes (h : Sound Γ m l) (hΓ : Γ.Orderly) (htidy : m.Tidy) {r : ResumptionId}
    {v : Value} {next : Value → Comp ω} (htracks : Tracks gone m s)
    (hshares : Shares m s (.resume r v next)) (hreleasing : m.releasing = [])
    (hgone : ¬ gone (.resumption r)) : Advances Γ gone m s (m.fibers.resumers.length + 1) := by
  have hgood : Good Γ (m.step Γ) := h.step hΓ
  obtain ⟨hm, hs⟩ := hshares.steps (Γ := Γ) hreleasing
  rcases htracks.resumptions.find? hgone with ⟨hr, hr'⟩ | ⟨k, κ, hr, hr', hstands⟩
  · exact hshares.faults htracks
      (by rw [hm]; simp only [Machine.eval, Machine.resume, Machine.arm, Machine.push, hr]; rfl)
      (by rw [hm]; simp only [Machine.eval, Machine.resume, Machine.arm, Machine.push, hr]; rfl)
      (by rw [hs]; simp only [Evaluation.eval, hr'])
  · have hk : k ∈ m.conts := List.mem_append_left _ (List.mem_map_of_mem (Store.mem_of_find? hr))
    have htracks' := (htracks.arm htidy hr v).push (.bind next) (.bind next)
    have hstep : m.step Γ = ((({ m.push (.bind next) with
        resumptions := m.resumptions.erase r, exchanges := k.armExchanges m.exchanges v } :
          Machine ω).bump .resumes).push .stepping).goOn (.deliver (.tail (k.arm v))) := by
      rw [hm]
      simp only [Machine.eval, Machine.resume, Machine.arm_eq (m := m.push (.bind next)) hr v]
      rfl
    have hs' : s.step Γ = ((s.taken r).push (.bind next)).goOn (.resume κ v) := by
      rw [hs]
      simp only [Evaluation.eval, hr']
    refine hgood.advances (k := 1) ?_ ?_
    · rw [hstep, hs']
      exact { htracks' with }
    · rw [hstep, hs']
      exact .tail rfl rfl (h.holds_arm hk hstands v) (hshares.pushed (.bind next) (.bind next) rfl)

/-- The same continuation waits for the end of the clause. -/
theorem tailResumes (h : Sound Γ m l) (hΓ : Γ.Orderly) (htidy : m.Tidy) {r : ResumptionId}
    {v : Value} {next : Comp ω} (htracks : Tracks gone m s)
    (hshares : Shares m s (.tailResume r v next)) (hreleasing : m.releasing = [])
    (hgone : ¬ gone (.resumption r)) : Advances Γ gone m s (m.fibers.resumers.length + 1) := by
  have hgood : Good Γ (m.step Γ) := h.step hΓ
  obtain ⟨hm, hs⟩ := hshares.steps (Γ := Γ) hreleasing
  rcases htracks.resumptions.find? hgone with ⟨hr, hr'⟩ | ⟨k, κ, hr, hr', hstands⟩
  · exact hshares.faults htracks
      (by rw [hm]; simp only [Machine.eval, Machine.tailResume, Machine.arm, hr]; rfl)
      (by rw [hm]; simp only [Machine.eval, Machine.tailResume, Machine.arm, hr]; rfl)
      (by rw [hs]; simp only [Evaluation.eval, hr'])
  · have hk : k ∈ m.conts := List.mem_append_left _ (List.mem_map_of_mem (Store.mem_of_find? hr))
    have htracks' := htracks.arm htidy hr v
    cases hpending : m.pending with
    | none =>
      have hpending' : s.pending = none :=
        Option.not_isSome_iff_eq_none.mp (by simp [htracks.isSome_pending, hpending])
      refine hgood.advances (k := m.fibers.resumers.length + 1) ?_ ?_
      · rw [hm, hs]
        simp only [Machine.eval, Machine.tailResume, Machine.arm_eq hr v, Machine.bump, hpending,
          Evaluation.eval, hr', hpending']
        exact { htracks' with pending := .some (h.holds_arm hk hstands v) }
      · rw [hm, hs]
        simp only [Machine.eval, Machine.tailResume, Machine.arm_eq hr v, Machine.bump, hpending,
          Evaluation.eval, hr', hpending']
        exact .eval rfl rfl hshares.frames
    | some k' =>
      obtain ⟨p, hpending'⟩ : ∃ p, s.pending = some p :=
        Option.isSome_iff_exists.mp (by simp [htracks.isSome_pending, hpending])
      refine hshares.faults htracks (f := .tailSlotOccupied) ?_ ?_ ?_
      · rw [hm]
        simp only [Machine.eval, Machine.tailResume, Machine.arm_eq hr v, Machine.bump, hpending]
        rfl
      · rw [hm]
        simp only [Machine.eval, Machine.tailResume, Machine.arm_eq hr v, Machine.bump, hpending]
        rfl
      · rw [hs]
        simp only [Evaluation.eval, hr', hpending']

/-- Each operation of a careful program does to the thread what it does to the evaluation. -/
theorem operates (h : Sound Γ m l) (hΓ : Γ.Orderly) (htidy : m.Tidy) (htracks : Tracks gone m s)
    (hshares : Shares m s c) (hreleasing : m.releasing = []) (hgone : ∀ o ∈ c.uses, ¬ gone o)
    (hpool : c.asksPool = false) : Advances Γ gone m s (m.fibers.resumers.length + 1) := by
  have hgood : Good Γ (m.step Γ) := h.step hΓ
  obtain ⟨hfront, hlifted, hc, hready⟩ := h.of_eval hshares.control
  obtain ⟨hm, hs⟩ := hshares.steps (Γ := Γ) hreleasing
  have hframes := hshares.frames
  cases c with
  | panic | pushBare | popBare => exact hc.elim
  | handle i body next => exact h.handles hΓ htracks hshares hreleasing (Nat.succ_pos _)
  | invoke target command next => exact h.invokes hΓ htracks hshares hreleasing hgone
  | done v => exact hgood.returns htracks hframes (by rw [hm]; rfl) hs
  | record e next => exact hgood.evaluates (htracks.record e) hframes (by rw [hm]; rfl) hs
  | alloc content next =>
    refine hgood.evaluates (htracks.alloc content) hframes (by rw [hm]; rfl) (hs.trans ?_)
    rw [← htracks.cells.next]
    rfl
  | read cell next =>
    refine hgood.evaluates htracks hframes (by rw [hm]; rfl) (hs.trans ?_)
    rw [← htracks.content_eq (hgone _ List.mem_cons_self)]
    rfl
  | write cell content next =>
    exact hgood.evaluates (htracks.write cell content) hframes (by rw [hm]; rfl) hs
  | retain o next =>
    exact hgood.evaluates (htracks.retain o) (by cases o <;> exact hframes) (by rw [hm]; rfl) hs
  | release os next =>
    refine hgood.advances (k := m.fibers.resumers.length + 1) ?_ ?_
    · rw [hm, hs]
      exact { htracks with }
    · rw [hm, hs]
      exact .eval rfl rfl hframes
  | scope os body next =>
    have htracks' : Tracks gone ((m.push (.bind next)).push (.owning os)) (s.push (.bind next)) :=
      { htracks with }
    exact hgood.evaluates htracks' (hshares.pushed (.bind next) (.bind next) rfl) (by rw [hm]; rfl) hs
  | catching body next =>
    exact hgood.evaluates (htracks.push (.catching next) (.catching next)) (hshares.pushed _ _ rfl)
      (by rw [hm]; rfl) hs
  | loop seed body next =>
    exact hgood.evaluates (htracks.push (.looping body next) (.looping body next))
      (hshares.pushed _ _ rfl) (by rw [hm]; rfl) hs
  | call procedure arg next =>
    exact hgood.evaluates (htracks.push (.bind next) (.bind next)) (hshares.pushed _ _ rfl)
      (by rw [hm]; rfl) hs
  | closure owned body next =>
    refine hgood.evaluates (htracks.closure ⟨owned, body⟩) hframes (by rw [hm]; rfl) (hs.trans ?_)
    rw [← htracks.closures.next]
    rfl
  | apply f arg next => exact h.applies hΓ htracks hshares hreleasing (hgone _ List.mem_cons_self)
  | find search next => exact h.finds hΓ htracks hshares hreleasing
  | copy r next => exact h.copies hΓ htracks hshares hreleasing (hgone _ List.mem_cons_self)
  | function answer f next => exact h.makes hΓ htracks hshares hreleasing (hgone _ List.mem_cons_self)
  | take r next => exact h.takes hΓ htracks hshares hreleasing (hgone _ List.mem_cons_self)
  | resume r v next =>
    exact h.resumes hΓ htidy htracks hshares hreleasing (hgone _ List.mem_cons_self)
  | tailResume r v next =>
    exact h.tailResumes hΓ htidy htracks hshares hreleasing (hgone _ List.mem_cons_self)
  | ask q next =>
    have hpool' : q ≠ .pooledStacks := by
      rintro rfl
      cases hpool
    obtain ⟨s', hanswer, htracks', hframes', hstack, hwaiting⟩ :=
      htracks.answer h hfront hready hframes hgone hpool'
    refine hgood.evaluates htracks' (by rw [hframes', hstack, hwaiting, hframes])
      (by rw [hm]; rfl) (hs.trans ?_)
    simp only [Evaluation.eval, hanswer]
    rfl
  | view v next =>
    exact hgood.evaluates htracks hframes (by rw [hm]; exact (Alike.view m v).goOn _) hs
  | print p next =>
    exact hgood.evaluates htracks hframes (by rw [hm]; exact (Alike.print m p).goOn _) hs

end Sound

/-! ### Runs -/

namespace Simulates

/-- More may be gone. -/
theorem forget {gone' : Owned → Prop} (h : Simulates Γ gone m s n) (hgone : ∀ o, gone o → gone' o) :
    Simulates Γ gone' m s n := by
  cases h with
  | running hsound htracks hstage => exact .running hsound (htracks.forget hgone) hstage
  | faulting hm hstep hsame hending hactions => exact .faulting hm hstep hsame hending hactions
  | ended hm ho hs hactions => exact .ended hm ho hs hactions

/-- The next step of a thread with nothing to release shows the same evaluation, but not for ever,
or its next step. -/
theorem step (h : Simulates Γ gone m s n) (hΓ : Γ.Orderly) (htidy : m.Tidy)
    (hreleasing : m.releasing = []) (hcareful : ∀ c, m.control = .eval c →
      (∀ o ∈ c.uses, ¬ gone o) ∧ c.asksPool = false) : Advances Γ gone m s n := by
  cases h with
  | @running l _ hsound htracks hstage =>
    cases hcontrol : m.control with
    | eval c =>
      obtain ⟨hphase, hframes, rfl⟩ : s.phase = .eval c ∧
          s.frames = context (m.stack ++ m.waiting) ∧ n = m.fibers.resumers.length + 1 := by
        cases hstage <;> simp_all
      exact hsound.operates hΓ htidy htracks ⟨hcontrol, hphase, hframes⟩ hreleasing
        (hcareful c hcontrol).1 (hcareful c hcontrol).2
    | ret v => exact hsound.gives hΓ htracks hcontrol hreleasing hstage
    | deliver x => exact hsound.delivers hΓ htracks hcontrol hreleasing hstage
    | settle answer v =>
      obtain ⟨hphase, hframes, hn⟩ : s.phase = .ret v ∧
          s.frames = .answering answer :: context (m.stack ++ m.waiting) ∧ 0 < n := by
        cases hstage <;> simp_all
      have hm : m.step Γ = ({ m with stack := m.stack } : Machine ω).settle answer v [] := by
        simp only [Machine.step, hreleasing, hcontrol]
      exact (hsound.step hΓ).settles htracks hm hphase hframes hn
    | request r => exact hsound.requests hΓ htracks hcontrol hstage
    | wake => exact hsound.wakes hΓ htracks hcontrol hreleasing hstage
    | unwind message | fault f | halted o => exact absurd hsound.tip.allows (by simp [hcontrol])
  | @faulting f hm hstep hsame hending hactions =>
    have hexit : m.step Γ = m.exit f := by simp only [Machine.step, hreleasing, hm]
    refine .inr ⟨0, .ended (x := .error f) (by rw [hexit]; rfl) rfl ?_ ?_⟩
    · simp only [Evaluation.ending, hstep]
    · rw [hsame, hactions, hexit]
      rfl
  | @ended o x hm ho hs hactions =>
    have hstay : m.step Γ = m := by simp only [Machine.step, hreleasing, hm]
    have hstay' : s.step Γ = s := by
      unfold Evaluation.ending at hs
      unfold Evaluation.step
      split at hs <;> simp_all
    exact .inr ⟨0, .ended (by rw [hstay, hm]) ho (by rw [hstay', hs]) (by rw [hstay, hstay', hactions])⟩

end Simulates

namespace Machine

/-- A thread shows an evaluation after so many steps. -/
def Shows (Γ : Library ω) (m : Machine ω) (i : Nat) (s : Evaluation ω) (n : Nat) : Prop :=
  Simulates Γ (m.Dropped Γ i) (m.run Γ i) s n

variable {i : Nat}

/-- What is dropped in one more step. -/
theorem dropped_succ {o : Owned} (h : m.Dropped Γ i o ∨ (m.run Γ i).Drops Γ o) :
    m.Dropped Γ (i + 1) o := by
  rcases h with ⟨k, hk, hdrops⟩ | hdrops
  · exact ⟨k, Nat.lt_succ_of_lt hk, hdrops⟩
  · exact ⟨i, Nat.lt_succ_self i, hdrops⟩

/-- The next step of a careful thread shows the same evaluation, with less to do before the
evaluation goes on, or the next step of the evaluation. -/
theorem Shows.step (h : m.Shows Γ i s n) (hΓ : Γ.Orderly) (htidy : m.Tidy)
    (hcareful : m.Careful Γ) :
    (∃ n', (n' < n ∨ n' = n ∧ (m.run Γ (i + 1)).burden < (m.run Γ i).burden) ∧
      m.Shows Γ (i + 1) s n') ∨ ∃ n', m.Shows Γ (i + 1) (s.step Γ) n' := by
  unfold Shows at h ⊢
  rw [run_succ]
  cases hreleasing : (m.run Γ i).releasing with
  | cons x hs =>
    refine .inl ⟨n, .inr ⟨rfl, ?_⟩, (h.releaseOne hreleasing).forget fun o => dropped_succ⟩
    rw [step_releasing hreleasing]
    exact burden_releaseOne hreleasing
  | nil =>
    have hcareful' : ∀ c, (m.run Γ i).control = .eval c →
        (∀ o ∈ c.uses, ¬ m.Dropped Γ i o) ∧ c.asksPool = false := by
      intro c hc
      simpa only [uses, asksPool, hreleasing, hc] using hcareful i
    rcases h.step hΓ (htidy.run i) hreleasing hcareful' with
      ⟨n', hn', hnext⟩ | ⟨n', hnext⟩
    · exact .inl ⟨n', .inl hn', hnext.forget fun o ho => dropped_succ (.inl ho)⟩
    · exact .inr ⟨n', hnext.forget fun o ho => dropped_succ (.inl ho)⟩

/-- After a while, the thread shows the next step of the evaluation; until then, nothing new is
observed. -/
theorem Shows.next (h : m.Shows Γ i s n) (hΓ : Γ.Orderly) (htidy : m.Tidy)
    (hcareful : m.Careful Γ) :
    ∃ j n', i < j ∧ m.Shows Γ j (s.step Γ) n' ∧
      ∀ k, i ≤ k → k < j → (m.run Γ k).observed = s.observed := by
  -- by induction on the bound for steps that do not show, and then on what is left to release
  induction n using Nat.strong_induction_on generalizing i with
  | _ n ihn =>
    induction hb : (m.run Γ i).burden using Nat.strong_induction_on generalizing i with
    | _ b ihb =>
      have hsame : (m.run Γ i).observed = s.observed := Simulates.observed h
      have hlater : ∀ n', m.Shows Γ (i + 1) s n' →
          (∃ j n'', i + 1 < j ∧ m.Shows Γ j (s.step Γ) n'' ∧
            ∀ k, i + 1 ≤ k → k < j → (m.run Γ k).observed = s.observed) →
          ∃ j n'', i < j ∧ m.Shows Γ j (s.step Γ) n'' ∧
            ∀ k, i ≤ k → k < j → (m.run Γ k).observed = s.observed := by
        rintro n' - ⟨j, n'', hj, hshows, hquiet⟩
        refine ⟨j, n'', Nat.lt_of_succ_lt hj, hshows, fun k hk hkj => ?_⟩
        rcases Nat.eq_or_lt_of_le hk with rfl | hk
        · exact hsame
        · exact hquiet k hk hkj
      rcases h.step hΓ htidy hcareful with ⟨n', hless | ⟨rfl, hless⟩, hshows⟩ | ⟨n', hshows⟩
      · exact hlater n' hshows (ihn n' hless hshows)
      · exact hlater n' hshows (ihb _ (hb ▸ hless) hshows rfl)
      · refine ⟨i + 1, n', Nat.lt_succ_self i, hshows, fun k hk hki => ?_⟩
        obtain rfl : k = i := by omega
        exact hsame

/-- At the start, everything is shown. -/
theorem shows_start {settings : SettingsSlot} {main : Comp ω} (cells : List ω)
    (statics : List Owned) (hmain : main.Orderly)
    (hsize : settings.use.1.stackSize < StackPool.addressSpace) :
    (Machine.start settings cells statics main).Shows Γ 0 (Evaluation.start cells main) 1 := by
  have hwords : settings.use.1.stackSize + StackPool.margin < Word.count := by
    unfold StackPool.addressSpace at hsize
    unfold StackPool.margin Word.count
    omega
  refine .running (Sound.start cells statics hmain hwords) ?_ (.eval rfl rfl rfl)
  exact
    { cells := (Store.Shadows.empty 1).insertAll (fun content : ω => Shared.mk content 1) id
        (fun _ => rfl) cells
      closures := .empty 0
      references := .empty _
      resumptions := .empty _
      pending := .none
      installed :=
        { next := rfl
          found := by
            intro i a hi ha
            have hmem : (i, a) ∈ (Machine.start settings cells statics main).chain.installations.entries :=
              Store.mem_of_find? ha
            simp [Machine.start, Chain.initial, Store.ofList, Store.insert, Store.empty, hi] at hmem
          bottom := rfl
          nothing := rfl }
      nextLabel := rfl
      declared := rfl
      actions := rfl
      room := hsize }

end Machine

/-- A thread that runs a careful program does what the reference semantics says: the same actions
are observed in the same order, and it ends with the same value or the same fault, or not at
all. -/
theorem Machine.agrees_with_evaluation {settings : SettingsSlot} {cells : List ω}
    {statics : List Owned} {main : Comp ω} (hΓ : Γ.Orderly) (hmain : main.Orderly)
    (hsize : settings.use.1.stackSize < StackPool.addressSpace)
    (hcareful : (Machine.start settings cells statics main).Careful Γ) :
    (Set.range fun n => (Machine.run Γ n (Machine.start settings cells statics main)).observed) =
      Set.range fun n => ((Evaluation.step Γ)^[n] (Evaluation.start cells main)).observed := by
  refine range_eq_iterate
    (R := fun i s => ∃ n, (Machine.start settings cells statics main).Shows Γ i s n)
    (fun ⟨_, hshows⟩ => Simulates.observed hshows) ?_ ⟨1, Machine.shows_start cells statics hmain hsize⟩
  rintro i s ⟨n, hshows⟩
  obtain ⟨i', n', hi, hnext, hquiet⟩ :=
    hshows.next hΓ (Machine.tidy_start settings cells statics main) hcareful
  exact ⟨i', hi, ⟨n', hnext⟩, hquiet⟩

/-- The only thing that `asking` uses is the continuation of its invocation, while it is there. -/
theorem careful_asking : (Machine.start {} [()] [] asking).Careful reader := by
  intro n
  by_cases hn : n < 33
  · have huses : ∀ n < 33, (Machine.run reader n (Machine.start {} [()] [] asking)).uses =
        if n = 4 then [.resumption 1] else [] := by decide +kernel
    have hpool : ∀ n < 33, (Machine.run reader n (Machine.start {} [()] [] asking)).asksPool =
        false := by decide +kernel
    refine ⟨fun o ho => ?_, hpool n hn⟩
    rw [huses n hn] at ho
    split at ho
    · rename_i hfour
      subst hfour
      rintro ⟨k, hk, hhead, -⟩
      have hreleasing : ∀ k < 4, (Machine.run reader k (Machine.start {} [()] [] asking)).releasing =
          [] := by decide +kernel
      rw [hreleasing k hk] at hhead
      cases hhead
    · cases ho
  · obtain ⟨k, rfl⟩ := Nat.exists_eq_add_of_le (Nat.not_lt.mp hn)
    have hend : (Machine.run reader 33 (Machine.start {} [()] [] asking)).control =
        .halted (.finished (.int 2)) := rfl
    have hcontrol := Machine.control_run_halted (Γ := reader) hend k
    rw [← Machine.run_add] at hcontrol
    simp [Machine.uses, Machine.asksPool, hcontrol]

/-- The program that handles one command shows its evaluation. -/
theorem Machine.agrees_with_evaluation_asking :
    (Set.range fun n => (Machine.run reader n (Machine.start {} [()] [] asking)).observed) =
      Set.range fun n =>
        ((Evaluation.step reader)^[n] (Evaluation.start [()] asking)).observed :=
  Machine.agrees_with_evaluation reader_orderly asking_orderly (by decide) careful_asking

end EffectHandlers
