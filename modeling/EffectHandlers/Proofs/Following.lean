import EffectHandlers.Proofs.Leading
/-!
# Threads that follow a plan

A plan says what a program is about to do at each of its moments, what its cells show then, and how it
has ended, if it has. An evaluation that gets from each moment to the next one follows the plan, and so
does every careful thread that shows the evaluation.
-/

namespace EffectHandlers

variable {ω : Type}

/-- What a program does moment by moment. -/
structure Plan (ω : Type) where
  At : Nat → Evaluation ω → Prop
  Shown : Nat → (CellId → Option ω) → Prop
  Ended : Nat → Value → Prop
  /-- What cells show, they show as far as they are there. -/
  mono : ∀ {t contents contents'}, Shown t contents →
    (∀ c x, contents' c = some x → contents c = some x) → Shown t contents'

namespace Evaluation

variable [Inhabited ω] {Γ : Library ω} {plan : Plan ω} {s s₀ : Evaluation ω} {k : Nat}
  {x : Except Fault Value}

/-- An evaluation gets from each moment of a plan to the next one. -/
structure Follows (Γ : Library ω) (s₀ : Evaluation ω) (plan : Plan ω) : Prop where
  start : Leads Γ (fun cells => plan.Shown 0 cells.find?) (plan.At 0) s₀
  next : ∀ t s, plan.At t s → Turns Γ (fun cells => plan.Shown t cells.find?)
    (fun cells => plan.Shown (t + 1) cells.find?) (plan.At (t + 1)) s
  ending : ∀ t s x, plan.At t s → (s.ending = some x ↔ ∃ v, x = .ok v ∧ plan.Ended t v)

theorem step_of_ending (h : s.ending = some x) : s.step Γ = s := by
  unfold ending at h
  unfold step
  split at h <;> simp_all

/-- What has ended stays as it is. -/
theorem iterate_of_ending (h : ((step Γ)^[k] s₀).ending = some x) (d : Nat) :
    (step Γ)^[d + k] s₀ = (step Γ)^[k] s₀ := by
  induction d with
  | zero => rw [Nat.zero_add]
  | succ d ih => rw [Nat.succ_add, Function.iterate_succ_apply', ih, step_of_ending h]

namespace Follows

/-- The clock of an evaluation tells to which moment of the plan it has got. -/
theorem exists_clock (h : Follows Γ s₀ plan) :
    ∃ clock, Pace clock ∧ (∀ k, plan.Shown (clock k) ((step Γ)^[k] s₀).cells.find?) ∧
      ∀ t, ∃ k, clock k = t ∧ plan.At t ((step Γ)^[k] s₀) :=
  exists_pace_of_turns plan.At (fun t cells => plan.Shown t cells.find?) h.start h.next

/-- The evaluation ends where the plan does, and nowhere else. -/
theorem exists_ending_iff (h : Follows Γ s₀ plan) :
    (∃ k, ((step Γ)^[k] s₀).ending = some x) ↔ ∃ t v, x = .ok v ∧ plan.Ended t v := by
  obtain ⟨clock, hpace, -, harrives⟩ := h.exists_clock
  constructor
  · rintro ⟨k, hx⟩
    obtain ⟨k', hk', hat⟩ := harrives (clock k + 1)
    have hlater : k ≤ k' := by
      by_contra hlt
      have := hpace.monotone (Nat.le_of_not_le hlt)
      omega
    obtain ⟨d, rfl⟩ := Nat.exists_eq_add_of_le' hlater
    rw [iterate_of_ending hx d] at hat
    exact ⟨_, (h.ending _ _ _ hat).mp hx⟩
  · rintro ⟨t, ht⟩
    obtain ⟨k, -, hat⟩ := harrives t
    exact ⟨k, (h.ending _ _ _ hat).mpr ht⟩

end Follows

end Evaluation

/-! ### Operations that a thread gets to -/

section Shows

variable [Contents ω] {Γ : Library ω} {m₀ : Machine ω} {s₀ : Evaluation ω} {clock : Nat → Nat}
  {j q : Nat} {c c' : Comp ω}

/-- A thread that shows the evaluation of some code is about to evaluate it, or has just started,
or is on its way to a clause or a fault. -/
theorem Simulates.control_of_eval {gone : Owned → Prop} {m : Machine ω} {s : Evaluation ω} {d : Nat}
    (h : Simulates Γ gone m s d) (hs : s.phase = .eval c) :
    m.control = .eval c ∨ (m.control = .wake ∧ ∃ S, m.stack = .start c :: S) ∨
      (∃ r target command k, m.control = .request r ∧ c = .invoke target command k) ∨
      ∃ f, m.control = .fault f ∧ (s.step Γ).phase = .failed f := by
  cases h with
  | running _ _ hstage =>
    cases hstage with
    | eval hm hs' =>
      cases hs'.symm.trans hs
      exact .inl hm
    | start hm hstack hs' =>
      cases hs'.symm.trans hs
      exact .inr (.inl ⟨hm, _, hstack⟩)
    | request hm _ _ _ _ hs' =>
      cases hs'.symm.trans hs
      exact .inr (.inr (.inl ⟨_, _, _, _, hm, rfl⟩))
    | ret _ hs' | done _ hs' | tail _ hs' | settle _ hs' | wake _ _ _ _ hs' =>
      cases hs'.symm.trans hs
  | faulting hm hstep => exact .inr (.inr (.inr ⟨_, hm, hstep⟩))
  | ended hm ho hend => simp [Evaluation.ending, hs] at hend

/-- Before its clock goes on from an operation to other code, a thread is about to evaluate it. -/
theorem Machine.exists_evaluating (hpace : Pace clock)
    (hshows : ∀ n, ∃ d, m₀.Shows Γ n ((Evaluation.step Γ)^[clock n] s₀) d)
    (hj : ((Evaluation.step Γ)^[j] s₀).phase = .eval c)
    (hafter : ((Evaluation.step Γ)^[j + 1] s₀).phase = .eval c') (hne : c' ≠ c)
    (hc : ∀ target command k, c ≠ .invoke target command k) (hlt : j < clock q) :
    ∃ k < q, clock k = j ∧ (Machine.run Γ k m₀).releasing = [] ∧
      (Machine.run Γ k m₀).control = .eval c ∧
      ∃ l, Sound Γ (Machine.run Γ k m₀) l ∧
        Tracks (m₀.Dropped Γ k) (Machine.run Γ k m₀) ((Evaluation.step Γ)^[j] s₀) := by
  obtain ⟨k, hk, rfl, hnext⟩ := hpace.exists_last hlt
  obtain ⟨b, hb⟩ := hshows k
  obtain ⟨b', hb'⟩ := hshows (k + 1)
  rw [hnext] at hb'
  have hlater := hb'.control_of_eval hafter
  rw [Machine.run_succ] at hlater
  -- the next step is not on its way to the same operation
  have hleft : ¬ (((Machine.run Γ k m₀).step Γ).control = .eval c ∨
      ((Machine.run Γ k m₀).step Γ).control = .wake ∧
        ∃ S, ((Machine.run Γ k m₀).step Γ).stack = .start c :: S) := by
    rintro (hcontrol | ⟨hcontrol, S, hS⟩)
    · rcases hlater with h | ⟨h, -⟩ | ⟨_, _, _, _, h, -⟩ | ⟨_, h, -⟩
      · exact hne (Control.eval.inj (h.symm.trans hcontrol))
      all_goals cases h.symm.trans hcontrol
    · rcases hlater with h | ⟨-, S', hS'⟩ | ⟨_, _, _, _, h, -⟩ | ⟨_, h, -⟩
      · cases h.symm.trans hcontrol
      · exact hne (Activation.start.inj (List.cons.inj (hS'.symm.trans hS)).1)
      all_goals cases h.symm.trans hcontrol
  have hstays : ∀ x hs, (Machine.run Γ k m₀).releasing = x :: hs →
      ((Machine.run Γ k m₀).step Γ).control = (Machine.run Γ k m₀).control ∧
        ((Machine.run Γ k m₀).step Γ).stack = (Machine.run Γ k m₀).stack := by
    intro x hs hreleasing
    rw [Machine.step_releasing hreleasing]
    exact ⟨Machine.releaseOne_control _ x, (Machine.releaseOne_same _ x).1⟩
  have hgoes : ∀ f, (((Evaluation.step Γ)^[clock k] s₀).step Γ).phase ≠ .failed f := fun f hf => by
    rw [Function.iterate_succ_apply', hf] at hafter
    cases hafter
  cases hreleasing : (Machine.run Γ k m₀).releasing with
  | cons x hs =>
    obtain ⟨hcontrol, hstack⟩ := hstays x hs hreleasing
    rw [hcontrol, hstack] at hleft
    rcases hb.control_of_eval hj with h | h | ⟨_, _, _, _, -, h⟩ | ⟨_, -, h⟩
    · exact absurd (.inl h) hleft
    · exact absurd (.inr h) hleft
    · exact absurd h (hc _ _ _)
    · exact absurd h (hgoes _)
  | nil =>
    rcases hb.control_of_eval hj with h | ⟨h, S, hS⟩ | ⟨_, _, _, _, -, h⟩ | ⟨_, -, h⟩
    · cases hb with
      | @running l _ hsound htracks => exact ⟨k, hk, rfl, hreleasing, h, l, hsound, htracks⟩
      | faulting hm | ended hm => cases hm.symm.trans h
    · refine absurd (.inl ?_) hleft
      simp [Machine.step, hreleasing, h, Machine.wake, hS]
    · exact absurd h (hc _ _ _)
    · exact absurd h (hgoes _)

end Shows

namespace Machine

variable [Contents ω] {Γ : Library ω} {plan : Plan ω}

/-- What is in a cell. -/
def contents (m : Machine ω) (c : CellId) : Option ω := (m.cells.find? c).map Shared.content

/-- A thread follows a plan. Its clock tells to which moment it has got. As long as the thread has not
ended, its cells show what there is to see then; and each moment comes at which it does what is
planned. -/
structure Follows (Γ : Library ω) (m : Machine ω) (plan : Plan ω) (clock : Nat → Nat) : Prop where
  pace : Pace clock
  shown : ∀ n, (∀ o, (m.run Γ n).control ≠ .halted o) →
    plan.Shown (clock n) (m.run Γ n).contents
  arrives : ∀ t, ∃ n d s, clock n = t ∧ m.Shows Γ n s d ∧ plan.At t s

/-- Where an evaluation follows a plan, a thread that shows it does not fault. -/
theorem exists_tracks {m₀ : Machine ω} {s₀ : Evaluation ω} {clock : Nat → Nat} {n : Nat}
    (h : Evaluation.Follows Γ s₀ plan)
    (hshows : ∀ n, ∃ d, m₀.Shows Γ n ((Evaluation.step Γ)^[clock n] s₀) d)
    (hrunning : ∀ o, (m₀.run Γ n).control ≠ .halted o) :
    ∃ l, Sound Γ (m₀.run Γ n) l ∧
      Tracks (m₀.Dropped Γ n) (m₀.run Γ n) ((Evaluation.step Γ)^[clock n] s₀) := by
  obtain ⟨d, hd⟩ := hshows n
  cases hd with
  | running hsound htracks => exact ⟨_, hsound, htracks⟩
  | @faulting f _ hstep =>
    -- the evaluation would end with a fault
    have hended : ((Evaluation.step Γ)^[clock n + 1] s₀).ending = some (.error f) := by
      rw [Function.iterate_succ_apply', Evaluation.ending, hstep]
    obtain ⟨t, v, hx, -⟩ := h.exists_ending_iff.mp ⟨_, hended⟩
    cases hx
  | ended hhalted => exact absurd hhalted (hrunning _)

section Careful

variable {settings : SettingsSlot} {cells : List ω} {statics : List Owned} {main : Comp ω}

/-- A careful thread shows the states of its evaluation by one clock, and by another one the evaluation
gets from each moment of its plan to the next one. -/
theorem exists_clocks (hΓ : Γ.Orderly) (hmain : main.Orderly)
    (hsize : settings.use.1.stackSize < StackPool.addressSpace)
    (hcareful : (start settings cells statics main).Careful Γ)
    (h : Evaluation.Follows Γ (Evaluation.start cells main) plan) :
    ∃ clock clock', Pace clock' ∧
      (∀ n, ∃ d, (start settings cells statics main).Shows Γ n
        ((Evaluation.step Γ)^[clock' n] (Evaluation.start cells main)) d) ∧
      (∀ t, ∃ k, clock k = t ∧ plan.At t ((Evaluation.step Γ)^[k] (Evaluation.start cells main))) ∧
      (start settings cells statics main).Follows Γ plan (clock ∘ clock') := by
  obtain ⟨clock, hpace, hshown, harrives⟩ := h.exists_clock
  obtain ⟨clock', hpace', hshows⟩ := exists_pace_shows hΓ hmain hsize hcareful
  refine ⟨clock, clock', hpace', hshows, harrives, hpace.comp hpace', fun n hrunning => ?_,
    fun t => ?_⟩
  · obtain ⟨_, -, htracks⟩ := exists_tracks h hshows hrunning
    refine plan.mono (hshown (clock' n)) fun c x hx => ?_
    obtain ⟨y, hy, rfl⟩ := Option.map_eq_some_iff.mp hx
    obtain ⟨content, hcontent, rfl⟩ := htracks.cells.forth hy
    exact hcontent
  · obtain ⟨k, rfl, hat⟩ := harrives t
    obtain ⟨n, rfl⟩ := hpace'.reaches k
    obtain ⟨d, hd⟩ := hshows n
    exact ⟨n, d, _, rfl, hd, hat⟩

/-- A careful thread follows the plan of its evaluation. -/
theorem exists_follows (hΓ : Γ.Orderly) (hmain : main.Orderly)
    (hsize : settings.use.1.stackSize < StackPool.addressSpace)
    (hcareful : (start settings cells statics main).Careful Γ)
    (h : Evaluation.Follows Γ (Evaluation.start cells main) plan) :
    ∃ clock, (start settings cells statics main).Follows Γ plan clock := by
  obtain ⟨_, _, -, -, -, hfollows⟩ := exists_clocks hΓ hmain hsize hcareful h
  exact ⟨_, hfollows⟩

/-- A careful thread ends where the plan of its evaluation does, and nowhere else. -/
theorem exists_ending_iff (hΓ : Γ.Orderly) (hmain : main.Orderly)
    (hsize : settings.use.1.stackSize < StackPool.addressSpace)
    (hcareful : (start settings cells statics main).Careful Γ)
    (h : Evaluation.Follows Γ (Evaluation.start cells main) plan) {x : Except Fault Value} :
    (∃ n, (run Γ n (start settings cells statics main)).ending = some x) ↔
      ∃ t v, x = .ok v ∧ plan.Ended t v := by
  rw [← h.exists_ending_iff]
  have hsame := agrees_with_evaluation hΓ hmain hsize hcareful
  constructor
  · rintro ⟨n, hn⟩
    obtain ⟨k, hk⟩ := hsame.subset ⟨n, rfl⟩
    exact ⟨k, (congrArg Prod.snd hk).trans hn⟩
  · rintro ⟨k, hk⟩
    obtain ⟨n, hn⟩ := hsame.superset ⟨k, rfl⟩
    exact ⟨n, (congrArg Prod.snd hn).trans hk⟩

end Careful

end Machine

end EffectHandlers
