import EffectHandlers.Proofs.Absence
import EffectHandlers.Proofs.Seats
/-!
# The life cycle of an installation

The return clause of an installation runs once, when its body has returned, and from then on nothing
reaches the installation. Neither does anything while one of its clauses has the continuation.
-/

namespace EffectHandlers

variable {ω : Type} {Γ : Library ω} {m : Machine ω} {i : InstallationId}

/-! ### Being on the chain -/

namespace Chain

variable {c c' : Chain} {s : Segment}

theorem SameLinks.fades (h : c.SameLinks c') : c.Fades c' where
  top := h.top
  next := h.next
  links j a' ha' := by
    have hlinks := h.links j
    rw [ha', Option.map_some] at hlinks
    obtain ⟨a, ha, heq⟩ := Option.map_eq_some_iff.mp hlinks.symm
    exact ⟨a, ha, heq.symm⟩

theorem Cuts.isLive (h : c.Cuts i s c') : c.isLive i := by
  obtain ⟨c₁, c₂, hlinks, hsplit, -⟩ := h
  exact hlinks.fades.isLive (isLive_of_split hsplit)

theorem isLive_of_pop? (hwf : c.installations.WellFormed) (h : c.pop? = some (i, c')) :
    c.isLive i := by
  obtain ⟨b, hb, heq⟩ := Option.map_eq_some_iff.mp h
  obtain ⟨rfl, -⟩ := Prod.mk.inj heq
  have hbottom : (c.get c.top).isBottom = false := isBottom_eq_false (by simp [hb])
  obtain ⟨n, hn⟩ : ∃ n, c.installations.next = n + 1 := by
    cases ha : c.installations.find? c.top with
    | none => simp [get, ha, Installation.bottom] at hb
    | some a => exact ⟨c.installations.next - 1, by have := Store.lt_next hwf ha; omega⟩
  simp [isLive, search?, hn, searchFrom, hbottom]

end Chain

namespace Machine

variable [Contents ω] {e : ExchangeId} {command : Command} {position : Nat} {v : Value}

/-- The clauses of an installation start while it is on the chain. -/
theorem Starts.isLive (h : m.Starts Γ e command i position) : m.chain.isLive i := by
  obtain ⟨code, ⟨hcode, -⟩, -⟩ := id h
  by_cases hplain : code.modifier = .plain
  · obtain ⟨s, hhides⟩ := h.hides hcode hplain
    exact hhides.cuts.isLive
  · obtain ⟨name, s, hcaptures⟩ := h.captures hcode hplain
    exact hcaptures.cuts.isLive

/-- So does its return clause. -/
theorem StartsReturn.isLive (h : m.StartsReturn Γ i v) (hm : m.Counts) : m.chain.isLive i := by
  obtain ⟨c, hpop, -⟩ := h.retires.pops
  exact Chain.isLive_of_pop? hm.installations hpop

/-- Nothing reaches the installation: no search finds it, no command is sent to it, references to
it say that it is not installed, and no clause of it starts. -/
structure Unreachable (Γ : Library ω) (m : Machine ω) (i : InstallationId) : Prop where
  dispatch : ∀ target command position,
    m.chain.dispatch m.referent command target ≠ .ok (i, position)
  locate : ∀ search, m.chain.locate search ≠ .ok i
  isInstalled : ∀ r, m.referent r = i → m.answer (.isInstalled r) = (.bool false, m)
  starts : ∀ e command position, ¬ m.Starts Γ e command i position
  returns : ∀ v, ¬ m.StartsReturn Γ i v

theorem Absent.unreachable {T : Tie → Prop} (h : m.Absent T i) (hm : m.Counts) :
    m.Unreachable Γ i := by
  have hdead : ¬ m.chain.isLive i := by simp [h.dead]
  exact
    { dispatch := fun target command position hfound => hdead (Chain.isLive_of_dispatch hfound)
      locate := fun search hfound => hdead (Chain.isLive_of_locate hfound)
      isInstalled := fun r hr => by simp [answer, Chain.isInstalled, hr, h.dead]
      starts := fun e command position hstarts => hdead hstarts.isLive
      returns := fun v hreturns => hdead (hreturns.isLive hm) }

/-! ### The body of an installation -/

/-- The body of an installation runs on a fiber, which a driver waits for or a continuation that
goes on with it. -/
def Drives (m : Machine ω) (i : InstallationId) (f : FiberId) : Prop :=
  .driving i f ∈ m.posts ∨
    ∃ answer s e, .captured answer f s e ∈ m.latent ++ m.roused ∧ s.lowest = i

/-- The fiber of a driver is the one that was made for the body. -/
theorem step_drives {f : FiberId} (h : (m.step Γ).Drives i f) :
    m.Drives i f ∨ ∃ x body, m.Installs Γ x body i f := by
  rcases h with hi | ⟨answer, s, e, hk, hlowest⟩
  · rcases step_posts hi with hi | harises
    · exact .inl (.inl hi)
    · cases harises with
      | installed h => exact .inr ⟨_, _, h⟩
      | resumed h => exact .inl (.inr ⟨_, _, _, List.mem_append_right _ h, rfl⟩)
  · rcases step_captured hk with hk | ⟨answer', f', s', e', heq, hi⟩
    · exact .inl (.inr ⟨answer, s, e, hk, hlowest⟩)
    · cases heq
      exact .inl (.inl (hlowest ▸ hi))

theorem run_drives (hnone : ∀ i f, ¬ m.Drives i f) (n : Nat) {f : FiberId}
    (h : (run Γ n m).Drives i f) : ∃ k < n, ∃ x body, (run Γ k m).Installs Γ x body i f := by
  induction n with
  | zero => exact absurd h (hnone i f)
  | succ n ih =>
    rw [run_succ] at h
    rcases step_drives h with h | ⟨x, body, h⟩
    · obtain ⟨k, hk, h⟩ := ih h
      exact ⟨k, Nat.lt_succ_of_lt hk, h⟩
    · exact ⟨n, Nat.lt_succ_self n, x, body, h⟩

theorem Seated.run (h : m.Seated) (n : Nat) : (run Γ n m).Seated := by
  induction n with
  | zero => exact h
  | succ n ih => exact run_succ n m ▸ ih.step.seated

omit [Contents ω] in
theorem seated_start (settings : SettingsSlot) (cells : List ω) (statics : List Owned)
    (main : Comp ω) : (start settings cells statics main).Seated where
  fibers := ⟨trivial, by simp [start], by simp [start]⟩
  stack := .nil
  top i f S hS := by cases hS

/-- A return clause starts one step after the body has finished. -/
theorem StartsReturn.finishes (h : (m.step Γ).StartsReturn Γ i v) (hm : m.Seated) :
    ∃ f, (m.step Γ).Drives i f ∧ m.Finishes f v := by
  obtain ⟨hreleasing, hcontrol, ⟨f, S, hS⟩, -, -⟩ := h
  rcases (hm.step (Γ := Γ)).top i f S hS with hpasses | ⟨v', hcontrol', -, hfinishes⟩
  · simp [hcontrol, Control.passes] at hpasses
  · obtain rfl := Control.ret.inj (hcontrol'.symm.trans hcontrol)
    exact ⟨f, .inl (Within.posts_pop hS rfl ▸ List.mem_cons_self), hfinishes⟩

/-! ### The life cycle -/

/-- The next step ends the time in which a clause has the continuation: it resumes it, or a plain
clause returns. -/
def Ends (Γ : Library ω) (m : Machine ω) (code : ClauseCode ω) (e : ExchangeId) : Prop :=
  if code.modifier = .plain then ∃ S v, m.Returns Γ ⟨e, true, S⟩ v else ∃ v, m.Resumes e v

theorem steady_of_not_ends {code : ClauseCode ω} (h : ¬ m.Ends Γ code e) :
    m.Steady Γ (· = code.tie e) := by
  unfold Ends at h
  by_cases hplain : code.modifier = .plain
  · rw [if_pos hplain] at h
    simp only [ClauseCode.tie, if_pos hplain]
    exact ⟨by simp, by simp, fun e' S v hreturns heq => h ⟨S, v, Tie.hidden.inj heq ▸ hreturns⟩⟩
  · rw [if_neg hplain] at h
    simp only [ClauseCode.tie, if_neg hplain]
    exact ⟨by simp, fun e' v hresumes heq => h ⟨v, Tie.held.inj heq ▸ hresumes⟩, by simp⟩

/-- The life of an installation along a run. -/
structure LifeCycle (Γ : Library ω) (m₀ : Machine ω) (i : InstallationId) : Prop where
  /-- The return clause starts at most once. -/
  returnsOnce : ∀ n n' v v', (run Γ n m₀).StartsReturn Γ i v →
    (run Γ n' m₀).StartsReturn Γ i v' → n = n'
  /-- It starts with a value that the body has just returned, on the fiber that was made for it when
  the installation was put on the chain. -/
  returnsBody : ∀ n v, (run Γ n m₀).StartsReturn Γ i v → ∃ k j x body f, k < j ∧ n = j + 1 ∧
    (run Γ k m₀).Installs Γ x body i f ∧ (run Γ j m₀).Finishes f v
  /-- No return clause runs otherwise. -/
  returning : ∀ n answer, .returning i answer ∈ (run Γ n m₀).posts →
    ∃ k < n, ∃ v, (run Γ k m₀).StartsReturn Γ i v
  /-- Nothing reaches the installation once its return clause has started. -/
  returned : ∀ n v k, (run Γ n m₀).StartsReturn Γ i v → n < k → (run Γ k m₀).Unreachable Γ i
  /-- Nothing reaches it from the start of one of its clauses until the continuation is resumed, or
  until a plain clause returns. -/
  handling : ∀ n e command position code k, (run Γ n m₀).Starts Γ e command i position →
    (run Γ n m₀).codeAt Γ i position = some code → n < k →
      (∀ j, n < j → j < k → ¬ (run Γ j m₀).Ends Γ code e) → (run Γ k m₀).Unreachable Γ i

/-- In every run of every program, an installation goes through its life in order. -/
theorem life_cycle (settings : SettingsSlot) (cells : List ω) (statics : List Owned)
    (main : Comp ω) (i : InstallationId) : LifeCycle Γ (start settings cells statics main) i := by
  have horders := orders_start settings cells statics main
  have hseated := seated_start settings cells statics main
  have hnone : ∀ i f, ¬ (start settings cells statics main).Drives i f := by
    rintro i f (h | ⟨answer, s, e, h, -⟩)
    · cases h
    · cases h
  have hposts : (start settings cells statics main).posts = [] := rfl
  have hbegins : ∀ v, ¬ (start settings cells statics main).StartsReturn Γ i v := by
    rintro v ⟨-, hcontrol, -⟩
    cases hcontrol
  generalize start settings cells statics main = m at *
  have hrun := fun n => horders.run (Γ := Γ) n
  have hreturned : ∀ n v k, (run Γ n m).StartsReturn Γ i v → n < k →
      (run Γ k m).Unreachable Γ i := by
    intro n v k h hk
    obtain ⟨d, rfl⟩ := Nat.exists_eq_add_of_le (Nat.succ_le_of_lt hk)
    rw [run_add, run_succ]
    have hsteady : ∀ k < d, (run Γ k ((run Γ n m).step Γ)).Steady Γ fun _ => False :=
      fun _ _ => ⟨by simp, by simp, by simp⟩
    exact ((h.absent (hrun n)).run (hrun n).step d hsteady).unreachable ((hrun n).step.run d).counts
  exact
    { returnsOnce := fun n n' v v' h h' => by
        rcases Nat.lt_trichotomy n n' with hlt | heq | hlt
        · exact absurd h' ((hreturned n v n' h hlt).returns v')
        · exact heq
        · exact absurd h ((hreturned n' v' n h' hlt).returns v)
      returnsBody := fun n v h => by
        cases n with
        | zero => exact absurd h (hbegins v)
        | succ j =>
          rw [run_succ] at h
          obtain ⟨f, hdrives, hfinishes⟩ := h.finishes (hseated.run j)
          rw [← run_succ] at hdrives
          obtain ⟨k, hk, x, body, hinstalls⟩ := run_drives hnone (j + 1) hdrives
          refine ⟨k, j, x, body, f, ?_, rfl, hinstalls, hfinishes⟩
          refine Nat.lt_of_le_of_ne (Nat.le_of_lt_succ hk) ?_
          -- the body does not finish where the installation is made
          rintro rfl
          obtain ⟨⟨next, -, hcontrol⟩, -⟩ := hinstalls
          cases hcontrol.symm.trans hfinishes.2.1
      returning := fun n answer h => by
        induction n with
        | zero => simp [run, hposts] at h
        | succ n ih =>
          rw [run_succ] at h
          rcases step_posts h with h | h
          · obtain ⟨k, hk, h⟩ := ih h
            exact ⟨k, Nat.lt_succ_of_lt hk, h⟩
          · cases h with
            | returning h => exact ⟨n, Nat.lt_succ_self n, _, h⟩
      returned := hreturned
      handling := fun n e command position code k h hcode hk hends => by
        obtain ⟨d, rfl⟩ := Nat.exists_eq_add_of_le (Nat.succ_le_of_lt hk)
        have hsteady : ∀ k < d, (run Γ k ((run Γ n m).step Γ)).Steady Γ (· = code.tie e) := by
          intro k hk
          have hnot := hends (n + 1 + k) (by omega) (by omega)
          rw [run_add, run_succ] at hnot
          exact steady_of_not_ends hnot
        rw [run_add, run_succ]
        exact ((h.absent hcode (hrun n)).run (hrun n).step d hsteady).unreachable
          ((hrun n).step.run d).counts }

/-- The installation of `asking` has a clause that starts, whose continuation is resumed in the
next step; and then its return clause starts. -/
theorem life_cycle_asking :
    (run reader 3 (start {} [()] [] asking)).Starts reader 0 { name := "Ask" } 1 0 ∧
      (run reader 4 (start {} [()] [] asking)).Resumes 0 (.int 2) ∧
      (run reader 15 (start {} [()] [] asking)).StartsReturn reader 1 (.int 2) ∧
      LifeCycle reader (start {} [()] [] asking) 1 := by
  have hstarts : (run reader 3 (start {} [()] [] asking)).Starts reader 0 { name := "Ask" } 1 0 :=
    ⟨.resumptive fun _ _ r => .resume r (.int 2) .done, ⟨rfl, rfl, [.resumption 1], _, rfl⟩,
      "Ask", ⟨some { name := "Ask" }, none⟩, ⟨rfl, rfl⟩, rfl, rfl⟩
  have hresumes : (run reader 4 (start {} [()] [] asking)).Resumes 0 (.int 2) :=
    ⟨.resumes 1 (.captured "i64" 0 ⟨1, 1⟩ 0) (.int 2), _, rfl, rfl, rfl⟩
  have hreturns : (run reader 15 (start {} [()] [] asking)).StartsReturn reader 1 (.int 2) :=
    ⟨rfl, rfl, ⟨0, _, rfl⟩, rfl, _, _, rfl⟩
  exact ⟨hstarts, hresumes, hreturns, life_cycle {} [()] [] asking 1⟩

end Machine

end EffectHandlers
