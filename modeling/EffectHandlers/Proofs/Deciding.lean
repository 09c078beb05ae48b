import EffectHandlers.Proofs.Numerals
import EffectHandlers.Session.Setup
/-!
# Settings are decided on once

The first action of a session that sets the settings or needs them decides on them, in the
environment of that moment. A fiber that takes its stack from the pool does not look at the
settings, but the pool is empty as long as nobody has decided on them.
-/

namespace EffectHandlers.SetupSession

open Settings (explicit minStackSize)

/-! ### What a session decides on -/

namespace Action

/-- The environment that an action leaves. -/
def environment (env : Environment) : Action → Environment
  | setEnvironment env => env
  | _ => env

/-- An action that needs the settings. To make fibers needs them if there is one to make. -/
def Uses : Action → Prop
  | settings | report | dumpReport => True
  | fibers n => n ≠ 0
  | _ => False

instance (a : Action) : Decidable a.Uses := by
  cases a <;> unfold Uses <;> infer_instance

/-- The settings that an action decides on, if none did so before. -/
def decides (env : Environment) : Action → Option Settings
  | configure stackSize poolCapacity => some (explicit stackSize poolCapacity)
  | a => if a.Uses then some (Settings.ofEnvironment env).1 else none

theorem decides_of_uses {env : Environment} {a : Action} (ha : a.Uses) :
    a.decides env = some (Settings.ofEnvironment env).1 := by
  unfold decides
  split
  · exact False.elim ha
  · exact if_pos ha

theorem environment_of_uses {env : Environment} {a : Action} (ha : a.Uses) :
    a.environment env = env := by
  cases a <;> first | rfl | exact False.elim ha

end Action

/-- The environment after a session. -/
def environmentAfter (env : Environment) (session : List Action) : Environment :=
  session.foldl Action.environment env

/-- The settings that a session decides on: those of its first action that does, in the
environment of that moment. -/
def decided (env : Environment) : List Action → Option Settings
  | [] => none
  | a :: later => (a.decides env).or (decided (a.environment env) later)

variable {env : Environment} {session later : List Action} {c : Settings}

theorem decided_append :
    decided env (session ++ later) =
      (decided env session).or (decided (environmentAfter env session) later) := by
  induction session generalizing env with
  | nil => rfl
  | cons a session ih =>
    rw [List.cons_append, decided, ih, decided, Option.or_assoc]
    rfl

/-- The first action that decides is found where nothing was decided on before. -/
theorem exists_of_decided (h : decided env session = some c) :
    ∃ earlier a later, session = earlier ++ a :: later ∧ decided env earlier = none ∧
      a.decides (environmentAfter env earlier) = some c := by
  induction session generalizing env with
  | nil => cases h
  | cons a session ih =>
    rcases Option.or_eq_some_iff.mp h with ha | ⟨ha, h⟩
    · exact ⟨[], a, session, rfl, rfl, ha⟩
    · obtain ⟨earlier, b, later, rfl, hnone, hb⟩ := ih h
      exact ⟨a :: earlier, b, later, rfl, by rw [decided, ha, hnone]; rfl, hb⟩

/-- Setting them explicitly decides on the settings if only an empty lot of fibers was made. -/
example : decided {} [.fibers 0, .configure 5 1, .fibers 2] = some ⟨16384, 1⟩ := rfl

/-- All settings that can be decided on have stacks of the smallest size at least. -/
theorem Action.minStackSize_le {a : Action} (h : a.decides env = some c) :
    minStackSize ≤ c.stackSize := by
  have hread := Settings.minStackSize_le_stackSizeOf (Settings.decode env.stackSize)
  unfold Action.decides at h
  split at h
  · obtain rfl := Option.some.inj h
    exact le_max_right ..
  · split at h
    · obtain rfl := Option.some.inj h
      exact hread
    · cases h

/-! ### Actions under given settings -/

namespace State

variable {s : State} {n : Nat}

/-- The state in which these settings are fixed. -/
def fix (s : State) (c : Settings) : State :=
  { s with pool := { s.pool with settings := { s.pool.settings with fixed := some c } } }

/-- The same state in another environment. -/
def inEnvironment (s : State) (environment : Environment) : State :=
  { s with pool := { s.pool with settings := { s.pool.settings with environment } } }

/-- How many of `n` fibers are made: all, or those that find a stack in the pool if none can be
allocated. -/
def makes (s : State) (c : Settings) (n : Nat) : Nat :=
  if StackPool.allocate c.stackSize = .fresh then n else min n s.pool.pooled

/-- The state in which `n` fibers have been made: stacks are taken from the pool first. -/
def made (s : State) (c : Settings) (n : Nat) : State :=
  { s with
    pool := { s.pool with pooled := s.pool.pooled - n }
    thread := (s.thread.add (min n s.pool.pooled) .stacksReused).add (s.makes c n) .fibersCreated }

/-- The state in which `n` fibers have finished: their stacks go to the pool until it is full. -/
def finished (s : State) (c : Settings) (n : Nat) : State :=
  { s with
    pool := { s.pool with
      pooled := max s.pool.pooled (min c.poolCapacity (s.pool.pooled + n)) } }

/-- What an action that needs the settings does if they are `c`. -/
def act (s : State) (c : Settings) : Action → State × List Entry
  | .settings => (s, [.settings c])
  | .report => (s, [.lines (Report.lines (s.thread.plus s.elsewhere) s.thread c s.chain.listing)])
  | .dumpReport =>
    ({ s with errors := s.errors ++
        Report.lines (s.thread.plus s.elsewhere) s.thread c s.chain.listing }, [.none])
  | .fibers n =>
    let done := (s.made c n).finished c (s.makes c n)
    (done, [.count done.pool.pooled])
  | _ => (s, [])

theorem times_succ (f : State → State × List Entry) (n : Nat) (s : State) :
    times f (n + 1) s = ((times f n (f s).1).1, (f s).2 ++ (times f n (f s).1).2) := rfl

theorem made_made : (s.made c 1).made c n = s.made c (n + 1) := by
  have hpooled : s.pool.pooled - 1 - n = s.pool.pooled - (n + 1) := by omega
  have hreused : min 1 s.pool.pooled + min n (s.pool.pooled - 1) = min (n + 1) s.pool.pooled := by
    omega
  have hmade : s.makes c 1 + (s.made c 1).makes c n = s.makes c (n + 1) := by
    simp only [makes, made]
    split <;> omega
  simp only [made, Tally.add] at hmade ⊢
  simp only [hpooled, hreused, hmade, Nat.add_assoc]

theorem finished_finished : (s.finished c 1).finished c n = s.finished c (n + 1) := by
  simp only [finished]
  congr 2
  omega

theorem makeFiber_of_fixed (h : s.pool.settings.fixed = some c) :
    s.makeFiber = (s.made c 1, []) := by
  simp only [makeFiber, StackPool.acquire, SettingsSlot.use, h]
  by_cases hpool : 0 < s.pool.pooled
  · have hreused : min 1 s.pool.pooled = 1 := by omega
    simp [hpool, made, makes, hreused, Tally.bump]
  · have hzero : s.pool.pooled = 0 := by omega
    simp only [if_neg hpool, made, makes]
    cases hallocate : StackPool.allocate c.stackSize with
    | reused => exact absurd hallocate (StackPool.allocate_ne_reused _)
    | fresh => simp [hzero, Tally.bump, Tally.add]
    | failed why => simp [hzero, Tally.add]

theorem finishFiber_of_fixed (h : s.pool.settings.fixed = some c) :
    s.finishFiber = (s.finished c 1, []) := by
  simp only [finishFiber, StackPool.giveBack, SettingsSlot.use, h, finished, List.map_nil]
  split <;> congr 3 <;> omega

theorem times_makeFiber (h : s.pool.settings.fixed = some c) :
    times makeFiber n s = (s.made c n, []) := by
  induction n generalizing s with
  | zero => simp [times, made, makes, Tally.add]
  | succ n ih =>
    have hlater : times makeFiber n (s.made c 1) = _ := ih h
    rw [times_succ, makeFiber_of_fixed h, hlater, made_made, List.nil_append]

theorem times_finishFiber (h : s.pool.settings.fixed = some c) :
    times finishFiber n s = (s.finished c n, []) := by
  induction n generalizing s with
  | zero => simp [times, finished]
  | succ n ih =>
    have hlater : times finishFiber n (s.finished c 1) = _ := ih h
    rw [times_succ, finishFiber_of_fixed h, hlater, finished_finished, List.nil_append]

theorem fibersCreated_made :
    (s.made c n).thread.fibersCreated = s.thread.fibersCreated + s.makes c n := rfl

theorem step_fibers_zero (s : State) : s.step (.fibers 0) = (s, [.count s.pool.pooled]) := by
  simp only [step, times, Nat.sub_self, List.nil_append]

/-- Once the settings are fixed, an action that needs them does what it does under them. -/
theorem step_of_fixed (h : s.pool.settings.fixed = some c) {a : Action} (ha : a.Uses) :
    s.step a = s.act c a := by
  have huse : s.pool.settings.use = (c, s.pool.settings, []) := by rw [SettingsSlot.use, h]
  cases a with
  | settings => simp only [step, useSettings, huse]; rfl
  | report => simp only [step, report, useSettings, huse]; rfl
  | dumpReport => simp only [step, report, useSettings, huse]; rfl
  | fibers n =>
    have hcount : (s.made c n).thread.fibersCreated - s.thread.fibersCreated = s.makes c n := by
      rw [fibersCreated_made, Nat.add_sub_cancel_left]
    have hfixed : (s.made c n).pool.settings.fixed = some c := h
    simp only [step, times_makeFiber h, hcount, times_finishFiber hfixed]
    rfl
  | _ => exact ha.elim

/-! ### The first action that needs the settings -/

/-- As long as the settings are undecided, the pool is empty. -/
def Consistent (s : State) : Prop := s.pool.settings.fixed = none → s.pool.pooled = 0

/-- With an empty pool, making a fiber decides on the settings. -/
theorem makeFiber_of_undecided (h : s.pool.settings.fixed = none) (hpool : s.pool.pooled = 0) :
    s.makeFiber = (((s.fix s.pool.settings.use.1).makeFiber).1,
      s.pool.settings.use.2.2.map .warning) := by
  simp only [makeFiber, StackPool.acquire, hpool, SettingsSlot.use, h, fix, Nat.lt_irrefl, if_false]

/-- An action that needs the settings decides on them if that was not done, which may give rise
to warnings, and goes on under them. -/
theorem step_of_uses (hs : s.Consistent) {a : Action} (ha : a.Uses) :
    s.step a = (((s.fix s.pool.settings.use.1).act s.pool.settings.use.1 a).1,
      s.pool.settings.use.2.2.map .warning ++
        ((s.fix s.pool.settings.use.1).act s.pool.settings.use.1 a).2) := by
  obtain hfixed | ⟨c, hfixed⟩ := Option.eq_none_or_eq_some s.pool.settings.fixed
  · have hstep := step_of_fixed (s := s.fix s.pool.settings.use.1) rfl ha
    rw [← hstep]
    cases a with
    | settings => simp only [step, useSettings, SettingsSlot.use, hfixed, fix]; rfl
    | report => simp only [step, report, useSettings, SettingsSlot.use, hfixed, fix]; rfl
    | dumpReport => simp only [step, report, useSettings, SettingsSlot.use, hfixed, fix]; rfl
    | fibers n =>
      obtain ⟨n, rfl⟩ := Nat.exists_eq_succ_of_ne_zero ha
      have hmake := makeFiber_of_fixed (s := s.fix s.pool.settings.use.1) rfl
      simp only [step, times_succ, makeFiber_of_undecided hfixed (hs hfixed), hmake,
        List.nil_append, List.append_assoc]
      rfl
    | _ => exact ha.elim
  · have huse : s.pool.settings.use = (c, s.pool.settings, []) := by rw [SettingsSlot.use, hfixed]
    have hfix : s.fix c = s := by simp only [fix, ← hfixed]
    rw [step_of_fixed hfixed ha, huse, hfix]
    rfl

theorem act_settings (s : State) (c : Settings) (a : Action) :
    (s.act c a).1.pool.settings = s.pool.settings := by
  cases a <;> rfl

/-- What an action leaves: its environment, and the settings that it decides on if none were. -/
theorem settings_step (hs : s.Consistent) (a : Action) :
    (s.step a).1.pool.settings = ⟨a.environment s.pool.settings.environment,
      s.pool.settings.fixed.or (a.decides s.pool.settings.environment)⟩ := by
  by_cases ha : a.Uses
  · rw [step_of_uses hs ha, act_settings, Action.decides_of_uses ha, Action.environment_of_uses ha,
      s.pool.settings.fixed_or]
    rfl
  · cases a with
    | configure stackSize poolCapacity =>
      simp only [step, SettingsSlot.configure]
      obtain hfixed | ⟨c, hfixed⟩ := Option.eq_none_or_eq_some s.pool.settings.fixed
      · simp only [hfixed]
        rfl
      · simp only [hfixed, Option.some_or, Action.environment]
        rw [← hfixed]
    | fibers n =>
      obtain rfl : n = 0 := not_not.mp ha
      simp only [step_fibers_zero, Action.decides, if_neg ha, Option.or_none]
      rfl
    | settings | report | dumpReport => exact absurd trivial ha
    | _ => simp only [Action.decides, if_neg ha, Option.or_none]; rfl

/-- Stacks come into the pool only under settings that are decided on. -/
theorem Consistent.step (hs : s.Consistent) (a : Action) : (s.step a).1.Consistent := by
  intro hnone
  rw [settings_step hs] at hnone
  obtain ⟨hfixed, hdecides⟩ := Option.or_eq_none_iff.mp hnone
  have hpool := hs hfixed
  cases a with
  | configure | settings | report | dumpReport => cases hdecides
  | fibers n =>
    obtain rfl : n = 0 := by_contra fun hn => by simp [Action.decides, Action.Uses, hn] at hdecides
    rw [step_fibers_zero]
    exact hpool
  | _ => exact hpool

theorem fst_run_cons (s : State) (a : Action) (later : List Action) :
    (s.run (a :: later)).1 = ((s.step a).1.run later).1 := rfl

/-- What a session leaves. -/
theorem settings_run (hs : s.Consistent) (session : List Action) :
    (s.run session).1.pool.settings = ⟨environmentAfter s.pool.settings.environment session,
      s.pool.settings.fixed.or (decided s.pool.settings.environment session)⟩ ∧
    (s.run session).1.Consistent := by
  induction session generalizing s with
  | nil =>
    refine ⟨?_, hs⟩
    rw [decided, Option.or_none]
    rfl
  | cons a session ih =>
    obtain ⟨hsettings, hconsistent⟩ := ih (hs.step a)
    refine ⟨?_, hconsistent⟩
    rw [fst_run_cons, hsettings, settings_step hs, decided, Option.or_assoc]
    rfl

/-- Once the settings are fixed, an action that does not look at the environment does the same in
every environment. -/
theorem step_inEnvironment (h : s.pool.settings.fixed = some c) (env : Environment) {a : Action}
    (hreads : a ≠ .ofEnvironment) (hsets : ∀ env, a ≠ .setEnvironment env) :
    (s.inEnvironment env).step a = ((s.step a).1.inEnvironment env, (s.step a).2) := by
  by_cases ha : a.Uses
  · have hfixed : (s.inEnvironment env).pool.settings.fixed = some c := h
    rw [step_of_fixed hfixed ha, step_of_fixed h ha]
    cases a <;> rfl
  · cases a with
    | configure stackSize poolCapacity =>
      simp only [step, SettingsSlot.configure, inEnvironment, h]
    | ofEnvironment => exact absurd rfl hreads
    | setEnvironment env => exact absurd rfl (hsets env)
    | fibers n =>
      obtain rfl : n = 0 := not_not.mp ha
      rw [step_fibers_zero, step_fibers_zero]
      rfl
    | settings | report | dumpReport => exact absurd trivial ha
    | _ => rfl

/-- The state in which a process starts. -/
def opening (env : Environment) : State := { pool := { settings := { environment := env } } }

/-- The state after a session. -/
def after (env : Environment) (session : List Action) : State := ((opening env).run session).1

end State

/-- What it means that the settings are fixed once: by the first action that decides on them, in
the environment of that moment. -/
structure FixedOnce (env : Environment) (session : List Action) (s : State) : Prop where
  /-- A process keeps its environment and the settings it has decided on. -/
  slot : s.pool.settings = ⟨environmentAfter env session, decided env session⟩
  /-- Everything that needs the settings sees those decided on: reports and the settings shown,
  the allocation of stacks and the bound of the pool. What was odd in the environment gives rise
  to warnings at the first use. -/
  seen : ∀ a : Action, a.Uses → ∃ c, decided env (session ++ [a]) = some c ∧
    s.step a = (((s.fix c).act c a).1,
      s.pool.settings.use.2.2.map .warning ++ ((s.fix c).act c a).2)
  /-- They were decided on by one action, before which nothing was decided. -/
  first : ∀ c, decided env session = some c →
    ∃ earlier a later, session = earlier ++ a :: later ∧ decided env earlier = none ∧
      a.decides (environmentAfter env earlier) = some c
  /-- No later action changes them. -/
  stays : ∀ c, decided env session = some c → ∀ later, decided env (session ++ later) = some c
  /-- They can be set explicitly if nothing was decided before. -/
  configures : decided env session = none → ∀ stackSize poolCapacity,
    s.step (.configure stackSize poolCapacity) = (s.fix (explicit stackSize poolCapacity), [.ok])
  /-- Otherwise that fails and changes nothing. -/
  rejects : decided env session ≠ none → ∀ stackSize poolCapacity,
    s.step (.configure stackSize poolCapacity) = (s, [.failed .alreadyConfigured])
  /-- From then on the environment has no effect, except on what reads it directly. -/
  unmoved : decided env session ≠ none → ∀ (other : Environment) (a : Action),
    a ≠ .ofEnvironment → (∀ env, a ≠ .setEnvironment env) →
    (s.inEnvironment other).step a = ((s.step a).1.inEnvironment other, (s.step a).2)
  minimum : ∀ c, decided env session = some c → minStackSize ≤ c.stackSize

/-- **The settings of a process are fixed once**, whatever it does and in whatever order. -/
theorem settings_fixed_once (env : Environment) (session : List Action) :
    FixedOnce env session (State.after env session) := by
  have hopening : (State.opening env).Consistent := fun _ => rfl
  obtain ⟨hslot, hconsistent⟩ := State.settings_run hopening session
  change (State.after env session).Consistent at hconsistent
  replace hslot : (State.after env session).pool.settings =
    ⟨environmentAfter env session, decided env session⟩ := hslot
  have hfixed : (State.after env session).pool.settings.fixed = decided env session := by
    rw [hslot]
  exact
    { slot := hslot
      seen := fun a ha => by
        refine ⟨_, ?_, State.step_of_uses hconsistent ha⟩
        rw [decided_append, decided, Action.decides_of_uses ha, Option.some_or,
          ← SettingsSlot.fixed_or, hslot]
      first := fun c h => exists_of_decided h
      stays := fun c h later => by rw [decided_append, h]; rfl
      configures := fun h stackSize poolCapacity => by
        rw [h] at hfixed
        simp only [State.step, SettingsSlot.configure, hfixed]
        rfl
      rejects := fun h stackSize poolCapacity => by
        obtain ⟨c, hc⟩ := Option.ne_none_iff_exists'.mp h
        rw [hc] at hfixed
        simp only [State.step, SettingsSlot.configure, hfixed]
      unmoved := fun h other a => by
        obtain ⟨c, hc⟩ := Option.ne_none_iff_exists'.mp h
        exact State.step_inEnvironment (hfixed.trans hc) other
      minimum := fun c h => by
        obtain ⟨earlier, a, -, -, -, ha⟩ := exists_of_decided h
        exact Action.minStackSize_le ha }

end EffectHandlers.SetupSession
