import EffectHandlers.Machine.Step
/-!
# Asides

Warnings, views, questions and the preparations of an installation leave almost everything alone.
Each of them is said here as an equation that shows the few parts that it changes.
-/

namespace EffectHandlers.Machine

variable {ω : Type}

theorem exists_warn_eq (m : Machine ω) (ws : List SettingsWarning) :
    ∃ journal, m.warn ws = { m with journal } := by
  unfold warn
  induction ws generalizing m with
  | nil => exact ⟨m.journal, rfl⟩
  | cons w ws ih => exact ih (m.trace (.warning w))

theorem exists_reportLines_eq (m : Machine ω) :
    ∃ pool journal, m.reportLines =
      (Report.lines m.counters m.counters m.pool.settings.use.1 m.chain.listing,
        { m with pool, journal }) := by
  obtain ⟨journal, hwarn⟩ := exists_warn_eq
    { m with pool := { m.pool with settings := m.pool.settings.use.2.1 } } m.pool.settings.use.2.2
  refine ⟨{ m.pool with settings := m.pool.settings.use.2.1 }, journal, ?_⟩
  simp only [reportLines, hwarn]

theorem exists_view_eq (m : Machine ω) (v : View) :
    ∃ pool journal, m.view v = { m with pool, journal } := by
  cases v with
  | report =>
    obtain ⟨pool, journal, hlines⟩ := m.exists_reportLines_eq
    simp only [view, hlines]
    exact ⟨_, _, rfl⟩
  | _ => exact ⟨_, _, rfl⟩

theorem exists_print_eq (m : Machine ω) (p : Printout) :
    ∃ pool journal errors, m.print p = { m with pool, journal, errors } := by
  cases p with
  | report =>
    obtain ⟨pool, journal, hlines⟩ := m.exists_reportLines_eq
    simp only [print, hlines]
    exact ⟨_, _, _, rfl⟩
  | _ => exact ⟨_, _, _, rfl⟩

theorem exists_answer_eq (m : Machine ω) (q : Query) :
    ∃ nextLabel, (m.answer q).2 = { m with chain := { m.chain with nextLabel } } := by
  cases q <;> exact ⟨_, rfl⟩

theorem exists_chooseLabel_eq (m : Machine ω) (label : Option Int) :
    ∃ nextLabel, (m.chooseLabel label).2 = { m with chain := { m.chain with nextLabel } } := by
  cases label <;> exact ⟨_, rfl⟩

theorem exists_declare_eq (m : Machine ω) (name : String) (h : HandlerType ω) :
    ∃ declared journal, (m.declare name h).2 = { m with declared, journal } := by
  unfold declare
  split
  · exact ⟨_, _, rfl⟩
  · split <;> exact ⟨_, _, rfl⟩

theorem exists_acquireStack_eq (m : Machine ω) :
    ∃ pool counters journal, m.acquireStack.2 = { m with pool, counters, journal } := by
  obtain ⟨journal, hwarn⟩ := exists_warn_eq { m with pool := m.pool.acquire.2.1 } m.pool.acquire.2.2
  unfold acquireStack
  simp only [hwarn]
  split <;> exact ⟨_, _, _, rfl⟩

end EffectHandlers.Machine
