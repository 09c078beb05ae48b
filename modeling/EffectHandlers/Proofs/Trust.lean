import EffectHandlers.Proofs.Conduct
/-!
# Honest code is careful

A thread that starts with honest code uses nothing that was dropped, and keeps the cells that belong to
it. So it does what the evaluation of its code does, to the end.
-/

namespace EffectHandlers.Machine

variable {ω : Type} [Contents ω] {Γ : Library ω} {m : Machine ω} {ρ : Regime ω}
  {settings : SettingsSlot} {cells : List ω} {main : Comp ω} {n : Nat}

/-- A cell that is there was not dropped. -/
theorem not_dropped_of_contains (h : m.Counts) {c : CellId} (hc : (m.run Γ n).cells.contains c) :
    ¬ m.Dropped Γ n (.cell c) := by
  rintro ⟨k, hk, -, hholds, hgone⟩
  obtain ⟨y, hy⟩ := Option.isSome_iff_exists.mp hholds
  obtain ⟨d, rfl⟩ := Nat.exists_eq_add_of_le (Nat.succ_le_of_lt hk)
  have hages := run_ages (Γ := Γ) d ((m.run Γ k).step Γ)
  have hlt : c < ((m.run Γ k).step Γ).cells.next := Nat.lt_of_lt_of_le
    (Store.lt_next (h.run k).cells hy) (Ages.step (Γ := Γ) (m.run Γ k)).cells.next
  have hnone : ((m.run Γ k).step Γ).cells.find? c = none := by
    simpa [holds, Store.contains] using hgone
  rw [run_add, run_succ] at hc
  simp [Store.contains, hages.cells.gone c hlt hnone] at hc

/-- A thread that is honest all the time is careful. -/
theorem careful_of_honest (hcounts : m.Counts) (hzero : m.cells.find? 0 = none ∧ 0 < m.cells.next)
    (h : ∀ n, (m.run Γ n).Honest Γ ρ (m.Dropped Γ n)) : m.Careful Γ := by
  intro n
  unfold uses asksPool
  split
  · rename_i c hidle hcontrol
    cases (h n).upright.running with
    | eval hcontrol' hcode hc hhand hknown =>
      obtain rfl : c = _ := Control.eval.inj (hcontrol.symm.trans hcontrol')
      have hwork : AtWork Γ ρ (m.Dropped Γ n) (m.run Γ n) c _ _ _ _ _ :=
        ⟨h n, hidle, hcontrol, hcode, hhand, hknown⟩
      refine ⟨fun o ho => ?_, hc.asksPool⟩
      obtain ⟨hname | ⟨cell, rfl⟩, hreach⟩ := hc.uses ho
      · exact (hwork.there hname hreach).2
      · by_cases hcell : cell = 0
        · -- the number zero is of no cell
          subst hcell
          rintro ⟨k, -, -, hholds, -⟩
          have hnone := (run_ages (Γ := Γ) k m).cells.gone 0 hzero.2 hzero.1
          simp [holds, Store.contains, hnone] at hholds
        · exact not_dropped_of_contains hcounts (hwork.contains hcell hreach)
    | ended hover =>
      rcases hover with ⟨f, hf⟩ | ⟨o, ho⟩
      · cases hcontrol.symm.trans hf
      · cases hcontrol.symm.trans ho
    | ret hm | done hm | tail hm | settle hm | request hm | wake hm | unwind hm =>
      cases hcontrol.symm.trans hm
  · exact ⟨fun o ho => absurd ho List.not_mem_nil, rfl⟩

/-- A thread that starts with honest code. -/
structure Entrusted (Γ : Library ω) (ρ : Regime ω) (cells : List ω) (main : Comp ω) : Prop where
  library : Γ.Honest ρ
  main : ∃ X, main.Honest ρ ρ.base [] [] [] X
  nodup : ρ.kept.Nodup
  kept : ∀ k ∈ ρ.kept, k ≤ cells.length
  owned : ∀ x ∈ cells, Contents.owned x = []
  shape : ∀ x ∈ cells, ρ.shape x
  default : Contents.owned (default : ω) = []

namespace Entrusted

/-- The contents of the cells of a new thread are those it was given. -/
theorem shape_start (h : Entrusted Γ ρ cells main) (settings : SettingsSlot) :
    (Machine.start settings cells [] main).cells.All fun y => ρ.shape y.content := by
  have hall : ∀ (xs : List ω) (s : Store (Shared ω)), (∀ x ∈ xs, ρ.shape x) →
      s.All (fun y => ρ.shape y.content) →
      (xs.foldl (fun s content => (s.insert ⟨content, 1⟩).2) s).All fun y => ρ.shape y.content := by
    intro xs
    induction xs with
    | nil => exact fun s _ hs => hs
    | cons x xs ih =>
      exact fun s hxs hs => ih _ (fun y hy => hxs y (List.mem_cons_of_mem _ hy))
        (hs.insert (hxs x List.mem_cons_self))
  exact hall cells _ h.shape fun e he => absurd he List.not_mem_nil

/-- A new thread has a share of each cell that it keeps. -/
theorem solvent_start (h : Entrusted Γ ρ cells main) (settings : SettingsSlot) :
    (Machine.start settings cells [] main).Solvent ρ.kept
      ((Machine.start settings cells [] main).Dropped Γ 0) [] [] := by
  have hheld : ∀ {o : Owned}, o ≠ .cell 0 →
      (Machine.start settings cells [] main).holders (.asset o) = 0 :=
    fun ho => holders_start settings main h.owned ho
  have hname : ∀ {o : Owned}, o.isName = true → o ≠ .cell 0 := by
    rintro o ho rfl
    cases ho
  refine ⟨fun c hc => ?_, fun o ho => ?_, fun o ho _ => ?_, by simp,
    fun o ⟨k, hk, _⟩ => absurd hk (Nat.not_lt_zero k)⟩
  · simp only [spare, hheld (o := .cell c) (by simpa using hc), List.count_nil]
    by_cases hmem : c ∈ ρ.kept
    · rw [shares_start settings cells [] main (Nat.pos_of_ne_zero hc) (h.kept c hmem),
        List.count_eq_one_of_mem h.nodup hmem]
      omega
    · rw [List.count_eq_zero.mpr hmem]
      omega
  · rw [spare_name _ ho, hheld (hname ho)]
    simp
  · rw [spare_name _ ho, hheld (hname ho)]
    simp

theorem start (h : Entrusted Γ ρ cells main) (settings : SettingsSlot) :
    (Machine.start settings cells [] main).Honest Γ ρ
      ((Machine.start settings cells [] main).Dropped Γ 0) where
  counts := counts_start ..
  tidy := tidy_start ..
  closures := Store.wellFormed_empty
  spare _ := spare_start_installation _ _ _ _ _
  manned i := .inl (by
    rw [show (Machine.start settings cells [] main).chain = Chain.initial from rfl,
      Chain.get_initial]
    rfl)
  upright := by
    obtain ⟨X, hmain⟩ := h.main
    have hnone : ∀ {α : Type} {p : α → Prop} (next : Nat), ({ next } : Store α).All p :=
      fun _ e he => absurd he List.not_mem_nil
    exact
      { furnished :=
          { fibers := ⟨fun r hr => absurd hr List.not_mem_nil, fun e he => absurd he List.not_mem_nil⟩
            cells := h.shape_start settings
            closures := hnone _
            resumptions := hnone _
            pending := fun k hk => by cases hk
            exchanges := hnone _ }
        running := .eval rfl .nil hmain (h.solvent_start settings) (by simp) (.inl rfl) }

/-- An honest thread is careful. -/
theorem careful (h : Entrusted Γ ρ cells main) (settings : SettingsSlot) :
    (Machine.start settings cells [] main).Careful Γ :=
  careful_of_honest (counts_start ..)
    ⟨(start_cells settings cells [] main).2.2, (start_cells settings cells [] main).2.1⟩
    ((h.start settings).run h.library h.default)

/-- An honest thread ends once the evaluation of its code has returned. Nothing is left to be released
then, and the cells that it keeps have the contents that they have in the evaluation. -/
theorem ends (h : Entrusted Γ ρ cells main) (hΓ : Γ.Orderly) (hmain : main.Orderly)
    (hsize : settings.use.1.stackSize < StackPool.addressSpace) {t : Nat} {v : Value}
    (hphase : ((Evaluation.step Γ)^[t] (Evaluation.start cells main)).phase = .ret v)
    (hframes : ((Evaluation.step Γ)^[t] (Evaluation.start cells main)).frames = []) :
    ∃ n, ((Machine.start settings cells [] main).run Γ n).control = .halted (.finished v) ∧
      ((Machine.start settings cells [] main).run Γ n).releasing = [] ∧
        ∀ k ∈ ρ.kept, ((Machine.start settings cells [] main).run Γ n).contents k =
          ((Evaluation.step Γ)^[t] (Evaluation.start cells main)).cells.find? k := by
  refine ends_of_careful hΓ hmain hsize (h.careful settings) (fun q hatEnd k hk => ?_) hphase hframes
  have hhonest := (h.start settings).run h.library h.default q
  refine not_dropped_of_contains (counts_start ..) ?_
  cases hhonest.upright.running with
  | ret hcontrol hv hcode hhand =>
    exact hhand.contains (fun hzero => ρ.zero_not_mem (hzero ▸ hk)) (.inr (.inl hk))
  | ended hover =>
    rcases hover with ⟨f, hf⟩ | ⟨o, ho⟩
    · cases hatEnd.control.symm.trans hf
    · cases hatEnd.control.symm.trans ho
  | eval hm | done hm | tail hm | settle hm | request hm | wake hm | unwind hm =>
    cases hatEnd.control.symm.trans hm

end Entrusted

end EffectHandlers.Machine
