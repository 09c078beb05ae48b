import EffectHandlers.Proofs.Conservation
import EffectHandlers.Proofs.Mirror
import EffectHandlers.Proofs.Solvency
import Mathlib.Data.List.Count
/-!
# Handlers outlive their clauses

Every post holds its installation, and every installation holds its handler. As there is a share
for everyone who holds something, the last share of a handler is released by the last of them: when
no clause of the handler runs or is suspended any more, no installation of it is left, and nobody
else holds it.
-/

namespace EffectHandlers

variable {ω : Type} {Γ : Library ω}

/-- No clause gives its installation up while it runs. -/
def Library.Manages (Γ : Library ω) : Prop :=
  ∀ handlerType, ∀ c ∈ (Γ.handlerType handlerType).clauses, c.code.modifier ≠ .noManage

namespace Machine

/-- A clause of the installation or its return clause has started and not ended. It runs, or waits
for a body, or is suspended with the fiber that it runs on. -/
def Executes (m : Machine ω) (i : InstallationId) : Prop :=
  (∃ answer, .clause (some i) answer ∈ m.posts) ∨ (∃ answer, .returning i answer ∈ m.posts) ∨
    ∃ handler s e, .inPlace i handler s e ∈ m.posts

variable [Contents ω]

/-- Every operation that a thread evaluates spends only shares of cells that the running code has,
or gets with the operation. -/
def Thrifty (Γ : Library ω) (m : Machine ω) : Prop :=
  ∀ n c, .cell c ∈ (run Γ n m).spent → ((run Γ n m).spent.count (.cell c) : Int) ≤
    (run Γ n m).spare (.asset (.cell c)) + (run Γ n m).regained.count (.cell c)

/-! ### Runs -/

section Runs

variable {m : Machine ω} {i : InstallationId} {c : CellId}

theorem Counts.run (h : m.Counts) (n : Nat) : (run Γ n m).Counts := by
  induction n with
  | zero => exact h
  | succ n ih => exact run_succ n m ▸ ih.step

theorem count_asset (os : List Owned) (o : Owned) :
    (os.map Holding.asset).count (.asset o) = os.count o :=
  List.count_map_of_injective os _ (fun _ _ h => Holding.asset.inj h) o

/-- No operation spends a share of an installation. -/
theorem spare_step_installation (h : m.Counts) (hspare : 0 ≤ m.spare (.installation i)) :
    0 ≤ (m.step Γ).spare (.installation i) := by
  have hstep := spare_step (Γ := Γ) h (.installation i) (by simp) fun _ => hspare
  rw [count_brings _ _ (.installation i)] at hstep
  have hnone : (m.spent.map Holding.asset).count (.installation i) = 0 :=
    List.count_eq_zero.mpr (by simp)
  omega

/-- There are always enough shares of an installation. -/
theorem spare_run_installation (h : m.Counts) (hspare : 0 ≤ m.spare (.installation i)) (n : Nat) :
    0 ≤ (Machine.run Γ n m).spare (.installation i) := by
  induction n with
  | zero => exact hspare
  | succ n ih => exact run_succ n m ▸ spare_step_installation (h.run n) ih

/-- There are enough shares of a cell, as long as code is thrifty. -/
theorem spare_run_cell (h : m.Counts) (hthrifty : m.Thrifty Γ) (hc : c ≠ 0)
    (hspare : 0 ≤ m.spare (.asset (.cell c))) (n : Nat) :
    0 ≤ (Machine.run Γ n m).spare (.asset (.cell c)) := by
  induction n with
  | zero => exact hspare
  | succ n ih =>
    have hstep := spare_step (Γ := Γ) (h.run n) (.cell c) (by simpa using hc) fun _ => ih
    rw [count_asset, count_asset, count_brings _ _ (.cell c)] at hstep
    rw [run_succ]
    by_cases hmem : .cell c ∈ (Machine.run Γ n m).spent
    · have hafford := hthrifty n c hmem
      omega
    · rw [List.count_eq_zero.mpr hmem] at hstep
      omega

end Runs

section Start

variable (settings : SettingsSlot) (cells : List ω) (statics : List Owned) (main : Comp ω)

omit [Contents ω] in
/-- The cells of a new thread are numbered from one. -/
theorem start_cells :
    (start settings cells statics main).cells.WellFormed ∧
      0 < (start settings cells statics main).cells.next ∧
      (start settings cells statics main).cells.find? 0 = none := by
  have hall : ∀ s : Store (Shared ω), s.WellFormed ∧ 0 < s.next ∧ s.find? 0 = none →
      let s' := cells.foldl (fun s content => (s.insert ⟨content, 1⟩).2) s
      s'.WellFormed ∧ 0 < s'.next ∧ s'.find? 0 = none := by
    intro s hs
    induction cells generalizing s with
    | nil => exact hs
    | cons content cells ih =>
      obtain ⟨hwf, hnext, hnone⟩ := hs
      refine ih _ ⟨Store.wellFormed_insert hwf _, Nat.succ_pos _, ?_⟩
      rw [Store.find?_insert, if_neg (Nat.ne_of_lt hnext)]
      exact hnone
  exact hall { next := 1 } ⟨by simp [Store.WellFormed], Nat.one_pos, rfl⟩

omit [Contents ω] in
theorem counts_start : (start settings cells statics main).Counts where
  cells := (start_cells settings cells statics main).1
  installations := Store.wellFormed_insert Store.wellFormed_empty _
  hides := by
    intro i handler s e h
    cases h

/-- The chain of a new thread has the share of the bottom installation. -/
theorem spare_start_installation (i : InstallationId) :
    0 ≤ (start settings cells statics main).spare (.installation i) := by
  have hassets : ∀ os : List Owned, (os.map Holding.asset).count (.installation i) = 0 :=
    fun os => List.count_eq_zero.mpr (by simp)
  have hcells : ((start settings cells statics main).cells.gather Shared.owned).count
      (.installation i) = 0 := by
    refine List.count_eq_zero.mpr fun hmem => ?_
    obtain ⟨id, y, -, hy⟩ := Store.mem_gather hmem
    simp [Shared.owned] at hy
  have hshelved : (start settings cells statics main).shelved.count (.installation i) = 0 := by
    simp only [shelved, List.count_append, hcells]
    rfl
  have hanchors : (start settings cells statics main).anchors.count (.installation i) =
      [Holding.installation 0].count (.installation i) := by
    have heq : (start settings cells statics main).anchors =
      [Holding.installation 0] ++ statics.map .asset := rfl
    rw [heq, List.count_append, hassets]
    rfl
  have hholders : (start settings cells statics main).holders (.installation i) =
      [Holding.installation 0].count (.installation i) := by
    simp only [holders, hshelved, hanchors]
    show 0 + 0 + 0 + 0 + 0 + 0 + _ = _
    omega
  have hshares : (start settings cells statics main).shares (.installation i) =
      [Holding.installation 0].count (.installation i) := by
    show Store.sharesOf _ Chain.initial.installations i = _
    by_cases hi : i = 0
    · subst hi
      rfl
    · have hne : Holding.installation 0 ≠ .installation i := by simpa using Ne.symm hi
      rw [List.count_cons_of_ne hne]
      have hnone : Chain.initial.installations.find? i = none := by
        have heq : Chain.initial.installations = (Store.empty.insert Installation.bottom).2 := rfl
        rw [heq, Store.find?_insert, if_neg (show i ≠ Store.empty.next from hi)]
        rfl
      rw [Store.sharesOf, hnone]
      rfl
  simp only [spare, hholders, hshares]
  omega

end Start

/-! ### Posts hold their installations -/

section Held

variable {m : Machine ω} {i : InstallationId} {h : CellId}

omit [Contents ω] in
theorem mem_of_mem_posts {a : Activation ω} (ha : a ∈ m.posts) :
    a ∈ m.stack ∨ a ∈ m.waiting ∨ ∃ f S, (f, S) ∈ m.fibers.parked.entries ∧ a ∈ S := by
  rcases List.mem_append.mp (List.mem_filter.mp ha).1 with ha | ha
  · exact .inl ha
  · rcases List.mem_append.mp ha with ha | ha
    · exact .inr (.inl ha)
    · obtain ⟨⟨f, S⟩, hS, ha⟩ := List.mem_flatMap.mp ha
      exact .inr (.inr ⟨f, S, hS, ha⟩)

/-- What an activation owns is held, wherever the activation is. -/
theorem holders_of_mem_posts {a : Activation ω} (ha : a ∈ m.posts) {x : Holding}
    (hx : x ∈ a.owned) : 0 < m.holders x := by
  have hcode : ∀ S : List (Activation ω), a ∈ S → 0 < (ownedBy S).count x := fun S hS =>
    List.count_pos_iff.mpr (List.mem_flatMap.mpr ⟨a, hS, hx⟩)
  simp only [holders]
  rcases mem_of_mem_posts ha with ha | ha | ⟨f, S, hS, ha⟩
  · have := hcode _ ha
    omega
  · have := hcode _ ha
    omega
  · have hmem : x ∈ m.shelved := by
      simp only [shelved, List.mem_append]
      refine .inl (.inr (List.mem_flatMap.mpr ⟨_, hS, ?_⟩))
      exact List.mem_flatMap.mpr ⟨a, ha, hx⟩
    have := List.count_pos_iff.mpr hmem
    omega

/-- What the running code owns, or the code that waits for it, is held. -/
theorem holders_running {a : Activation ω} (ha : a ∈ m.stack ∨ a ∈ m.waiting) {x : Holding}
    (hx : x ∈ a.owned) :
    0 < m.holders x := by
  have hcode : ∀ S : List (Activation ω), a ∈ S → 0 < (ownedBy S).count x := fun S hS =>
    List.count_pos_iff.mpr (List.mem_flatMap.mpr ⟨a, hS, hx⟩)
  simp only [holders]
  rcases ha with ha | ha <;>
  · have hcount := hcode _ ha
    omega

/-- A clause that is executed holds its installation. -/
theorem Executes.held (hi : m.Executes i) : 0 < m.holders (.installation i) := by
  rcases hi with ⟨answer, ha⟩ | ⟨answer, ha⟩ | ⟨handler, s, e, ha⟩
  · exact holders_of_mem_posts ha (by simp [Activation.owned])
  · exact holders_of_mem_posts ha (by simp [Activation.owned])
  · exact holders_of_mem_posts ha (by simp [Activation.owned])

/-- What an installation owns is held. -/
theorem shelved_of_installation {a : Installation}
    (ha : m.chain.installations.find? i = some a) {x : Holding} (hx : x ∈ a.owned) :
    0 < m.shelved.count x := by
  refine List.count_pos_iff.mpr ?_
  simp only [shelved, List.mem_append]
  refine .inl (.inl (.inl (.inl (.inl (.inr ?_)))))
  exact List.mem_flatMap.mpr ⟨_, Store.mem_of_find? ha, hx⟩

/-- A cell is dropped with its last share, when nothing but the release holds it. -/
theorem Drops.sole (hdrops : m.Drops Γ (.cell h))
    (hspare : 0 ≤ m.spare (.asset (.cell h))) :
    m.shares (.asset (.cell h)) = 1 ∧ m.holders (.asset (.cell h)) = 1 ∧
      m.shelved.count (.asset (.cell h)) = 0 := by
  obtain ⟨hhead, hholds, hgone⟩ := hdrops
  obtain ⟨hs, hreleasing⟩ : ∃ hs, m.releasing = .asset (.cell h) :: hs := by
    cases hreleasing : m.releasing with
    | nil => simp [hreleasing] at hhead
    | cons y hs =>
      simp only [hreleasing, List.head?_cons, Option.some.injEq] at hhead
      exact ⟨hs, hhead ▸ rfl⟩
  obtain ⟨y, hy⟩ := Option.isSome_iff_exists.mp hholds
  have hshares : m.shares (.asset (.cell h)) = y.shares := Store.sharesOf_eq hy
  have hlast : y.shares ≤ 1 := by
    by_contra hmore
    have hy' : ({ m with releasing := hs } : Machine ω).cells.find? h = some y := hy
    rw [step_releasing hreleasing] at hgone
    simp only [releaseOne, releaseAsset, releaseCell, hy', if_neg hmore, Machine.holds,
      contains_modify] at hgone
    exact absurd (hgone.symm.trans hholds) (by simp)
  have hheld : 1 + m.shelved.count (.asset (.cell h)) ≤ m.holders (.asset (.cell h)) := by
    simp only [holders, hreleasing, List.count_cons_self]
    omega
  simp only [spare] at hspare
  omega

end Held

/-! ### The claim about handlers -/

/-- What is true of the drop of a handler. -/
structure Outlives (Γ : Library ω) (m₀ : Machine ω) (h : CellId) : Prop where
  /-- A handler is dropped at most once. -/
  once : ∀ n n', (run Γ n m₀).Drops Γ (.cell h) → (run Γ n' m₀).Drops Γ (.cell h) → n = n'
  /-- Then no clause of an installation that ever had the handler is executed or suspended. -/
  executing : ∀ k n i a, k ≤ n → (run Γ k m₀).chain.installations.find? i = some a →
    a.handler = h → (run Γ n m₀).Executes i → ¬ (run Γ n m₀).Drops Γ (.cell h)
  /-- Then there is no installation of the handler, on the chain or elsewhere. -/
  installed : ∀ n i a, (run Γ n m₀).chain.installations.find? i = some a → a.handler = h →
    ¬ (run Γ n m₀).Drops Γ (.cell h)
  /-- Then nobody holds an installation that ever had the handler. -/
  framed : ∀ k n i a, k ≤ n → (run Γ k m₀).chain.installations.find? i = some a →
    a.handler = h → 0 < (run Γ n m₀).holders (.installation i) → ¬ (run Γ n m₀).Drops Γ (.cell h)
  /-- Then nobody holds the handler, but for the last share that is being released. -/
  sole : ∀ n, (run Γ n m₀).Drops Γ (.cell h) →
    (run Γ n m₀).shares (.asset (.cell h)) = 1 ∧ (run Γ n m₀).holders (.asset (.cell h)) = 1 ∧
      (run Γ n m₀).spare (.asset (.cell h)) = 0
  /-- Every clause that has started and not ended is known to belong to its installation. -/
  known : ∀ n keep answer, .clause keep answer ∈ (run Γ n m₀).posts → keep.isSome

variable {m : Machine ω} {h : CellId}

/-- What is dropped was there, and is never there again. -/
theorem not_drops_later (hcells : m.cells.WellFormed) (hdrops : m.Drops Γ (.cell h)) (n : Nat) :
    ¬ (run Γ n (m.step Γ)).Drops Γ (.cell h) := by
  obtain ⟨-, hholds, hgone⟩ := hdrops
  obtain ⟨y, hy⟩ := Option.isSome_iff_exists.mp hholds
  have hlt : h < (m.step Γ).cells.next :=
    Nat.lt_of_lt_of_le (Store.lt_next hcells hy) (Ages.step (Γ := Γ) m).cells.next
  have hnone : (m.step Γ).cells.find? h = none := by simpa [holds, Store.contains] using hgone
  rintro ⟨-, hholds', -⟩
  have hlater := (run_ages (Γ := Γ) n (m.step Γ)).cells.gone h hlt hnone
  simp [holds, Store.contains, hlater] at hholds'

/-- An installation keeps its handler. -/
theorem handler_of_run (hwf : m.chain.installations.WellFormed) {i : InstallationId}
    {a : Installation} (ha : m.chain.installations.find? i = some a) (n : Nat) {a' : Installation}
    (ha' : (run Γ n m).chain.installations.find? i = some a') : a'.handler = a.handler := by
  obtain ⟨a₀, ha₀, hservice⟩ :=
    (run_ages (Γ := Γ) n m).chain.kept hwf i (Store.lt_next hwf ha) a' ha'
  obtain rfl := Option.some.inj (ha.symm.trans ha₀)
  exact congrArg Prod.fst hservice

omit [Contents ω] in
/-- The code of a clause that keeps its installation. -/
theorem keeps_of_codeAt (hΓ : Γ.Manages) {i : InstallationId} {position : Nat}
    {code : ClauseCode ω} (hcode : m.codeAt Γ i position = some code) :
    code.keeps i = some i := by
  obtain ⟨-, clause, -, -, hclause, rfl⟩ := exists_clause_of_codeAt hcode
  have hmanages := hΓ _ clause (List.mem_of_getElem? hclause)
  cases hclause : clause.code with
  | noManage run => simp [hclause, ClauseCode.modifier] at hmanages
  | _ => rfl

/-- Clauses that have started are known to belong to their installations. -/
theorem known_run (hΓ : Γ.Manages) (hposts : m.posts = []) (n : Nat) :
    ∀ keep answer, .clause keep answer ∈ (run Γ n m).posts → keep.isSome := by
  induction n with
  | zero => simp [run, hposts]
  | succ n ih =>
    intro keep answer ha
    rw [run_succ] at ha
    rcases step_posts ha with ha | ha
    · exact ih keep answer ha
    · cases ha with
      | clause hi hcode =>
        rw [keeps_of_codeAt hΓ hcode]
        rfl

/-- In every run of a program without clauses that give their installations up, and whose code
spends only shares that it has, handlers outlive everything that uses them. -/
theorem handlers_outlive_clauses (hΓ : Γ.Manages) (settings : SettingsSlot) (cells : List ω)
    (statics : List Owned) (main : Comp ω)
    (hstart : ∀ c ≠ 0, 0 ≤ (start settings cells statics main).spare (.asset (.cell c)))
    (hthrifty : (start settings cells statics main).Thrifty Γ) :
    Outlives Γ (start settings cells statics main) h := by
  have hposts : (start settings cells statics main).posts = [] := rfl
  have hcounts := counts_start settings cells statics main
  obtain ⟨-, hfirst, hzero⟩ := start_cells settings cells statics main
  have hspare : ∀ n, (run Γ n (start settings cells statics main)).Drops Γ (.cell h) →
      0 ≤ (run Γ n (start settings cells statics main)).spare (.asset (.cell h)) := by
    intro n hdrops
    by_cases hh : h = 0
    · -- the handler of the bottom installation was never there
      subst hh
      have hnone := (run_ages (Γ := Γ) n _).cells.gone 0 hfirst hzero
      simp [Drops, holds, Store.contains, hnone] at hdrops
    · exact spare_run_cell hcounts hthrifty hh (hstart h hh) n
  have hinstallations : ∀ i, 0 ≤ (start settings cells statics main).spare (.installation i) :=
    spare_start_installation settings cells statics main
  generalize start settings cells statics main = m at *
  have hrun := fun n => hcounts.run (Γ := Γ) n
  have hinstalled : ∀ n i a, (run Γ n m).chain.installations.find? i = some a → a.handler = h →
      ¬ (run Γ n m).Drops Γ (.cell h) := by
    rintro n i a ha rfl hdrops
    have hheld := shelved_of_installation ha (x := .asset (.cell a.handler))
      (by simp [Installation.owned])
    have hsole := (hdrops.sole (hspare n hdrops)).2.2
    omega
  have hframed : ∀ k n i a, k ≤ n → (run Γ k m).chain.installations.find? i = some a →
      a.handler = h → 0 < (run Γ n m).holders (.installation i) →
        ¬ (run Γ n m).Drops Γ (.cell h) := by
    rintro k n i a hk ha hh hheld
    have hcontains := contains_of_spare
      (spare_run_installation (Γ := Γ) hcounts (hinstallations i) n) hheld
    obtain ⟨a', ha'⟩ := Option.isSome_iff_exists.mp hcontains
    obtain ⟨d, rfl⟩ := Nat.exists_eq_add_of_le hk
    refine hinstalled (k + d) i a' ha' ?_
    rw [run_add] at ha'
    exact (handler_of_run (hrun k).installations ha d ha').trans hh
  exact
    { once := fun n n' hdrops hdrops' => by
        rcases Nat.lt_trichotomy n n' with hlt | heq | hlt
        · obtain ⟨d, rfl⟩ := Nat.exists_eq_add_of_le (Nat.succ_le_of_lt hlt)
          rw [run_add, run_succ] at hdrops'
          exact absurd hdrops' (not_drops_later (hrun n).cells hdrops d)
        · exact heq
        · obtain ⟨d, rfl⟩ := Nat.exists_eq_add_of_le (Nat.succ_le_of_lt hlt)
          rw [run_add, run_succ] at hdrops
          exact absurd hdrops (not_drops_later (hrun n').cells hdrops' d)
      executing := fun k n i a hk ha hh hexecutes => hframed k n i a hk ha hh hexecutes.held
      installed := hinstalled
      framed := hframed
      sole := fun n hdrops => by
        obtain ⟨hshares, hholders, -⟩ := hdrops.sole (hspare n hdrops)
        exact ⟨hshares, hholders, by simp [spare, hshares, hholders]⟩
      known := known_run hΓ hposts }

/-! ### A run that drops its handler -/

theorem reader_manages : reader.Manages := by
  intro t c hc
  simp only [reader, List.mem_singleton] at hc
  subst hc
  simp [ClauseCode.modifier]

/-- Before `asking` starts, nothing holds its handler. -/
theorem spare_asking (c : CellId) (hc : c ≠ 0) :
    0 ≤ (start {} [()] [] asking).spare (.asset (.cell c)) := by
  have hshelved : (start {} [()] [] asking).shelved = [.asset (.cell 0)] := rfl
  have hanchors : (start {} [()] [] asking).anchors = [.installation 0] := rfl
  have hholders : (start {} [()] [] asking).holders (.asset (.cell c)) = 0 := by
    rw [holders, hshelved, hanchors, List.count_cons_of_ne (by simpa using hc.symm)]
    rfl
  simp [spare, hholders]

/-- The only share that `asking` spends is that of its handler, which it installs first. -/
theorem thrifty_asking : (start {} [()] [] asking).Thrifty reader := by
  intro n c hc
  have hlater : ∀ n < 33, n ≠ 0 → (Machine.run reader n (start {} [()] [] asking)).spent = [] := by
    decide +kernel
  by_cases hn : n < 33
  · obtain rfl | hne := eq_or_ne n 0
    · obtain rfl : c = 1 := by simpa [run, start, spent, asking, Comp.spends] using hc
      decide +kernel
    · simp [hlater n hn hne] at hc
  · obtain ⟨k, rfl⟩ := Nat.exists_eq_add_of_le (Nat.not_lt.mp hn)
    have hend : (Machine.run reader 33 (start {} [()] [] asking)).control =
        .halted (.finished (.int 2)) := rfl
    have hcontrol := control_run_halted (Γ := reader) hend k
    rw [← run_add] at hcontrol
    simp only [spent, hcontrol] at hc
    split at hc <;> simp_all

/-- The handler of `asking` is dropped, after its clause and its return clause. -/
theorem handlers_outlive_clauses_asking :
    (run reader 27 (start {} [()] [] asking)).Drops reader (.cell 1) ∧
      Outlives reader (start {} [()] [] asking) 1 :=
  ⟨⟨rfl, rfl, rfl⟩, handlers_outlive_clauses reader_manages {} [()] [] asking spare_asking
    thrifty_asking⟩

end Machine

end EffectHandlers
