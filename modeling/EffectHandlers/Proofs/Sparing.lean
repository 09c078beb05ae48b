import EffectHandlers.Proofs.Endings
import EffectHandlers.Proofs.Frugality
import EffectHandlers.Proofs.Outliving
/-!
# Frugal programs are careful

The cells that are kept hold each name at most once, and running code drops no name that it has not
taken up. So a thread that shows a frugal evaluation drops nothing that can still be used, and has at
its end what the evaluation has.
-/

namespace EffectHandlers

variable {ω : Type} {Γ : Library ω}

/-- What some entries hold, all entries together hold. -/
theorem Store.count_flatMap_le_gather {α β : Type} [DecidableEq β] {s : Store α} (hwf : s.WellFormed)
    {g : α → List β} {K : List Nat} (hnodup : K.Nodup) {F : Nat → List β}
    (hF : ∀ k ∈ K, ∃ a, s.find? k = some a ∧ F k = g a) (b : β) :
    (K.flatMap F).count b ≤ (s.gather g).count b := by
  induction K generalizing s with
  | nil => exact Nat.zero_le _
  | cons k K ih =>
    obtain ⟨hk, hnodup⟩ := List.nodup_cons.mp hnodup
    obtain ⟨a, ha, hFa⟩ := hF k List.mem_cons_self
    have hrest := ih (Store.wellFormed_erase hwf k) hnodup fun k' hk' => by
      obtain ⟨a', ha', hFa'⟩ := hF k' (List.mem_cons_of_mem _ hk')
      have hne : k' ≠ k := fun heq => hk (heq ▸ hk')
      exact ⟨a', by rw [Store.find?_erase hwf, if_neg hne, ha'], hFa'⟩
    rw [List.flatMap_cons, List.count_append, hFa, Store.count_gather_erase g ha]
    omega

namespace Machine

variable [Contents ω] {m m' : Machine ω} {o : Owned}

section Holders

theorem spare_name (m : Machine ω) (ho : o.isName = true) :
    m.spare (.asset o) = -(m.holders (.asset o) : Int) := by
  cases o with
  | closure | resumption => simp [spare, shares]
  | _ => cases ho

omit [Contents ω] in
theorem count_brings_asset (m m' : Machine ω) (o : Owned) :
    (m.brings m').count (.asset o) = 0 := by
  refine List.count_eq_zero.mpr fun hmem => ?_
  rcases List.mem_append.mp hmem with hmem | hmem <;> split at hmem <;> simp at hmem

/-- A release does not make anything held more often. -/
theorem holders_releasing (hcounts : m.Counts) {y : Holding} {hs : List Holding}
    (hreleasing : m.releasing = y :: hs) (ho : o.isName = true) :
    (m.step Γ).holders (.asset o) ≤ m.holders (.asset o) := by
  have hspare := spare_releaseOne (x := .asset o) hcounts.cells hcounts.installations hreleasing
  rw [← step_releasing (Γ := Γ) hreleasing, spare_name _ ho, spare_name _ ho] at hspare
  omega

/-- An operation makes held what it takes over, and gives back what is written over. -/
theorem holders_eval (hcounts : m.Counts) (hreleasing : m.releasing = []) {c : Comp ω}
    (hcontrol : m.control = .eval c) (ho : o.isName = true) :
    (m.step Γ).holders (.asset o) + (m.regains c).count o ≤
      m.holders (.asset o) + c.spends.count o := by
  have hne : ∀ {o' : Owned}, o'.isName = false → Holding.asset o ≠ .asset o' := by
    rintro o' ho' heq
    cases heq
    cases ho.symm.trans ho'
  have hspare := spare_eval (Γ := Γ) (x := .asset o) hcontrol hcounts.cells hcounts.installations
    (hne rfl) (hne rfl) (fun h => by cases h; cases ho)
  rw [count_asset, count_asset, count_brings_asset, spare_name _ ho, spare_name _ ho] at hspare
  have hstep : m.step Γ = m.eval Γ c := by simp only [step, hreleasing, hcontrol]
  rw [hstep]
  omega

/-- Where no operation is evaluated, nothing comes to be held but a new resumption. -/
theorem holders_control (hcounts : m.Counts) (hreleasing : m.releasing = [])
    (hcontrol : ∀ c, m.control ≠ .eval c) (ho : o.isName = true)
    (hnew : o ≠ .resumption m.resumptions.next ∨ ∀ r, m.control ≠ .request r) :
    (m.step Γ).holders (.asset o) ≤ m.holders (.asset o) := by
  have hspare := spare_control (Γ := Γ) (x := .asset o) hcounts hreleasing
    (hnew.imp_left fun hne heq => hne (Holding.asset.inj heq)) hcontrol
  rw [spare_name _ ho, spare_name _ ho] at hspare
  omega

theorem holders_forward {r : Request} (hreleasing : m.releasing = [])
    (hcontrol : m.control = .request r) (ho : o.isName = true) :
    (m.step Γ).holders (.asset o) ≤
      m.holders (.asset o) + [Owned.resumption m.resumptions.next].count o := by
  have hspare := spare_forward (Γ := Γ) (x := .asset o) hcontrol
  have hstep : m.step Γ = m.forward Γ r := by simp only [step, hreleasing, hcontrol]
  have hcount : [Holding.asset (.resumption m.resumptions.next)].count (.asset o) =
      [Owned.resumption m.resumptions.next].count o := count_asset [_] o
  rw [hcount, spare_name _ ho, spare_name _ ho] at hspare
  rw [hstep]
  omega

end Holders

/-- The thread has ended, or is about to. -/
def Over (m : Machine ω) : Prop := (∃ f, m.control = .fault f) ∨ ∃ o, m.control = .halted o

/-- The names that can be held by others than the cells that are kept: those that a clause has been
given and not yet taken up, or that go with a command to a clause. -/
def Due (m : Machine ω) (os : List Owned) : Prop :=
  (∀ o ∈ os, o.isName = false) ∨ m.releasing = [] ∧ ((∃ c, m.control = .eval c ∧ c.Clears os) ∨
    ∃ r y command, m.control = .request r ∧ m.exchanges.find? r.exchange = some y ∧
      y.command = some command ∧ os = command.owned)

/-- Nothing that can be used is held, other than by the cells that are kept. -/
structure Provident (K : List CellId) (m : Machine ω) (s : Evaluation ω) : Prop where
  counts : m.Counts
  bound : ∃ os, m.Due os ∧ ∀ o, s.valid o = true →
    m.holders (.asset o) ≤ (s.kept K).count o + os.count o
  fresh : ∀ o, o.isName = true → ¬ s.Issued o → m.holders (.asset o) = 0
  cells : ∀ k ∈ K, 0 < m.spare (.asset (.cell k))

/-- Where a command to a resumptive clause is passed on, it is passed on further, or the clause starts
with a new resumption. -/
theorem forward_outcome (hreleasing : m.releasing = []) {r : Request}
    (hcontrol : m.control = .request r) {y : Exchange} {command : Command}
    (hy : m.exchanges.find? r.exchange = some y) (hcommand : y.command = some command)
    {run : CellId → Value → ResumptionId → Comp ω}
    (hcode : m.codeAt Γ r.target r.entry = some (.resumptive run)) :
    (m.step Γ).Over ∨ (∃ message, (m.step Γ).control = .unwind message) ∨
    ((m.step Γ).control = .request r ∧ (m.step Γ).releasing = [] ∧
      (m.step Γ).exchanges = m.exchanges ∧
        ∀ o : Owned, o.isName = true → (m.step Γ).holders (.asset o) = m.holders (.asset o)) ∨
    ∃ cell, (m.step Γ).control = .eval (run cell command.payload m.resumptions.next) ∧
      (m.step Γ).releasing = [] ∧
        (m.step Γ).resumptions.next = m.resumptions.next + 1 := by
  have hstep : m.step Γ = m.forward Γ r := by simp only [step, hreleasing, hcontrol]
  rw [hstep]
  unfold forward
  split
  · exact .inl (.inl ⟨_, rfl⟩)
  · rename_i S fs hsuspend
    simp only
    split
    · rename_i i f rest
      split
      · rename_i htarget
        subst htarget
        rcases capture_cases (Γ := Γ) ({ m with fibers := fs, stack := rest } : Machine ω) r.target f
            r with ⟨text, heq⟩ | heq | ⟨code, segment, c', hcode', hsplit, ⟨counters, journal, heq⟩ |
            ⟨y', command', counters, journal, hy', hcommand', heq⟩⟩
        · rw [heq]
          exact .inl (.inl ⟨_, rfl⟩)
        · rw [heq]
          exact .inr (.inl ⟨_, rfl⟩)
        · rw [heq]
          exact .inl (.inl ⟨_, rfl⟩)
        · obtain rfl : code = .resumptive run := Option.some.inj (hcode'.symm.trans hcode)
          cases hy.symm.trans hy'
          cases hcommand.symm.trans hcommand'
          rw [heq]
          exact .inr (.inr (.inr ⟨_, rfl, hreleasing, rfl⟩))
      · refine .inr (.inr (.inl ⟨rfl, hreleasing, rfl, fun o ho => ?_⟩))
        have hsuspended := spare_suspend (x := .asset o) hsuspend
        have hgoOn := spare_goOn (x := .asset o)
          ({ m with fibers := fs, stack := .driving i f :: rest } : Machine ω) (.request r)
          (by rw [hcontrol]; rfl) rfl
        have hload : m.control.load (.asset o) = 0 := by rw [hcontrol, load_request]
        change _ = _ + ((m.control.load (.asset o) : Nat) : Int) - _ at hgoOn
        rw [hsuspended, load_request, hload, spare_name _ ho, spare_name _ ho] at hgoOn
        show (({ m with fibers := fs, stack := .driving i f :: rest } : Machine ω).goOn
          (.request r)).holders (.asset o) = _
        omega
    · exact .inl (.inl ⟨_, rfl⟩)

section Operations

variable {K : List CellId} {s s' : Evaluation ω} {gone gone' : Owned → Prop} {c : Comp ω}
  {l : Layout ω}

/-- A command to a resumptive clause is sent off with all that it owns. -/
theorem invoke_outcome (hsound : Sound Γ m l) (htracks : Tracks gone m s) {target : Target}
    {command : Command} {next : Value → Comp ω} (hshares : Shares m s (.invoke target command next))
    (hgone : ∀ o ∈ target.uses, ¬ gone o) (hreleasing : m.releasing = [])
    (hclauses : ∀ i code, s.dispatch Γ command.name target = .ok (i, code) →
      ∃ run, code = .resumptive run) :
    (m.step Γ).Over ∨ ∃ r y, (m.step Γ).control = .request r ∧ (m.step Γ).releasing = [] ∧
      (m.step Γ).exchanges.find? r.exchange = some y ∧ y.command = some command := by
  have hstep : m.step Γ = m.eval Γ (.invoke target command next) := by
    simp only [step, hreleasing, hshares.control]
  rcases hsound.dispatched htracks hshares hgone with
    ⟨i, entry, code, hm, hs, -, -, -, hmodifier⟩ | ⟨f, hm, -⟩
  · obtain ⟨run, rfl⟩ := hclauses i code hs
    have hsend : m.step Γ = (m.push (.bind next)).send Γ i entry command := by
      rw [hstep]
      simp only [eval, hm]
    rw [send_eq (m := m.push (.bind next)) hmodifier (by simp [ClauseCode.modifier])] at hsend
    rw [hsend]
    exact .inr ⟨_, _, rfl, hreleasing, Store.find?_insert_self _ _, rfl⟩
  · refine .inl (.inl ⟨f, ?_⟩)
    rw [hstep]
    simp only [eval, hm]
    rfl

/-- What is due after an operation is what it has not taken up. -/
theorem exists_due_eval {os : List Owned} (hclears : c.Clears os) (hphase : s.phase = .eval c)
    (hcontrol : m.control = .eval c) (hreleasing : m.releasing = [])
    (hs : s' = s ∨ s' = s.step Γ) (htracks : Tracks gone m s)
    (htracks' : Tracks gone' (m.step Γ) s') :
    ∃ os', (m.step Γ).Due os' ∧
      ∀ o, s.valid o = true → s'.valid o = true → os.count o ≤ os'.count o := by
  by_cases hnameless : ∀ o ∈ os, o.isName = false
  · exact ⟨os, .inl hnameless, fun o _ _ => Nat.le_refl _⟩
  have hstep : m.step Γ = m.eval Γ c := by simp only [step, hreleasing, hcontrol]
  have hmoved : (m.step Γ).resumptions.next = m.resumptions.next + 1 → s' = s.step Γ := by
    intro hnext
    refine hs.resolve_left ?_
    rintro rfl
    have hbefore := htracks.resumptions.next
    have hafter := htracks'.resumptions.next
    omega
  cases c with
  | read k next =>
    refine ⟨os, .inr ⟨?_, .inl ⟨_, ?_, hclears.resolve_left hnameless (m.content k)⟩⟩,
      fun o _ _ => Nat.le_refl _⟩
    · rw [hstep]
      exact hreleasing
    · rw [hstep]
      rfl
  | write k x next =>
    refine ⟨os, .inr ⟨?_, .inl ⟨_, ?_, hclears.resolve_left hnameless⟩⟩,
      fun o _ _ => Nat.le_refl _⟩
    · rw [hstep]
      exact hreleasing
    · rw [hstep]
      rfl
  | take r next =>
    obtain ⟨hcontrol', hreleasing', hnext⟩ :
        (m.step Γ).control = .eval (next m.resumptions.next) ∧ (m.step Γ).releasing = [] ∧
          (m.step Γ).resumptions.next = m.resumptions.next + 1 := by
      rw [hstep]
      simp only [eval]
      split
      · exact ⟨rfl, hreleasing, rfl⟩
      · exact ⟨rfl, hreleasing, rfl⟩
    refine ⟨os.erase (.resumption r), .inr ⟨hreleasing', .inl ⟨_, hcontrol',
      hclears.resolve_left hnameless _⟩⟩, fun o ho ho' => ?_⟩
    have hne : o ≠ .resumption r := by
      rintro rfl
      rw [hmoved hnext, Evaluation.not_valid_take htracks.resumptions.right hphase ho] at ho'
      cases ho'
    rw [List.count_erase_of_ne hne]
  | function answer f next =>
    obtain ⟨hcontrol', hreleasing', hnext⟩ :
        (m.step Γ).control = .eval (next m.resumptions.next) ∧ (m.step Γ).releasing = [] ∧
          (m.step Γ).resumptions.next = m.resumptions.next + 1 := by
      rw [hstep]
      simp only [eval]
      split
      · exact ⟨rfl, hreleasing, rfl⟩
      · exact ⟨rfl, hreleasing, rfl⟩
    refine ⟨os.erase (.closure f), .inr ⟨hreleasing', .inl ⟨_, hcontrol',
      hclears.resolve_left hnameless _⟩⟩, fun o ho ho' => ?_⟩
    have hne : o ≠ .closure f := by
      rintro rfl
      rw [hmoved hnext, Evaluation.not_valid_function htracks.closures.right hphase ho] at ho'
      cases ho'
    rw [List.count_erase_of_ne hne]
  | _ => exact absurd hclears hnameless

end Operations

namespace Provident

variable {K : List CellId} {s s' : Evaluation ω} {gone gone' : Owned → Prop} {n n' : Nat}

/-- A cell that is kept is there. -/
theorem contains (h : m.Provident K s) {k : CellId} (hk : k ∈ K) : m.cells.contains k := by
  by_contra hnone
  have hzero : m.shares (.asset (.cell k)) = 0 := Store.sharesOf_eq_zero _ (by simpa using hnone)
  have hspare := h.cells k hk
  simp only [spare, hzero] at hspare
  omega

/-- What is kept is held. -/
theorem count_kept_le (h : m.Provident K s) (hnodup : K.Nodup) (htracks : Tracks gone m s)
    (o : Owned) :
    (s.kept K).count o ≤ m.shelved.count (.asset o) := by
  have hcells := Store.count_flatMap_le_gather h.counts.cells (g := Shared.owned) hnodup
    (F := fun k => (Contents.owned ((s.cells.find? k).getD default)).map .asset) (fun k hk => by
      obtain ⟨y, hy⟩ := Option.isSome_iff_exists.mp (h.contains hk)
      obtain ⟨x, hx, rfl⟩ := htracks.cells.forth hy
      exact ⟨y, hy, by simp [hx, Shared.owned]⟩) (.asset o)
  rw [← List.map_flatMap, count_asset] at hcells
  simp only [shelved, List.count_append]
  exact hcells.trans (by omega)

theorem lt_next (h : m.Provident K s) (htracks : Tracks gone m s) {k : CellId} (hk : k ∈ K) :
    k < s.cells.next := by
  obtain ⟨y, hy⟩ := Option.isSome_iff_exists.mp (h.contains hk)
  obtain ⟨x, hx, -⟩ := htracks.cells.forth hy
  exact Store.lt_next htracks.cells.right hx

/-- Where no cell is written, the same is kept. -/
theorem kept_eq (h : m.Provident K s) (htracks : Tracks gone m s) (hs : s' = s ∨ s' = s.step Γ)
    (hwrite : ∀ c x next, s.phase ≠ .eval (.write c x next)) : s'.kept K = s.kept K := by
  rcases hs with rfl | rfl
  · rfl
  · exact Evaluation.kept_step (fun k hk => h.lt_next htracks hk) hwrite

/-- Where the cells of the thread stay as they are, the same is kept. -/
theorem kept_eq_of_cells (h : m.Provident K s) (htracks : Tracks gone m s)
    (htracks' : Tracks gone' m' s') (hcells : m'.cells = m.cells) : s'.kept K = s.kept K := by
  refine List.flatMap_congr fun k hk => ?_
  obtain ⟨y, hy⟩ := Option.isSome_iff_exists.mp (h.contains hk)
  obtain ⟨x, hx, rfl⟩ := htracks.cells.forth hy
  obtain ⟨x', hx', rfl⟩ := htracks'.cells.forth (hcells ▸ hy)
  rw [hx, hx']

/-- What has to be seen of the next state: names that were made before, and those that are new. -/
theorem next {os : List Owned} (hcounts : m'.Counts)
    (hcells : ∀ k ∈ K, 0 < m'.spare (.asset (.cell k)))
    (hs : s' = s ∨ s' = s.step Γ) (hdue : m'.Due os)
    (hold : ∀ o, s.valid o = true → s'.valid o = true →
      m'.holders (.asset o) ≤ (s'.kept K).count o + os.count o)
    (hnew : ∀ o, o.isName = true → ¬ s.Issued o →
      m'.holders (.asset o) = 0 ∨ s'.Issued o ∧ m'.holders (.asset o) ≤ os.count o) :
    m'.Provident K s' := by
  have hvalid : ∀ o, s'.valid o = true → s.valid o = true ∨ ¬ s.Issued o := by
    rcases hs with rfl | rfl
    · exact fun o ho => .inl ho
    · exact fun o ho => Evaluation.valid_step ho
  have hissued : ∀ o, s.Issued o → s'.Issued o := by
    rcases hs with rfl | rfl
    · exact fun o ho => ho
    · exact fun o ho => ho.step
  refine ⟨hcounts, ⟨os, hdue, fun o ho => ?_⟩, fun o ho hunissued => ?_, hcells⟩
  · rcases hvalid o ho with hbefore | hunissued
    · exact hold o hbefore ho
    · rcases hnew o (Evaluation.isName_of_valid ho) hunissued with hnone | ⟨-, hbound⟩ <;> omega
  · exact (hnew o ho fun h => hunissued (hissued o h)).resolve_right fun h => hunissued h.1

/-- Kept cells stay, where no share of them is taken over. -/
theorem spare_kept (h : m.Provident K s) (hzero : 0 ∉ K)
    (hspent : ∀ k ∈ K, .cell k ∉ m.spent) :
    ∀ k ∈ K, 0 < (m.step Γ).spare (.asset (.cell k)) := by
  intro k hk
  have hpositive := h.cells k hk
  have hstep := spare_step (Γ := Γ) h.counts (.cell k) (by rintro ⟨⟩; exact hzero hk)
    fun _ => Int.le_of_lt hpositive
  rw [count_asset, count_asset, count_brings_asset, List.count_eq_zero.mpr (hspent k hk)] at hstep
  omega

/-- While something is released, no name is held but by the cells that are kept. -/
theorem releasing (h : m.Provident K s) (hzero : 0 ∉ K) {y : Holding} {hs : List Holding}
    (hreleasing : m.releasing = y :: hs) : (m.step Γ).Provident K s := by
  obtain ⟨os, hdue, hbound⟩ := h.bound
  have hnameless : ∀ o ∈ os, o.isName = false := by
    rcases hdue with hos | ⟨hnone, -⟩
    · exact hos
    · cases hreleasing.symm.trans hnone
  have hholders := fun (o : Owned) (ho : o.isName = true) =>
    holders_releasing (Γ := Γ) h.counts hreleasing ho
  refine .next (Γ := Γ) h.counts.step (h.spare_kept hzero fun k _ => by simp [spent, hreleasing])
    (.inl rfl) (.inl hnameless) (fun o ho _ => ?_) fun o ho hunissued => ?_
  · exact (hholders o (Evaluation.isName_of_valid ho)).trans (hbound o ho)
  · have hnone := h.fresh o ho hunissued
    have hless := hholders o ho
    omega

/-- Where neither an operation is evaluated nor a command sent, nothing changes. -/
theorem controls (h : m.Provident K s) (hzero : 0 ∉ K) (hreleasing : m.releasing = [])
    (hcontrol : ∀ c, m.control ≠ .eval c) (hrequest : ∀ r, m.control ≠ .request r)
    (hs : s' = s ∨ s' = s.step Γ) (hkept : s'.kept K = s.kept K) :
    (m.step Γ).Provident K s' := by
  obtain ⟨os, hdue, hbound⟩ := h.bound
  have hnameless : ∀ o ∈ os, o.isName = false := by
    rcases hdue with hos | ⟨-, ⟨c, hc, -⟩ | ⟨r, y, command, hr, -⟩⟩
    · exact hos
    · exact absurd hc (hcontrol c)
    · exact absurd hr (hrequest r)
  have hholders := fun (o : Owned) (ho : o.isName = true) =>
    holders_control (Γ := Γ) h.counts hreleasing hcontrol ho (.inr hrequest)
  have hspent : ∀ k ∈ K, .cell k ∉ m.spent := by
    intro k _
    unfold spent
    split
    · exact absurd ‹_› (hcontrol _)
    · exact List.not_mem_nil
  refine .next (Γ := Γ) h.counts.step (h.spare_kept hzero hspent) hs (.inl hnameless)
    (fun o ho _ => ?_) fun o ho hunissued => ?_
  · rw [hkept]
    exact (hholders o (Evaluation.isName_of_valid ho)).trans (hbound o ho)
  · have hnone := h.fresh o ho hunissued
    have hless := hholders o ho
    omega

/-- A command goes to its clause together with what it owns, and the clause takes that up. -/
theorem requests (h : m.Provident K s) (hzero : 0 ∉ K) (hreleasing : m.releasing = []) {r : Request}
    (hcontrol : m.control = .request r) {y : Exchange} {command : Command}
    (hy : m.exchanges.find? r.exchange = some y) (hcommand : y.command = some command)
    {run : CellId → Value → ResumptionId → Comp ω}
    (hcode : m.codeAt Γ r.target r.entry = some (.resumptive run))
    (hclears : ∀ cell r, (run cell command.payload r).Clears (.resumption r :: command.owned))
    (hnext : s'.resumptions.next = (m.step Γ).resumptions.next)
    (hs : s' = s ∨ s' = s.step Γ) (hkept : s'.kept K = s.kept K)
    (hunwinds : ∀ message, (m.step Γ).control ≠ .unwind message) :
    (m.step Γ).Over ∨ (m.step Γ).Provident K s' := by
  obtain ⟨os, hdue, hbound⟩ := h.bound
  have hos : ∀ o : Owned, o.isName = true → os.count o ≤ command.owned.count o := by
    intro o ho
    rcases hdue with hnameless | ⟨-, ⟨c, hc, -⟩ | ⟨r', y', command', hr, hy', hcommand', rfl⟩⟩
    · have hnone : os.count o = 0 := List.count_eq_zero.mpr fun hmem => by
        cases ho.symm.trans (hnameless o hmem)
      omega
    · cases hcontrol.symm.trans hc
    · cases hcontrol.symm.trans hr
      cases hy.symm.trans hy'
      cases hcommand.symm.trans hcommand'
      exact Nat.le_refl _
  have hcells := h.spare_kept (Γ := Γ) hzero fun k _ => by simp [spent, hreleasing, hcontrol]
  have hforward := fun (o : Owned) (ho : o.isName = true) =>
    holders_forward (Γ := Γ) hreleasing hcontrol ho
  have hcontrols : ∀ c, m.control ≠ .eval c := by simp [hcontrol]
  rcases forward_outcome hreleasing hcontrol hy hcommand hcode with
    hover | ⟨message, hunwind⟩ | ⟨hm, hreleased, hexchanges, hheld⟩ | ⟨cell, hm, hreleased, hnew⟩
  · exact .inl hover
  · exact absurd hunwind (hunwinds message)
  · have hdue' : (m.step Γ).Due command.owned :=
      .inr ⟨hreleased, .inr ⟨r, y, command, hm, hexchanges ▸ hy, hcommand, rfl⟩⟩
    refine .inr (.next (Γ := Γ) h.counts.step hcells hs hdue' (fun o ho _ => ?_)
      fun o ho hunissued => .inl ((hheld o ho).trans (h.fresh o ho hunissued)))
    have hname := Evaluation.isName_of_valid ho
    have hbefore := hbound o ho
    have hgiven := hos o hname
    rw [hheld o hname, hkept]
    omega
  · have hdue' : (m.step Γ).Due (.resumption m.resumptions.next :: command.owned) :=
      .inr ⟨hreleased, .inl ⟨_, hm, hclears cell _⟩⟩
    refine .inr (.next (Γ := Γ) h.counts.step hcells hs hdue' (fun o ho _ => ?_)
      fun o ho hunissued => ?_)
    · have hname := Evaluation.isName_of_valid ho
      have hbefore := hbound o ho
      have hafter := hforward o hname
      have hgiven := hos o hname
      have hcount : (Owned.resumption m.resumptions.next :: command.owned).count o =
          [Owned.resumption m.resumptions.next].count o + command.owned.count o := by
        rw [← List.singleton_append, List.count_append]
      rw [hkept, hcount]
      omega
    · have hnone := h.fresh o ho hunissued
      have hafter := hforward o ho
      by_cases hminted : o = .resumption m.resumptions.next
      · subst hminted
        refine .inr ⟨?_, ?_⟩
        · show m.resumptions.next < s'.resumptions.next
          omega
        · simp only [List.count_cons_self, List.count_nil] at hafter ⊢
          omega
      · rw [List.count_eq_zero.mpr (by simpa using hminted)] at hafter
        omega

/-- What an operation takes over goes into the cells that are kept, if it can be used. -/
theorem kept_spends (h : m.Provident K s) (hnodup : K.Nodup) (hfrugal : s.Frugal Γ K) {c : Comp ω}
    (hphase : s.phase = .eval c)
    (hcontrol : m.control = .eval c) (hreleasing : m.releasing = [])
    (hinvoke : ∀ target command next, c ≠ .invoke target command next)
    (hs : s' = s ∨ s' = s.step Γ) (htracks : Tracks gone m s) (htracks' : Tracks gone' (m.step Γ) s')
    (ho : o.isName = true) :
    (s.kept K).count o + c.spends.count o ≤ (s'.kept K).count o + (m.regains c).count o := by
  have hnone : (∀ k ∈ K, ∀ x next, c ≠ .write k x next) → c.spends.count o = 0 := fun hwrite =>
    List.count_eq_zero.mpr fun hmem => by
      rcases ((hfrugal.spends c hphase o hmem).2 ho).2 with ⟨k, hk, x, next, rfl⟩ | ⟨_, _, _, rfl⟩
      · exact hwrite k hk x next rfl
      · exact hinvoke _ _ _ rfl
  by_cases hwrite : ∃ k x next, c = .write k x next
  · obtain ⟨k, x, next, rfl⟩ := hwrite
    by_cases hk : k ∈ K
    · obtain ⟨y, hy⟩ := Option.isSome_iff_exists.mp (h.contains hk)
      obtain ⟨content, hcontent, hsame⟩ := htracks.cells.forth hy
      have hregains : m.regains (.write k x next) = Contents.owned content := by
        simp [regains, hy, hsame]
      rw [hregains]
      rcases hs with rfl | rfl
      · -- the evaluation has not moved, so the cell had that content before
        have hwritten : (m.step Γ).cells.find? k = some { y with content := x } := by
          simp only [step, hreleasing, hcontrol, eval, goOn, Store.find?_modify, if_pos, hy]
          rfl
        obtain ⟨content', hcontent', rfl⟩ := htracks'.cells.forth hwritten
        cases hcontent.symm.trans hcontent'
        exact Nat.le_refl _
      · have hcount := Evaluation.count_kept_write hnodup hk hcontent (t := s.step Γ) (x := x)
          (by simp only [Evaluation.step, hphase]; rfl) o
        exact Nat.le_of_eq hcount.symm
    · have hsame : s'.kept K = s.kept K := by
        rcases hs with rfl | rfl
        · rfl
        · exact Evaluation.kept_write hk (x := x) (by simp only [Evaluation.step, hphase]; rfl)
      rw [hsame, hnone fun k' hk' x' next' heq => by cases heq; exact hk hk']
      omega
  · have hsame := h.kept_eq htracks hs fun k x next heq =>
      hwrite ⟨k, x, next, Phase.eval.inj (hphase.symm.trans heq)⟩
    rw [hsame, hnone fun k _ x next heq => hwrite ⟨k, x, next, heq⟩]
    omega

/-- An operation takes up what it is given, or puts it into the cells that are kept. -/
theorem evaluates (h : m.Provident K s) (hzero : 0 ∉ K) (hnodup : K.Nodup) {l : Layout ω}
    (hsound : Sound Γ m l) (htracks : Tracks gone m s) {c : Comp ω} (hshares : Shares m s c)
    (hreleasing : m.releasing = []) (hfrugal : s.Frugal Γ K) (hgone : ∀ o ∈ c.uses, ¬ gone o)
    (hs : s' = s ∨ s' = s.step Γ) (htracks' : Tracks gone' (m.step Γ) s') :
    (m.step Γ).Over ∨ (m.step Γ).Provident K s' := by
  have hcontrol := hshares.control
  obtain ⟨os, hdue, hbound⟩ := h.bound
  have hclears : c.Clears os := by
    rcases hdue with hnameless | ⟨-, ⟨c', hc', hclears⟩ | ⟨r, y, command, hr, -⟩⟩
    · exact .of_nameless hnameless
    · cases hcontrol.symm.trans hc'
      exact hclears
    · cases hcontrol.symm.trans hr
  have hcells := h.spare_kept (Γ := Γ) hzero fun k hk hmem => by
    simp only [spent, hreleasing, hcontrol] at hmem
    exact (hfrugal.spends c hshares.phase _ hmem).1 k hk rfl
  have hholders := fun (o : Owned) (ho : o.isName = true) =>
    holders_eval (Γ := Γ) h.counts hreleasing hcontrol ho
  have hfresh : ∀ o, o.isName = true → ¬ s.Issued o → (m.step Γ).holders (.asset o) = 0 := by
    intro o ho hunissued
    have hnone := h.fresh o ho hunissued
    have hspends : c.spends.count o = 0 := List.count_eq_zero.mpr fun hmem =>
      hunissued ((hfrugal.spends c hshares.phase o hmem).2 ho).1
    have hless := hholders o ho
    omega
  by_cases hinvoke : ∃ target command next, c = .invoke target command next
  · obtain ⟨target, command, next, rfl⟩ := hinvoke
    rcases invoke_outcome hsound htracks hshares hgone hreleasing fun i code hdispatch => by
        obtain ⟨run, rfl, -⟩ := hfrugal.clears target command next hshares.phase i code hdispatch
        exact ⟨run, rfl⟩ with
      hover | ⟨r, y, hm, hreleased, hy, hcommand⟩
    · exact .inl hover
    · have hdue' : (m.step Γ).Due command.owned :=
        .inr ⟨hreleased, .inr ⟨r, y, command, hm, hy, hcommand, rfl⟩⟩
      refine .inr (.next (Γ := Γ) h.counts.step hcells hs hdue' (fun o ho _ => ?_)
        fun o ho hunissued => .inl (hfresh o ho hunissued))
      have hname := Evaluation.isName_of_valid ho
      have hless := hholders o hname
      have hbefore := hbound o ho
      have hnameless : os.count o = 0 := List.count_eq_zero.mpr fun hmem => by
        cases hname.symm.trans (hclears o hmem)
      have hkept := h.kept_eq htracks hs fun k x next heq => by
        cases hshares.phase.symm.trans heq
      simp only [Comp.spends] at hless
      rw [hkept]
      omega
  · have hnever : ∀ target command next, c ≠ .invoke target command next :=
      fun target command next heq => hinvoke ⟨target, command, next, heq⟩
    obtain ⟨os', hdue', hcount⟩ :=
      exists_due_eval hclears hshares.phase hcontrol hreleasing hs htracks htracks'
    refine .inr (.next (Γ := Γ) h.counts.step hcells hs hdue' (fun o ho ho' => ?_)
      fun o ho hunissued => .inl (hfresh o ho hunissued))
    have hname := Evaluation.isName_of_valid ho
    have hless := hholders o hname
    have hbefore := hbound o ho
    have hkept := h.kept_spends hnodup hfrugal hshares.phase hcontrol hreleasing hnever hs htracks
      htracks' hname
    have hdues := hcount o ho ho'
    omega

/-- Nothing is dropped that can be used, and no cell that is kept. -/
theorem not_drops (h : m.Provident K s) (hzero : 0 ∉ K) (hnodup : K.Nodup)
    (htracks : Tracks gone m s) (hdrops : m.Drops Γ o) :
    o.isName = false ∧ ∀ k ∈ K, o ≠ .cell k := by
  obtain ⟨hhead, hholds, hgone⟩ := hdrops
  obtain ⟨hs, hreleasing⟩ : ∃ hs, m.releasing = .asset o :: hs := by
    cases hreleasing : m.releasing with
    | nil => simp [hreleasing] at hhead
    | cons y hs =>
      rw [hreleasing] at hhead
      exact ⟨hs, by rw [Option.some.inj hhead]⟩
  constructor
  · by_contra hname
    have hvalid : s.valid o = true := by
      cases o with
      | closure f =>
        obtain ⟨x, hx⟩ := Option.isSome_iff_exists.mp hholds
        obtain ⟨body, hbody, -⟩ := htracks.closures.forth hx
        simp [Evaluation.valid, Store.contains, hbody]
      | resumption r =>
        obtain ⟨x, hx⟩ := Option.isSome_iff_exists.mp hholds
        obtain ⟨k, hk, -⟩ := htracks.resumptions.forth hx
        simp [Evaluation.valid, Store.contains, hk]
      | cell | reference | notice => exact absurd rfl hname
    obtain ⟨os, hdue, hbound⟩ := h.bound
    have hnone : os.count o = 0 := List.count_eq_zero.mpr fun hmem => by
      rcases hdue with hnameless | ⟨hidle, -⟩
      · exact hname (hnameless o hmem)
      · cases hreleasing.symm.trans hidle
    have hkept := h.count_kept_le hnodup htracks o
    have hless := hbound o hvalid
    have hheld : 1 + m.shelved.count (.asset o) ≤ m.holders (.asset o) := by
      simp only [holders, hreleasing, List.count_cons_self]
      omega
    omega
  · rintro k hk rfl
    have hthere := (h.releasing (Γ := Γ) hzero hreleasing).contains hk
    simp only [holds] at hgone
    cases hthere.symm.trans hgone

end Provident

/-! ### Runs -/

section Runs

variable {K : List CellId} {s s' : Evaluation ω} {gone : Owned → Prop} {n : Nat}

theorem Over.step (h : m.Over) : (m.step Γ).Over := by
  cases hreleasing : m.releasing with
  | cons y hs =>
    rw [step_releasing hreleasing, Over, releaseOne_control]
    exact h
  | nil =>
    rcases h with ⟨f, hf⟩ | ⟨o, ho⟩
    · exact .inr ⟨_, by simp only [Machine.step, hreleasing, hf]; rfl⟩
    · exact .inr ⟨o, by simp only [Machine.step, hreleasing, ho]⟩

omit [Contents ω] in
/-- A thread that is over evaluates nothing. -/
theorem Over.idle (h : m.Over) : m.uses = [] ∧ m.asksPool = false := by
  constructor
  all_goals
    rcases h with ⟨f, hf⟩ | ⟨o, ho⟩
    · simp only [uses, asksPool, hf]
      split <;> simp_all
    · simp only [uses, asksPool, ho]
      split <;> simp_all

/-- A thread that shows a frugal evaluation goes on to show it, or is over. -/
theorem Provident.step (h : m.Provident K s) (hΓ : Γ.Orderly) (htidy : m.Tidy) (hzero : 0 ∉ K)
    (hnodup : K.Nodup) (hfrugal : s.Frugal Γ K) (hshows : Simulates Γ gone m s n)
    (hgone : ∀ o, gone o → o.isName = false ∧ ∀ k ∈ K, o ≠ .cell k) :
    (m.step Γ).Over ∨ ∃ s' n', (s' = s ∨ s' = s.step Γ) ∧
      Simulates Γ (fun o => gone o ∨ m.Drops Γ o) (m.step Γ) s' n' ∧ (m.step Γ).Provident K s' ∧
        ∀ o, m.Drops Γ o → o.isName = false ∧ ∀ k ∈ K, o ≠ .cell k := by
  have huses : ∀ c, s.phase = .eval c → ∀ o ∈ c.uses, ¬ gone o := by
    intro c hc o ho hgoing
    obtain ⟨hname, hcell⟩ := hgone o hgoing
    rcases hfrugal.uses c hc o ho with hname' | ⟨k, hk, rfl⟩
    · cases hname'.symm.trans hname
    · exact hcell k hk rfl
  cases hshows with
  | faulting hm => exact .inl (Over.step (.inl ⟨_, hm⟩))
  | ended hm => exact .inl (Over.step (.inr ⟨_, hm⟩))
  | running hsound htracks hstage =>
    have hdrops := fun o => h.not_drops (Γ := Γ) (o := o) hzero hnodup htracks
    cases hreleasing : m.releasing with
    | cons y hs =>
      exact .inr ⟨s, n, .inl rfl, Simulates.releaseOne (.running hsound htracks hstage) hreleasing,
        h.releasing hzero hreleasing, hdrops⟩
    | nil =>
      have hadvances := Simulates.step (.running hsound htracks hstage) hΓ htidy hreleasing
        fun c hc => by
          have hphase : s.phase = .eval c := by cases hstage <;> simp_all
          exact ⟨huses c hphase, hfrugal.pool c hphase⟩
      obtain ⟨s', n', hs, hshows'⟩ : ∃ s' n', (s' = s ∨ s' = s.step Γ) ∧
          Simulates Γ gone (m.step Γ) s' n' := by
        rcases hadvances with ⟨n', -, hshows'⟩ | ⟨n', hshows'⟩
        · exact ⟨s, n', .inl rfl, hshows'⟩
        · exact ⟨_, n', .inr rfl, hshows'⟩
      have hforget : Simulates Γ (fun o => gone o ∨ m.Drops Γ o) (m.step Γ) s' n' :=
        hshows'.forget fun o => .inl
      suffices hnext : (m.step Γ).Over ∨ (m.step Γ).Provident K s' from
        hnext.imp_right fun hnext => ⟨s', n', hs, hforget, hnext, hdrops⟩
      cases hshows' with
      | faulting hm => exact .inl (.inl ⟨_, hm⟩)
      | ended hm => exact .inl (.inr ⟨_, hm⟩)
      | running hsound' htracks' hstage' =>
        cases hstage with
        | @eval body hm hphase hframes =>
          exact h.evaluates hzero hnodup hsound htracks ⟨hm, hphase, hframes⟩ hreleasing hfrugal
            (huses body hphase) hs htracks'
        | start hm hstack hphase hframes =>
          refine .inr (h.controls hzero hreleasing (by simp [hm]) (by simp [hm]) hs ?_)
          refine h.kept_eq_of_cells htracks htracks' ?_
          simp only [Machine.step, hreleasing, hm, wake, hstack]
        | request hm hcarries hclause hy hcommand hphase hdispatch hframes =>
          obtain ⟨run, rfl, hclears⟩ := hfrugal.clears _ _ _ hphase _ _ hdispatch
          refine h.requests hzero hreleasing hm hy hcommand hclause hclears htracks'.resumptions.next
            hs (h.kept_eq htracks hs (by simp [hphase])) fun message hunwind => ?_
          cases hstage' <;> simp_all
        | ret hm hphase | done hm hphase | tail hm hphase | settle hm hphase | wake hm _ _ _ hphase =>
          exact .inr (h.controls hzero hreleasing (by simp [hm]) (by simp [hm]) hs
            (h.kept_eq htracks hs (by simp [hphase])))

/-- A thread that shows a frugal evaluation is over, or drops nothing that can be used. -/
def Spares (Γ : Library ω) (K : List CellId) (s₀ : Evaluation ω) (m : Machine ω) (i : Nat) : Prop :=
  (m.run Γ i).Over ∨ ∃ t n, m.Shows Γ i ((Evaluation.step Γ)^[t] s₀) n ∧
    (m.run Γ i).Provident K ((Evaluation.step Γ)^[t] s₀) ∧
      ∀ o, m.Dropped Γ i o → o.isName = false ∧ ∀ k ∈ K, o ≠ .cell k

/-- A thread spares what can be used as long as it shows a frugal evaluation. -/
theorem Spares.run {s₀ : Evaluation ω} (h : m.Spares Γ K s₀ 0) (hΓ : Γ.Orderly) (htidy : m.Tidy)
    (hzero : 0 ∉ K) (hnodup : K.Nodup) (hfrugal : ∀ t, ((Evaluation.step Γ)^[t] s₀).Frugal Γ K)
    (i : Nat) : m.Spares Γ K s₀ i := by
  induction i with
  | zero => exact h
  | succ i ih =>
    unfold Spares Shows
    rw [run_succ]
    rcases ih with hover | ⟨t, n, hshows, hprovident, hgone⟩
    · exact .inl hover.step
    rcases hprovident.step hΓ (htidy.run i) hzero hnodup (hfrugal t) hshows hgone with
      hover | ⟨s', n', hs, hshows', hprovident', hdrops⟩
    · exact .inl hover
    obtain ⟨t', rfl⟩ : ∃ t', s' = (Evaluation.step Γ)^[t'] s₀ := by
      rcases hs with rfl | rfl
      · exact ⟨t, rfl⟩
      · exact ⟨t + 1, (Function.iterate_succ_apply' _ t s₀).symm⟩
    refine .inr ⟨t', n', hshows'.forget fun o => dropped_succ, hprovident', fun o ⟨k, hk, ho⟩ => ?_⟩
    rcases Nat.eq_or_lt_of_le (Nat.le_of_lt_succ hk) with rfl | hk
    · exact hdrops o ho
    · exact hgone o ⟨k, hk, ho⟩

/-- A thread that spares what can be used is careful. -/
theorem careful_of_spares {s₀ : Evaluation ω}
    (hfrugal : ∀ t, ((Evaluation.step Γ)^[t] s₀).Frugal Γ K) (h : ∀ i, m.Spares Γ K s₀ i) :
    m.Careful Γ := by
  intro i
  rcases h i with hover | ⟨t, n, hshows, -, hgone⟩
  · rw [hover.idle.1, hover.idle.2]
    exact ⟨fun o ho => absurd ho List.not_mem_nil, rfl⟩
  unfold uses asksPool
  split
  · rename_i c hreleasing hc
    have hphase : ((Evaluation.step Γ)^[t] s₀).phase = .eval c := by
      cases hshows with
      | running hsound htracks hstage => cases hstage <;> simp_all
      | faulting hm => cases hc.symm.trans hm
      | ended hm => cases hc.symm.trans hm
    refine ⟨fun o ho hgoing => ?_, (hfrugal t).pool c hphase⟩
    obtain ⟨hname, hcell⟩ := hgone o hgoing
    rcases (hfrugal t).uses c hphase o ho with hname' | ⟨k, hk, rfl⟩
    · cases hname'.symm.trans hname
    · exact hcell k hk rfl
  · exact ⟨fun o ho => absurd ho List.not_mem_nil, rfl⟩

/-- The cells of a new thread own what they were given, and nothing else is held but the cell of the
bottom installation. -/
theorem holders_start (settings : SettingsSlot) {cells : List ω} (main : Comp ω)
    (hcells : ∀ x ∈ cells, Contents.owned x = []) (ho : o ≠ .cell 0) :
    (start settings cells [] main).holders (.asset o) = 0 := by
  have hnone : (start settings cells [] main).cells.gather Shared.owned = [] := by
    have hall : ∀ s : Store (Shared ω), s.gather Shared.owned = [] →
        (cells.foldl (fun s content => (s.insert ⟨content, 1⟩).2) s).gather Shared.owned = [] := by
      intro s hs
      induction cells generalizing s with
      | nil => exact hs
      | cons x cells ih =>
        refine ih (fun y hy => hcells y (List.mem_cons_of_mem _ hy)) _ ?_
        simpa [Store.gather, Store.insert, Shared.owned, hcells x List.mem_cons_self] using hs
    exact hall _ rfl
  have hshelved : (start settings cells [] main).shelved.count (.asset o) = 0 := by
    simp only [shelved, List.count_append, hnone]
    simp [start, Chain.initial, Store.gather, Store.ofList, Store.insert, Store.empty,
      Installation.bottom, Installation.owned, Ne.symm ho]
  have hanchors : (start settings cells [] main).anchors.count (.asset o) = 0 := by
    show [Holding.installation _].count (.asset o) = 0
    simp
  simp only [holders, hshelved, hanchors]
  rfl

omit [Contents ω] in
/-- Each cell of a new thread has one share. -/
theorem shares_start (settings : SettingsSlot) (cells : List ω) (statics : List Owned) (main : Comp ω)
    {k : CellId} (hk : 0 < k) (hle : k ≤ cells.length) :
    (start settings cells statics main).shares (.asset (.cell k)) = 1 := by
  obtain ⟨j, rfl⟩ := Nat.exists_eq_add_of_le hk
  have hj : j < cells.length := Nat.lt_of_lt_of_le (by omega : j < 1 + j) hle
  have hfind : (start settings cells statics main).cells.find? (1 + j) =
      some ⟨cells[j], 1⟩ := by
    have hfold : (start settings cells statics main).cells =
        (cells.map fun content => Shared.mk content 1).foldl (fun s x => (s.insert x).2)
          { next := 1 } := by rw [List.foldl_map]; rfl
    rw [hfold, Store.find?_insertAll (by simp [Store.WellFormed])]
    simp [hj]
  exact Store.sharesOf_eq hfind

section Frugal

variable {settings : SettingsSlot} {cells : List ω} {main : Comp ω}

/-- A thread that shows a frugal evaluation spares what can be used. -/
theorem spares_of_frugal (hΓ : Γ.Orderly) (hmain : main.Orderly)
    (hsize : settings.use.1.stackSize < StackPool.addressSpace)
    (hnodup : K.Nodup) (hK : ∀ k ∈ K, 0 < k ∧ k ≤ cells.length)
    (hcells : ∀ x ∈ cells, Contents.owned x = [])
    (hfrugal : ∀ t, ((Evaluation.step Γ)^[t] (Evaluation.start cells main)).Frugal Γ K) (i : Nat) :
    (start settings cells [] main).Spares Γ K (Evaluation.start cells main) i := by
  have hzero : 0 ∉ K := fun hmem => Nat.lt_irrefl 0 (hK 0 hmem).1
  have hheld := fun (o : Owned) => holders_start (o := o) settings main hcells
  refine Spares.run (.inr ⟨0, 1, shows_start cells [] hmain hsize, ?_,
    fun o ⟨k, hk, _⟩ => absurd hk (Nat.not_lt_zero k)⟩) hΓ (tidy_start _ _ _ _) hzero hnodup hfrugal i
  exact
    { counts := counts_start settings cells [] main
      bound := ⟨[], .inl fun o ho => absurd ho List.not_mem_nil, fun o ho => by cases o <;> cases ho⟩
      fresh := fun o ho _ => hheld o (by rintro rfl; cases ho)
      cells := fun k hk => by
        have hshares := shares_start settings cells [] main (hK k hk).1 (hK k hk).2
        have hnone := hheld (.cell k) (by rintro ⟨⟩; exact hzero hk)
        show 0 < (start settings cells [] main).spare (.asset (.cell k))
        simp only [spare, hshares, hnone]
        omega }

/-- A careful thread ends once the evaluation has returned that it shows. Nothing is left to be released
then, and the cells that were not dropped have the contents that they have in the evaluation. -/
theorem ends_of_careful (hΓ : Γ.Orderly) (hmain : main.Orderly)
    (hsize : settings.use.1.stackSize < StackPool.addressSpace)
    (hcareful : (start settings cells [] main).Careful Γ) {v : Value}
    (hkept : ∀ q, ((start settings cells [] main).run Γ q).AtEnd v →
      ∀ k ∈ K, ¬ (start settings cells [] main).Dropped Γ q (.cell k)) {t : Nat}
    (hphase : ((Evaluation.step Γ)^[t] (Evaluation.start cells main)).phase = .ret v)
    (hframes : ((Evaluation.step Γ)^[t] (Evaluation.start cells main)).frames = []) :
    ∃ n, ((start settings cells [] main).run Γ n).control = .halted (.finished v) ∧
      ((start settings cells [] main).run Γ n).releasing = [] ∧
        ∀ k ∈ K, ((start settings cells [] main).run Γ n).contents k =
          ((Evaluation.step Γ)^[t] (Evaluation.start cells main)).cells.find? k := by
  obtain ⟨clock, hpace, hshows⟩ := exists_pace_shows hΓ hmain hsize hcareful
  obtain ⟨n, hn⟩ := hpace.reaches (t + 1)
  have hended : (run Γ n (start settings cells [] main)).ending = some (.ok v) := by
    obtain ⟨d, hd⟩ := hshows n
    have hsame := congrArg Prod.snd (Simulates.observed hd)
    refine hsame.trans ?_
    rw [hn, Function.iterate_succ_apply']
    simp only [Evaluation.observed, Evaluation.ending, Evaluation.step_of_returns hphase hframes]
  obtain ⟨q, -, hatEnd, hlast, hphase', hframes', l, -, htracks⟩ :=
    exists_ends hpace hshows (by simp [start]) hended
  obtain rfl := Evaluation.returns_once hphase' hframes' hphase hframes
  refine ⟨n, by rw [hlast]; rfl, by rw [hlast]; exact hatEnd.releasing, fun k hk => ?_⟩
  rw [hlast]
  rcases htracks.cells.find? (hkept q hatEnd k hk) with ⟨hm, hs⟩ | ⟨y, x, hm, hs, rfl⟩
  · simp [contents, goOn, hm, hs]
  · simp [contents, goOn, hm, hs]

/-- A thread that shows a frugal evaluation ends once the evaluation has returned. Nothing is left to
be released then, and the cells that are kept have the contents that they have in the evaluation. -/
theorem ends_of_frugal (hΓ : Γ.Orderly) (hmain : main.Orderly)
    (hsize : settings.use.1.stackSize < StackPool.addressSpace)
    (hnodup : K.Nodup) (hK : ∀ k ∈ K, 0 < k ∧ k ≤ cells.length)
    (hcells : ∀ x ∈ cells, Contents.owned x = [])
    (hfrugal : ∀ t, ((Evaluation.step Γ)^[t] (Evaluation.start cells main)).Frugal Γ K) {t : Nat}
    {v : Value} (hphase : ((Evaluation.step Γ)^[t] (Evaluation.start cells main)).phase = .ret v)
    (hframes : ((Evaluation.step Γ)^[t] (Evaluation.start cells main)).frames = []) :
    ∃ n, ((start settings cells [] main).run Γ n).control = .halted (.finished v) ∧
      ((start settings cells [] main).run Γ n).releasing = [] ∧
        ∀ k ∈ K, ((start settings cells [] main).run Γ n).contents k =
          ((Evaluation.step Γ)^[t] (Evaluation.start cells main)).cells.find? k := by
  have hspares : ∀ i, (start settings cells [] main).Spares Γ K (Evaluation.start cells main) i :=
    spares_of_frugal hΓ hmain hsize hnodup hK hcells hfrugal
  refine ends_of_careful hΓ hmain hsize (careful_of_spares hfrugal hspares)
    (fun q hatEnd k hk => ?_) hphase hframes
  rcases hspares q with hover | ⟨_, _, -, -, hgone⟩
  · rcases hover with ⟨f, hf⟩ | ⟨o, ho⟩
    · cases hatEnd.control.symm.trans hf
    · cases hatEnd.control.symm.trans ho
  · exact fun hdropped => (hgone _ hdropped).2 k hk rfl

end Frugal

end Runs

end Machine

end EffectHandlers
