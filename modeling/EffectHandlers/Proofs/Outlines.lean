import EffectHandlers.Proofs.Asides
import EffectHandlers.Proofs.Discarding
/-!
# Outlines of threads

What decides how the code of a thread goes on is its outline: what its tables hold, its fibers, and
what is running. The numbers that are handed out next, the counters and the journal are left out.
What an outline leads to is said of all threads that have it.
-/

namespace EffectHandlers

/-- What decides how the code of a thread goes on. -/
structure Outline (ω : Type) where
  installations : List (InstallationId × Installation)
  top : InstallationId
  parked : List (FiberId × List (Activation ω))
  current : Option FiberId
  resumers : List (Resumer (List (Activation ω)))
  cells : Store (Shared ω)
  closures : List (ClosureId × Closure ω)
  references : List (ReferenceId × InstallationId)
  exchanges : List (ExchangeId × Exchange)
  resumptions : List (ResumptionId × Cont ω)
  pending : Option (Cont ω)
  releasing : List Holding
  stack : List (Activation ω)
  control : Control ω

/-- What else belongs to the state of a thread. -/
structure Sundries where
  nextInstallation : InstallationId
  nextLabel : Int
  nextParked : FiberId
  nextClosure : ClosureId
  nextReference : ReferenceId
  nextExchange : ExchangeId
  nextResumption : ResumptionId
  declared : List String
  pool : StackPool
  counters : Tally
  journal : List Event
  errors : List String
  statics : List Owned

variable {ω : Type} {Γ : Library ω} {m : Machine ω} {s t : Outline ω}

namespace Machine

/-- The outline of a thread. -/
def outline (m : Machine ω) : Outline ω where
  installations := m.chain.installations.entries
  top := m.chain.top
  parked := m.fibers.parked.entries
  current := m.fibers.current
  resumers := m.fibers.resumers
  cells := m.cells
  closures := m.closures.entries
  references := m.references.entries
  exchanges := m.exchanges.entries
  resumptions := m.resumptions.entries
  pending := m.pending
  releasing := m.releasing
  stack := m.stack
  control := m.control

/-- All numbers in use have been handed out, each once. -/
structure Numbered (m : Machine ω) : Prop where
  tidy : m.Tidy
  cells : m.cells.WellFormed
  positive : 0 < m.chain.installations.next

/-- A new thread has numbered what it has. -/
theorem numbered_start (settings : SettingsSlot) (cells : List ω) (statics : List Owned)
    (main : Comp ω) : (start settings cells statics main).Numbered where
  tidy := tidy_start settings cells statics main
  cells := cells_start settings cells statics main
  positive := Nat.one_pos

variable [Contents ω]

theorem Numbered.run (h : m.Numbered) (n : Nat) : (run Γ n m).Numbered where
  tidy := h.tidy.run n
  cells := (run_ages n m).cells.wellFormed h.cells
  positive := Nat.lt_of_lt_of_le h.positive (run_ages n m).chain.installations.next

omit [Contents ω] in
/-- The thread may turn to something else. -/
theorem Numbered.goOn (h : m.Numbered) (c : Comp ω) : (m.goOn (.eval c)).Numbered where
  tidy :=
    { accounts := h.tidy.accounts.fades { Accounts.Fades.refl _ with
        armed := by
          show (m.pending.toList ++ []).Sublist (m.pending.toList ++ m.control.conts)
          exact (List.nil_sublist _).append_left _ }
      request := fun r hr => by cases hr }
  cells := h.cells
  positive := h.positive

theorem Numbered.step (h : m.Numbered) : (m.step Γ).Numbered := by
  have hrun := h.run (Γ := Γ) 1
  rwa [run_succ] at hrun

end Machine

namespace Outline

/-- A thread with this outline. -/
def machine (s : Outline ω) (y : Sundries) : Machine ω where
  chain := ⟨⟨y.nextInstallation, s.installations⟩, s.top, y.nextLabel⟩
  fibers := ⟨⟨y.nextParked, s.parked⟩, s.current, s.resumers⟩
  cells := s.cells
  closures := ⟨y.nextClosure, s.closures⟩
  references := ⟨y.nextReference, s.references⟩
  exchanges := ⟨y.nextExchange, s.exchanges⟩
  resumptions := ⟨y.nextResumption, s.resumptions⟩
  pending := s.pending
  declared := y.declared
  pool := y.pool
  counters := y.counters
  journal := y.journal
  errors := y.errors
  stack := s.stack
  statics := y.statics
  releasing := s.releasing
  control := s.control

theorem exists_machine (h : m.outline = s) : ∃ y, m = s.machine y := by
  subst h
  exact ⟨⟨m.chain.installations.next, m.chain.nextLabel, m.fibers.parked.next, m.closures.next,
    m.references.next, m.exchanges.next, m.resumptions.next, m.declared, m.pool, m.counters,
    m.journal, m.errors, m.statics⟩, rfl⟩

/-- The outline in which this code runs, while this is to be released first. -/
def on (s : Outline ω) (stack : List (Activation ω)) (control : Control ω)
    (releasing : List Holding := []) : Outline ω := { s with stack, control, releasing }

/-- The outline with these cells. -/
def storing (s : Outline ω) (cells : Store (Shared ω)) : Outline ω := { s with cells }

variable [Contents ω] {P Q : Outline ω → Prop}

/-- Every thread with this outline comes to have one of these outlines, some steps later. -/
def Gets (Γ : Library ω) (s : Outline ω) (Q : Outline ω → Prop) : Prop :=
  ∀ m : Machine ω, m.Numbered → m.outline = s → ∃ n, 0 < n ∧ Q (Machine.run Γ n m).outline

namespace Gets

theorem of_step (h : ∀ y, (s.machine y).Numbered → Q ((s.machine y).step Γ).outline) :
    s.Gets Γ Q := by
  intro m hm hs
  obtain ⟨y, rfl⟩ := exists_machine hs
  refine ⟨1, Nat.one_pos, ?_⟩
  rw [Machine.run_succ]
  exact h y hm

theorem trans (h : s.Gets Γ P) (h' : ∀ s', P s' → s'.cells.WellFormed → s'.Gets Γ Q) :
    s.Gets Γ Q := by
  intro m hm hs
  obtain ⟨n, hn, hP⟩ := h m hm hs
  have hm' := hm.run (Γ := Γ) n
  obtain ⟨n', hn', hQ⟩ := h' _ hP hm'.cells _ hm' rfl
  rw [← Machine.run_add] at hQ
  exact ⟨n + n', Nat.add_pos_left hn n', hQ⟩

/-- The cells are always numbered. -/
theorem of_wellFormed (h : s.cells.WellFormed → s.Gets Γ Q) : s.Gets Γ Q := by
  intro m hm hs
  subst hs
  exact h hm.cells m hm rfl

/-- One step, and what the outline then leads to. -/
theorem next (h : ∀ y, (s.machine y).Numbered → ((s.machine y).step Γ).outline = t)
    (h' : t.Gets Γ Q) : s.Gets Γ Q :=
  (of_step (Q := fun u => u = t) h).trans fun _ heq _ => heq ▸ h'

/-- A known outline on the way. -/
theorem via (h : s.Gets Γ fun u => u = t) (h' : t.Gets Γ Q) : s.Gets Γ Q :=
  h.trans fun _ heq _ => heq ▸ h'

/-- The last step. -/
theorem last (h : ∀ y, (s.machine y).Numbered → ((s.machine y).step Γ).outline = t)
    (h' : t.cells.WellFormed → Q t) : s.Gets Γ Q := by
  refine of_step fun y hy => ?_
  have hcells : ((s.machine y).step Γ).outline.cells.WellFormed := (hy.step (Γ := Γ)).cells
  rw [h y hy] at hcells ⊢
  exact h' hcells

theorem mono (h : s.Gets Γ P) (h' : ∀ s', P s' → s'.cells.WellFormed → Q s') : s.Gets Γ Q := by
  intro m hm hs
  obtain ⟨n, hn, hP⟩ := h m hm hs
  exact ⟨n, hn, h' _ hP (hm.run (Γ := Γ) n).cells⟩

variable {S : List (Activation ω)} {c : Control ω} {hs : List Holding} {v : Value}

/-! ### What code does -/

theorem done (h : (s.on S (.ret v)).Gets Γ Q) : (s.on S (.eval (.done v))).Gets Γ Q :=
  .next (fun _ _ => rfl) h

theorem bind {next : Value → Comp ω} (h : (s.on S (.eval (next v))).Gets Γ Q) :
    (s.on (.bind next :: S) (.ret v)).Gets Γ Q :=
  .next (fun _ _ => rfl) h

theorem owning {os : List Owned} (h : (s.on S (.ret v) (os.map .asset)).Gets Γ Q) :
    (s.on (.owning os :: S) (.ret v)).Gets Γ Q := by
  refine .next (fun y _ => ?_) h
  simp [Machine.step, Machine.give, machine, on, Machine.outline, Machine.discard, Machine.release]

/-- What is written to the journal. -/
theorem record {e : Event} {next : Comp ω} (h : (s.on S (.eval next)).Gets Γ Q) :
    (s.on S (.eval (.record e next))).Gets Γ Q :=
  .next (fun _ _ => rfl) h

/-- Another share of a cell. -/
theorem retains {x : CellId} {next : Comp ω}
    (h : ((s.storing (s.cells.modify x fun y => { y with shares := y.shares + 1 })).on S
      (.eval next)).Gets Γ Q) : (s.on S (.eval (.retain (.cell x) next))).Gets Γ Q :=
  .next (fun _ _ => rfl) h

/-- The continuation of the newest resumption moves to a later one. -/
theorem takes {r : ResumptionId} {k : Cont ω} {rest : List (ResumptionId × Cont ω)}
    {next : ResumptionId → Comp ω} (hr : s.resumptions = (r, k) :: rest) :
    (s.on S (.eval (.take r next))).Gets Γ fun s' => ∃ r', r < r' ∧
      s' = { s with resumptions := (r', k) :: rest }.on S (.eval (next r')) := by
  refine .of_step fun y hy => ⟨y.nextResumption, ?_, ?_⟩
  · exact hy.tidy.accounts.resumptions.2 (r, k) (by
      show (r, k) ∈ s.resumptions
      rw [hr]
      exact List.mem_cons_self)
  · simp [Machine.step, Machine.eval, machine, on, Store.find?, hr, Store.erase, Store.insert,
      Machine.outline, Machine.goOn]

/-- A new closure. -/
theorem closes {os : List Owned} {body : Value → Comp ω} {next : ClosureId → Comp ω} :
    (s.on S (.eval (.closure os body next))).Gets Γ fun s' => ∃ f,
      s' = { s with closures := (f, ⟨os, body⟩) :: s.closures }.on S (.eval (next f)) :=
  .of_step fun y _ => ⟨y.nextClosure, rfl⟩

/-- The newest closure is called. -/
theorem apply {f : ClosureId} {x : Closure ω} {rest : List (ClosureId × Closure ω)}
    {arg : Value} {next : Value → Comp ω} (hf : s.closures = (f, x) :: rest)
    (h : ({ s with closures := rest }.on (.bind next :: S) (.eval (x.body arg))).Gets Γ Q) :
    (s.on S (.eval (.apply f arg next))).Gets Γ Q := by
  refine .next (fun y _ => ?_) h
  simp [Machine.step, Machine.eval, Machine.applyClosure, Machine.push, machine, on, Store.find?,
    hf, Store.erase, Machine.outline, Machine.goOn]

/-- A clause that keeps its installation ends. -/
theorem clause {i : InstallationId} {answer : String}
    (h : (s.on S (.settle answer v) [.installation i]).Gets Γ Q) :
    (s.on (.clause (some i) answer :: S) (.ret v)).Gets Γ Q :=
  .next (fun _ _ => rfl) h

theorem delivered (h : (s.on S (.ret v)).Gets Γ Q) :
    (s.on (.stepping :: S) (.deliver (.done v))).Gets Γ Q :=
  .next (fun _ _ => rfl) h

/-- An answer for which no tail resume waits. -/
theorem settle {answer : String} (hpending : s.pending = none)
    (h : (s.on S (.deliver (.done v))).Gets Γ Q) : (s.on S (.settle answer v)).Gets Γ Q := by
  refine .next (fun y _ => ?_) h
  simp [Machine.step, Machine.settle, machine, on, Machine.outline, hpending, Machine.release,
    Machine.goOn]

/-- A return clause ends, and no tail resume waits. -/
theorem returning {i : InstallationId} {answer : String} (hpending : s.pending = none)
    (h : (s.on S (.deliver (.done v)) [.installation i, .installation i]).Gets Γ Q) :
    (s.on (.returning i answer :: S) (.ret v)).Gets Γ Q := by
  refine .next (fun y _ => ?_) h
  simp [Machine.step, Machine.give, Machine.settle, machine, on, Machine.outline, hpending,
    Machine.release, Machine.goOn]

/-- A panic leaves code that does not catch it. -/
theorem unwinds {a : Activation ω} {message : String} (ha : ∀ next, a ≠ .catching next)
    (h : (s.on S (.unwind message) a.owned).Gets Γ Q) :
    (s.on (a :: S) (.unwind message)).Gets Γ Q := by
  refine .next (fun y _ => ?_) h
  cases a with
  | catching next => exact absurd rfl (ha next)
  | _ => simp [Machine.step, Machine.unwind, machine, on, Machine.outline, Machine.release]

/-! ### What is released -/

/-- A resumption that is used up. -/
theorem spent {r : ResumptionId} (hr : r ∉ s.resumptions.map (·.1)) (h : (s.on S c hs).Gets Γ Q) :
    (s.on S c (.asset (.resumption r) :: hs)).Gets Γ Q := by
  have hnone : s.resumptions.lookup r = none := Store.lookup_of_notMem hr
  refine .next (fun y _ => ?_) h
  simp [Machine.step, Machine.releaseOne, Machine.releaseAsset, machine, on, Store.find?, hnone,
    Machine.outline]

/-- One share of the newest installation, which has others. -/
theorem share {i : InstallationId} {a : Installation} {rest : List (InstallationId × Installation)}
    (hi : s.installations = (i, a) :: rest) (hshares : 1 < a.shares)
    (h : ({ s with installations := (i, { a with shares := a.shares - 1 }) :: rest }.on S c hs).Gets
      Γ Q) : (s.on S c (.installation i :: hs)).Gets Γ Q := by
  refine .next (fun y _ => ?_) h
  simp [Machine.step, Machine.releaseOne, Machine.releaseInstallation, machine, on, Store.find?, hi,
    Nat.not_le.mpr hshares, Chain.modify, Store.modify, Store.modifyEntries, Machine.outline]

/-- The last share of the newest installation, which is in nobody's way. -/
theorem lastShare {i : InstallationId} {a : Installation}
    {rest : List (InstallationId × Installation)} (hi : s.installations = (i, a) :: rest)
    (hshares : a.shares ≤ 1) (hbelow : a.below = none)
    (h : ({ s with installations := rest }.on S c (.asset (.cell a.handler) :: hs)).Gets Γ Q) :
    (s.on S c (.installation i :: hs)).Gets Γ Q := by
  refine .next (fun y _ => ?_) h
  simp [Machine.step, Machine.releaseOne, Machine.releaseInstallation, machine, on, Store.find?, hi,
    hshares, hbelow, Store.erase, Machine.outline, Machine.release]

/-- The newest exchange, which is empty. -/
theorem exchange {e : ExchangeId} {rest : List (ExchangeId × Exchange)}
    (he : s.exchanges = (e, { command := none }) :: rest)
    (h : ({ s with exchanges := rest }.on S c hs).Gets Γ Q) :
    (s.on S c (.exchange e :: hs)).Gets Γ Q := by
  refine .next (fun y _ => ?_) h
  simp [Machine.step, Machine.releaseOne, machine, on, Store.find?, he, Store.erase,
    Machine.outline, Machine.release, Machine.discard]

/-- The newest reference. -/
theorem reference {this : ReferenceId} {i : InstallationId}
    {rest : List (ReferenceId × InstallationId)} (hthis : s.references = (this, i) :: rest)
    (h : ({ s with references := rest }.on S c (.installation i :: hs)).Gets Γ Q) :
    (s.on S c (.asset (.reference this) :: hs)).Gets Γ Q := by
  refine .next (fun y _ => ?_) h
  simp [Machine.step, Machine.releaseOne, Machine.releaseAsset, machine, on, Store.find?, hthis,
    Store.erase, Machine.outline, Machine.release]

/-- The newest fiber: what its code owns is released in turn. -/
theorem fiber {f : FiberId} {U : List (Activation ω)} {rest : List (FiberId × List (Activation ω))}
    (hf : s.parked = (f, U) :: rest)
    (h : ({ s with parked := rest }.on S c (U.flatMap Activation.owned ++ hs)).Gets Γ Q) :
    (s.on S c (.fiber f :: hs)).Gets Γ Q := by
  refine .next (fun y _ => ?_) h
  simp [Machine.step, Machine.releaseOne, Fibers.drop?, machine, on, Store.find?, hf, Store.erase,
    Machine.outline, Machine.release]

/-- A fiber that is not parked. -/
theorem noFiber {f : FiberId} (hf : f ∉ s.parked.map (·.1)) (h : (s.on S c hs).Gets Γ Q) :
    (s.on S c (.fiber f :: hs)).Gets Γ Q := by
  have hnone : s.parked.lookup f = none := Store.lookup_of_notMem hf
  refine .next (fun y _ => ?_) h
  simp [Machine.step, Machine.releaseOne, Fibers.drop?, machine, on, Store.find?, hnone,
    Machine.outline]

/-- The newest resumption: its continuation is discarded. -/
theorem resumption {r : ResumptionId} {k : Cont ω} {rest : List (ResumptionId × Cont ω)}
    (hr : s.resumptions = (r, k) :: rest)
    (h : ({ s with resumptions := rest }.on S c (k.owned ++ hs)).Gets Γ Q) :
    (s.on S c (.asset (.resumption r) :: hs)).Gets Γ Q := by
  refine .next (fun y _ => ?_) h
  simp [Machine.step, Machine.releaseOne, Machine.releaseAsset, machine, on, Store.find?, hr,
    Store.erase, Machine.outline, Machine.release, Machine.bump, Machine.trace, Machine.record]

/-- The only share of a cell whose content owns nothing. -/
theorem cell {x : CellId} {y : Shared ω} (hx : s.cells.find? x = some y) (hshares : y.shares ≤ 1)
    (howned : Contents.owned y.content = [])
    (h : ((s.storing (s.cells.erase x)).on S c hs).Gets Γ Q) :
    (s.on S c (.asset (.cell x) :: hs)).Gets Γ Q := by
  refine .next (fun y _ => ?_) h
  simp [Machine.step, Machine.releaseOne, Machine.releaseAsset, Machine.releaseCell, machine, on,
    storing, hx, hshares, howned, Machine.outline, Machine.release, Machine.discard]

/-- One share of a cell that has others. -/
theorem cellShare {x : CellId} {y : Shared ω} (hx : s.cells.find? x = some y)
    (hshares : 1 < y.shares)
    (h : ((s.storing (s.cells.modify x fun y => { y with shares := y.shares - 1 })).on S c
      hs).Gets Γ Q) : (s.on S c (.asset (.cell x) :: hs)).Gets Γ Q := by
  refine .next (fun y _ => ?_) h
  simp [Machine.step, Machine.releaseOne, Machine.releaseAsset, Machine.releaseCell, machine, on,
    storing, hx, Nat.not_le.mpr hshares, Machine.outline]

/-- A cell that is gone. -/
theorem noCell {x : CellId} (hx : s.cells.find? x = none) (h : (s.on S c hs).Gets Γ Q) :
    (s.on S c (.asset (.cell x) :: hs)).Gets Γ Q := by
  refine .next (fun y _ => ?_) h
  simp [Machine.step, Machine.releaseOne, Machine.releaseAsset, Machine.releaseCell, machine, on,
    hx, Machine.outline]

end Gets

end Outline

end EffectHandlers
