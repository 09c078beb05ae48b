import EffectHandlers.Proofs.Outset
import EffectHandlers.Proofs.Repertoire
import EffectHandlers.Proofs.Schedules
/-!
# Demonstrations alone and after each other

## A demonstration alone

A process that presents one demonstration can be compared with any thread that runs the same
demonstration. What is known of one such thread where the demonstration has ended is true of the process:
nothing is on the chain, and nothing is in a queue.
-/

namespace EffectHandlers

open CommandLine (ending)

/-- A process that presents demonstrations. -/
def process (settings : SettingsSlot) (ds : List Demo) (diagnostics : Bool) : Machine Content :=
  Machine.start settings Client.cells [] (CommandLine.code ds diagnostics)

namespace Rerun

/-- What the rest of a demonstration is related to that is presented and then followed by other code. -/
def follows (k : Unit → Comp Content) (f : Option (String × String) → Comp Content)
    (c c' : Comp Content) : Prop := ∃ v, c = ending k v ∧ c' = f v

theorem mapsCode_body {σ : Rerun} {d : Demo} (h : σ.Plays d) (k : Unit → Comp Content)
    (f : Option (String × String) → Comp Content) :
    σ.MapsCode (follows k f) .outer (d.body (ending k)) (d.body f) :=
  mapsProg_body h .outer _ _ fun v _ hv => .last ⟨v, rfl, congrArg f hv.symm⟩

theorem plays_outset (d : Demo) (m m' : Machine Content) : (outset d m m').Plays d := ⟨rfl, rfl, rfl⟩

end Rerun

namespace Demo

variable (d : Demo) (settings : SettingsSlot) (diagnostics : Bool)

/-- What comes after the only demonstration of a process. -/
def last (diagnostics : Bool) (_ : Unit) : Comp Content := CommandLine.code [] diagnostics

/-- Where the body of the only demonstration of a process begins. -/
def onset : Machine Content :=
  ((process settings [d] diagnostics).begun d).goOn (.eval (d.body (ending (last diagnostics))))

theorem exists_run_onset : ∃ n, (process settings [d] diagnostics).run Client.library n =
    d.onset settings diagnostics := Machine.exists_run_begun ⟨rfl, rfl⟩ rfl

theorem fresh_onset : (d.onset settings diagnostics).Fresh :=
  ((Machine.fresh_start settings _).begun d).goOn _

theorem has_onset : (d.onset settings diagnostics).Has d.cells :=
  (((Machine.fresh_start settings _).toRested.record _).put (.inl ⟨rfl, rfl⟩)).has_seeded d

variable {d settings diagnostics} {N : Nat}

theorem ordinary_onset (n : Nat) :
    ((d.onset settings diagnostics).run Client.library n).Ordinary := by
  obtain ⟨k, hk⟩ := d.exists_run_onset settings diagnostics
  rw [← hk, ← Machine.run_add]
  exact Machine.ordinary_run ..

/-- The end of the process comes after the onset. -/
theorem run_onset (h : ((process settings [d] diagnostics).run Client.library N).Finished) :
    (d.onset settings diagnostics).run Client.library N =
      (process settings [d] diagnostics).run Client.library N := by
  obtain ⟨k, hk⟩ := d.exists_run_onset settings diagnostics
  obtain ⟨⟨v, hv⟩, hreleasing⟩ := h
  rw [← hk, ← Machine.run_add, Nat.add_comm, Machine.run_add, Machine.run_halted hv hreleasing]

variable (h : ((d.onset settings diagnostics).run Client.library N).Finished)

include h

/-- A process that comes to its end comes to the end of its demonstration, where another thread is that
begins with the same code. -/
theorem exists_atRest {m' : Machine Content} {Γ' : Library Content} {c' : Comp Content}
    {rest : Comp Content → Comp Content → Prop} (hm' : m'.Rested) (hhas : m'.Has d.cells)
    (hc' : m'.control = .eval c') (hordinary : ∀ n, (m'.run Γ' n).Ordinary)
    (hpool : StackPool.Suffices m'.pool.settings.use.1 (d.onset settings diagnostics).pool m'.pool)
    (hΓ : (Rerun.outset d (d.onset settings diagnostics) m').MapsLibrary rest Client.library Γ')
    (hcode : (Rerun.outset d (d.onset settings diagnostics) m').MapsCode rest .outer
      (d.body (ending (last diagnostics))) c')
    (hword : m'.chain.nextLabel ≠ -1 → ∀ n, retiredLabel ≤ (m'.run Γ' n).chain.nextLabel) :
    ∃ j, (Rerun.outset d (d.onset settings diagnostics) m').AtRest rest
      ((d.onset settings diagnostics).run Client.library j) (m'.run Γ' j) := by
  refine (Rerun.abreast_outset (d.fresh_onset settings diagnostics) hm' (d.has_onset settings
    diagnostics) hhas hpool rfl hc' hcode).exists_atRest ordinary_onset hordinary hΓ
    (fun hlabels => hword fun hfirst => hlabels ?_) ⟨N, h.finished⟩
  show (-1 - m'.chain.nextLabel).toNat = 0
  rw [hfirst]
  rfl

/-- What is the same where the demonstration has ended and where the process ends. -/
theorem ends_onset {j : Nat} {v : Option (String × String)}
    (hj : ((d.onset settings diagnostics).run Client.library j).Evaluates (ending (last diagnostics) v))
    (hstack : ((d.onset settings diagnostics).run Client.library j).stack = [])
    (hresumers : ((d.onset settings diagnostics).run Client.library j).fibers.resumers = []) :
    let m := (d.onset settings diagnostics).run Client.library j
    let m' := (d.onset settings diagnostics).run Client.library N
    m'.chain = m.chain ∧ (∀ k, k ≠ Transcript.cell → m'.contents k = m.contents k) ∧
      m'.texts = CommandLine.outputOf ((m.content Transcript.cell).toText, v) :: m.texts := by
  obtain ⟨n, hends, hsame⟩ := Machine.exists_run_closed (Γ := Client.library) hj hstack hresumers
  rw [← Machine.run_add] at hends hsame
  rw [h.eq hends]
  exact hsame

/-- The demonstration runs once more in a fresh thread of its own, in which there is room for fibers at
any time. -/
theorem exists_atRest_again {Γ' : Library Content} {c' : Comp Content}
    {rest : Comp Content → Comp Content → Prop}
    (hΓ : ∀ σ : Rerun, σ.Plays d → σ.MapsLibrary rest Client.library Γ')
    (hcode : ∀ σ : Rerun, σ.Plays d →
      σ.MapsCode rest .outer (d.body (ending (last diagnostics))) c') :
    ∃ σ : Rerun, σ.Plays d ∧ ∃ j n, σ.AtRest rest ((d.onset settings diagnostics).run Client.library j)
      ((Machine.start {} Client.cells [] (d.seeding c')).run Γ' n) := by
  let start := Machine.start {} Client.cells [] (d.seeding c')
  let twin := (start.seeded d).goOn (.eval c')
  obtain ⟨n, hn⟩ : ∃ n, start.run Γ' n = twin := Machine.exists_run_seeding ⟨rfl, rfl⟩
  have hfresh : start.Fresh := Machine.fresh_start ..
  have htwin : twin.Fresh := (hfresh.seeded d).goOn _
  have hordinary : ∀ k, (twin.run Γ' k).Ordinary := fun k => by
    rw [← hn, ← Machine.run_add]
    exact Machine.ordinary_run ..
  have hpool : twin.pool = { settings := {} } := by cases d <;> rfl
  obtain ⟨j, hj⟩ := exists_atRest h htwin.toRested (hfresh.toRested.has_seeded d) rfl hordinary
    ⟨rfl, .inr (by rw [hpool]; decide)⟩ (hΓ _ (Rerun.plays_outset ..))
    (hcode _ (Rerun.plays_outset ..)) (absurd htwin.firstLabel)
  refine ⟨_, Rerun.plays_outset d (d.onset settings diagnostics) twin, j, n + j, ?_⟩
  rw [Machine.run_add, hn]
  exact hj

/-- Nothing is left on the chain. -/
theorem top_of_ends : ((d.onset settings diagnostics).run Client.library N).chain.top = 0 := by
  obtain ⟨σ, -, j, n, hrest⟩ := exists_atRest_again h
    (fun σ hσ => (Rerun.mapsLibrary_of_serves hσ (Rerun.serves_library d)).calm)
    (fun σ hσ => (Rerun.mapsCode_body hσ (last diagnostics) fun _ => .done .unit).calm)
  obtain ⟨c, c', hc, hc', c₀, ⟨v, rfl, rfl⟩, rfl⟩ := hrest.code
  rw [← calm_seeding] at hrest hc'
  have htop := Machine.top_eq_zero Client.library.calm_orderly (Comp.calm_orderly _) (by decide) hc'
    hrest.resumers.2
  obtain ⟨hchain, -⟩ := ends_onset h ⟨hrest.released.1, hc⟩ hrest.stack.1 hrest.resumers.1
  rw [hchain]
  rcases hrest.tables.chain.top with ⟨hzero, -⟩ | ⟨hpos, hlater⟩
  · exact hzero
  · rw [htop] at hlater
    omega

/-- A queue is empty if it is empty where some thread ends that runs the same demonstration. -/
theorem queue_of_twin {Γ' : Library Content} (hserves : Rerun.Serves Γ' d) {k : CellId}
    (hk : k ∈ d.cells.map (·.1)) (hcell : k ≠ Transcript.cell) {n : Nat}
    (hends : ((Machine.start {} Client.cells [] (d.program fun _ => .done .unit)).run Γ' n).Finished)
    (hempty : ((Machine.start {} Client.cells [] (d.program fun _ => .done .unit)).run Γ' n).contents k =
      some (.list [])) :
    ((d.onset settings diagnostics).run Client.library N).contents k = some (.list []) := by
  obtain ⟨σ, hσ, j, i, hrest⟩ := exists_atRest_again h
    (fun σ hσ => Rerun.mapsLibrary_of_serves hσ hserves)
    (fun σ hσ => Rerun.mapsCode_body hσ (last diagnostics) fun _ => .done .unit)
  rw [← program_eq] at hrest
  obtain ⟨c, c', hc, hc', v, rfl, rfl⟩ := hrest.code
  -- the other thread ends right there
  have hdone := Machine.run_done (Γ := Γ') ⟨hrest.released.2, hc'⟩ hrest.stack.2 hrest.resumers.2
  rw [← Machine.run_add] at hdone
  have hlast : ((Machine.start {} Client.cells [] (d.program fun _ => .done .unit)).run Γ'
      (i + 2)).Finished := by
    rw [hdone]
    exact ⟨⟨_, rfl⟩, hrest.released.2⟩
  rw [hends.eq hlast, hdone] at hempty
  obtain ⟨-, -, x, x', hx, hx', hmaps⟩ := hrest.tables.kept k (hσ.kept ▸ hk)
  obtain rfl : x' = .list [] := Option.some.inj (hx'.symm.trans hempty)
  obtain ⟨-, hcontents, -⟩ := ends_onset h ⟨hrest.released.1, hc⟩ hrest.stack.1 hrest.resumers.1
  rw [hcontents k hcell, hx]
  cases hmaps with
  | list hvs =>
    cases hvs
    rfl

/-- The queues that a demonstration uses are empty. -/
theorem queue_of_ends {k : CellId} (hk : (k, .list []) ∈ d.cells) :
    ((d.onset settings diagnostics).run Client.library N).contents k = some (.list []) := by
  have hkept := List.mem_map_of_mem (f := Prod.fst) hk
  cases d with
  | threads workers steps =>
    simp only [Demo.cells, List.mem_cons, Prod.mk.injEq, reduceCtorEq, and_false, and_true, false_or,
      List.not_mem_nil, or_false] at hk
    subst hk
    have hsize : ({} : SettingsSlot).use.1.stackSize < StackPool.addressSpace := by decide
    obtain ⟨n, t, ht, hcontrol, hreleasing, hcontents⟩ :=
      RoundRobin.exists_ends_program RoundRobin.library_orderly rfl hsize workers steps
    exact queue_of_twin h (Rerun.serves_threads workers steps) hkept (by decide)
      ⟨⟨_, hcontrol⟩, hreleasing⟩ ((hcontents _ (by decide)).trans ht.queue)
  | asyncAwait seed =>
    simp only [Demo.cells, List.mem_cons, Prod.mk.injEq, reduceCtorEq, and_false, and_true, false_or,
      List.not_mem_nil, or_false] at hk
    subst hk
    have hsize : ({} : SettingsSlot).use.1.stackSize < StackPool.addressSpace := by decide
    obtain ⟨n, t, ht, hcontrol, hreleasing, hcontents⟩ :=
      Promise.exists_ends_demo Promise.library_orderly rfl rfl hsize seed
    exact queue_of_twin h (Rerun.serves_asyncAwait seed) hkept (by decide)
      ⟨⟨_, hcontrol⟩, hreleasing⟩ ((hcontents _ (by decide)).trans ht.queue)
  | _ => simp [Demo.cells] at hk

end Demo

end EffectHandlers

/-!
## Demonstrations do not depend on each other

Whatever a process has presented before, a demonstration writes what it writes alone, and leaves nothing
behind: nothing is on the chain, no tail resume waits, the queues are empty, and the transcript is as it
was. So a process writes what its demonstrations write one by one.
-/

namespace EffectHandlers

open CommandLine (ending)

/-- Alone or after others, a process comes to its end, and this is what is on standard output then. -/
def Writes (settings : SettingsSlot) (diagnostics : Bool) (ds : List Demo) (text : String) : Prop :=
  ∃ n, ((process settings ds diagnostics).run Client.library n).Finished ∧
    (CommandLine.Result.ofMachine
      ((process settings ds diagnostics).run Client.library n)).stdout = text

/-- A process is about to present what is left of its demonstrations, with nothing else under way. -/
structure Between (m : Machine Content) (ds : List Demo) (diagnostics : Bool) : Prop where
  code : m.Evaluates (CommandLine.code ds diagnostics)
  stack : m.stack = []
  resumers : m.fibers.resumers = []
  /-- The chain has its bottom only. -/
  chain : m.chain.toList = [0]
  pending : m.pending = none
  threads : m.contents RoundRobin.queue = some (.list [])
  futures : m.contents Promise.queue = some (.list [])
  transcript : Transcript.Reads m ""

/-! ### Results -/

section Results

variable {m : Machine Content} {c : Chain}

theorem stdout_eq (m : Machine Content) :
    (CommandLine.Result.ofMachine m).stdout = String.join m.texts.reverse := by
  have htranscript : CommandLine.transcript m.journal = String.join m.texts.reverse :=
    congrArg String.join List.filterMap_reverse
  rw [← htranscript]
  unfold CommandLine.Result.ofMachine
  split <;> rfl

/-- Where the bottom is on top, nothing else is on the chain. -/
theorem Chain.toList_of_top (htop : c.top = 0)
    (hbottom : c.installations.find? 0 = some Installation.bottom) (hnext : 1 ≤ c.installations.next) :
    c.toList = [0] := by
  obtain ⟨n, hn⟩ := Nat.exists_eq_add_of_le' hnext
  have hget : c.get 0 = Installation.bottom := by simp [Chain.get, hbottom]
  rw [Chain.toList, htop, hn, Chain.follow, hget]
  rfl

theorem Machine.Rested.between {ds : List Demo} {diagnostics : Bool} (h : m.Rested)
    (hat : m.Evaluates (CommandLine.code ds diagnostics)) : Between m ds diagnostics where
  code := hat
  stack := h.stack
  resumers := h.resumers
  chain := Chain.toList_of_top h.top h.bottom h.installations
  pending := h.pending
  threads := h.threads
  futures := h.futures
  transcript := h.text

end Results

/-! ### One demonstration after others -/

namespace Rerun

theorem MapsContent.toText {σ : Rerun} {x x' : Content} (h : σ.MapsContent x x') :
    x'.toText = x.toText := by
  cases h with
  | value hv => exact hv.toText
  | _ => rfl

variable {σ : Rerun} {d : Demo} {rest : Comp Content → Comp Content → Prop} {m m' : Machine Content}

/-- A cell of the thread as a whole holds the same as in the other thread, if the demonstration uses it,
and what it held before otherwise. -/
theorem AtRest.contents (h : σ.AtRest rest m m') (hσ : σ.Plays d) {m₀ : Machine Content}
    (hothers : σ.others = m₀.cells.find?) {k : CellId} (hk : 0 < k ∧ k < firstCell) :
    (k ∈ d.cells.map (·.1) ∧ ∃ x x', m.contents k = some x ∧ m'.contents k = some x' ∧
      σ.MapsContent x x') ∨ m'.contents k = m₀.contents k := by
  by_cases hkept : k ∈ σ.kept
  · exact .inl ⟨hσ.kept ▸ hkept, (h.tables.kept k hkept).2.2⟩
  · refine .inr ?_
    rw [Machine.contents, h.tables.others k hk.1 hk.2 hkept, hothers]
    rfl

/-- A queue that was empty is empty again. -/
theorem AtRest.queue (h : σ.AtRest rest m m') (hσ : σ.Plays d) {m₀ : Machine Content}
    (hothers : σ.others = m₀.cells.find?) {k : CellId} (hk : 0 < k ∧ k < firstCell)
    (hempty : m₀.contents k = some (.list []))
    (hused : k ∈ d.cells.map (·.1) → m.contents k = some (.list [])) :
    m'.contents k = some (.list []) := by
  rcases h.contents hσ hothers hk with ⟨hkept, x, x', hx, hx', hmaps⟩ | hsame
  · obtain rfl := Option.some.inj (hx.symm.trans (hused hkept))
    rw [hx']
    cases hmaps with
    | list hvs =>
      cases hvs
      rfl
  · rw [hsame, hempty]

/-- Where a demonstration has been concluded, its thread is at rest again. -/
theorem AtRest.rested (h : σ.AtRest rest m m') (hσ : σ.Plays d) (hm' : m'.Ordinary)
    {m₀ : Machine Content} (hm₀ : m₀.Rested) (hothers : σ.others = m₀.cells.find?)
    (htop : m.chain.top = 0)
    (hqueue : ∀ {k}, (k, .list []) ∈ d.cells → m.contents k = some (.list []))
    (x : String × Option (String × String)) (errors : List String) (control : Control Content) :
    ({ m'.concluded x with errors }.goOn control).Rested := by
  have hcell : ∃ y, m'.contents Transcript.cell = some y := by
    rcases h.contents hσ hothers (k := Transcript.cell) (by decide) with ⟨-, -, y, -, hy, -⟩ | hsame
    · exact ⟨y, hy⟩
    · exact ⟨_, hsame.trans hm₀.text⟩
  have hput : ∀ k, k ≠ Transcript.cell →
      ({ m'.concluded x with errors }.goOn control).contents k = m'.contents k := fun k hk =>
    Machine.contents_put_of_ne hk _
  exact
    { filed := { hm'.filed with cells := Store.wellFormed_modify hm'.filed.cells _ _ }
      releasing := h.released.2
      stack := h.stack.2
      resumers := h.resumers.2
      current := by
        have hnamed := hm'.fibers.named
        rw [h.resumers.2] at hnamed
        exact hnamed
      pending := h.pending.2
      top := by
        rcases h.tables.chain.top with ⟨-, hzero⟩ | ⟨hpos, -⟩
        · exact hzero
        · rw [htop] at hpos
          omega
      bottom := h.tables.chain.bottom'
      unissued := by
        have hlabel := h.tables.chain.nextLabel
        have hunissued := h.tables.chain.unissued
        show m'.chain.nextLabel < 0
        omega
      installations := h.tables.chain.installations.later.2 ▸
        Nat.le_add_right_of_le h.tables.chain.installations.start
      references := h.tables.references.later.2 ▸ Nat.le_add_right_of_le h.tables.references.start
      resumptions := h.tables.resumptions.later.2 ▸ Nat.le_add_right_of_le h.tables.resumptions.start
      cells := h.tables.cells.later.2 ▸ Nat.le_add_right_of_le h.tables.cells.start
      noCell := by
        show (m'.cells.modify Transcript.cell _).find? 0 = none
        rw [Store.find?_modify, h.tables.noCell']
        rfl
      text := by
        obtain ⟨y, hy⟩ := hcell
        exact Machine.contents_put_self hy
      threads := (hput _ (by decide)).trans (h.queue hσ hothers (by decide) hm₀.threads fun hk => hqueue
        (by cases d <;> simp_all [Demo.cells, Transcript.cell, RoundRobin.queue, Promise.queue,
          Promise.choices]))
      futures := (hput _ (by decide)).trans (h.queue hσ hothers (by decide) hm₀.futures fun hk => hqueue
        (by cases d <;> simp_all [Demo.cells, Transcript.cell, RoundRobin.queue, Promise.queue,
          Promise.choices]))
      choices := by
        rw [hput _ (by decide)]
        rcases h.contents hσ hothers (k := Promise.choices) (by decide) with ⟨-, -, y, -, hy, -⟩ | hsame
        · exact ⟨y, hy⟩
        · rw [hsame]
          exact hm₀.choices }

/-- What is written out is the same where a demonstration is alone. -/
theorem AtRest.outputOf (h : σ.AtRest rest m m') (hσ : σ.Plays d) (v : Option (String × String)) :
    CommandLine.outputOf ((m'.content Transcript.cell).toText, v) =
      CommandLine.outputOf ((m.content Transcript.cell).toText, v) := by
  have hkept : Transcript.cell ∈ σ.kept := by
    rw [hσ.kept]
    cases d <;> exact List.mem_cons_self
  obtain ⟨-, -, x, x', hx, hx', hmaps⟩ := h.tables.kept _ hkept
  have hcontent : m.content Transcript.cell = x := congrArg (Option.getD · default) hx
  have hcontent' : m'.content Transcript.cell = x' := congrArg (Option.getD · default) hx'
  rw [hcontent, hcontent', hmaps.toText]

end Rerun

namespace Demo

variable {d : Demo} {ds rest : List Demo} {settings : SettingsSlot} {diagnostics : Bool} {N n : Nat}

/-- After others, a demonstration does what it does alone, and then the rest is presented. -/
theorem exists_next (h : ((d.onset settings diagnostics).run Client.library N).Finished)
    (hrested : ((process settings ds diagnostics).run Client.library n).Rested)
    (hat : ((process settings ds diagnostics).run Client.library n).Evaluates
      (CommandLine.code (d :: rest) diagnostics))
    (hword : ∀ n, retiredLabel ≤
      ((process settings ds diagnostics).run Client.library n).chain.nextLabel) :
    ∃ n', ((process settings ds diagnostics).run Client.library n').Rested ∧
      ((process settings ds diagnostics).run Client.library n').Evaluates
        (CommandLine.code rest diagnostics) ∧
      ((process settings ds diagnostics).run Client.library n').texts =
        ((d.onset settings diagnostics).run Client.library N).texts ++
          ((process settings ds diagnostics).run Client.library n).texts := by
  let m := (process settings ds diagnostics).run Client.library n
  let k : Unit → Comp Content := fun _ => CommandLine.code rest diagnostics
  let begin := (m.begun d).goOn (.eval (d.body (ending k)))
  obtain ⟨a, ha⟩ : ∃ a, (process settings ds diagnostics).run Client.library (n + a) = begin := by
    obtain ⟨a, ha⟩ := Machine.exists_run_begun (Γ := Client.library) hat hrested.text
    exact ⟨a, (Machine.run_add n a _).trans ha⟩
  have hrun : ∀ j, begin.run Client.library j =
      (process settings ds diagnostics).run Client.library (n + a + j) := fun j => by
    rw [Machine.run_add, ha]
  have hordinary : ∀ j, (begin.run Client.library j).Ordinary := fun j => by
    rw [hrun]
    exact Machine.ordinary_run ..
  have hbegin : begin.Rested := (hrested.begun d).goOn _
  have hhas : begin.Has d.cells := ((hrested.record _).put (.inl ⟨rfl, rfl⟩)).has_seeded d
  have hpool : StackPool.Suffices begin.pool.settings.use.1 (d.onset settings diagnostics).pool
      begin.pool := by
    have honset : (d.onset settings diagnostics).pool = { settings } := by cases d <;> rfl
    have hsettings : begin.pool.settings.use.1 = settings.use.1 := by
      rw [← ha]
      exact (Machine.run_tidy ..).2
    refine ⟨rfl, .inl ⟨?_, ?_⟩⟩
    · rw [honset, hsettings]
    · rw [honset]
      exact Nat.zero_le _
  -- the demonstration runs beside one that is alone
  obtain ⟨j, hrest⟩ := exists_atRest h hbegin hhas rfl hordinary hpool
    (Rerun.mapsLibrary_of_serves (Rerun.plays_outset ..) (Rerun.serves_library d))
    (Rerun.mapsCode_body (Rerun.plays_outset ..) (last diagnostics) (ending k))
    (fun _ j => by
      rw [hrun]
      exact hword _)
  obtain ⟨c, c', hc, hc', v, rfl, rfl⟩ := hrest.code
  obtain ⟨hchain, hcontents, htexts⟩ := ends_onset h ⟨hrest.released.1, hc⟩ hrest.stack.1
    hrest.resumers.1
  have htop := top_of_ends h
  rw [hchain] at htop
  obtain ⟨b, errors, hb⟩ := Machine.exists_run_concluded (Γ := Client.library)
    (m := begin.run Client.library j) ⟨hrest.released.2, hc'⟩
  have hend : (process settings ds diagnostics).run Client.library (n + a + j + b) =
      { (begin.run Client.library j).concluded
          (((begin.run Client.library j).content Transcript.cell).toText, v) with errors }.goOn
        (.eval (k ())) := by
    rw [Machine.run_add, ← hrun, hb]
  refine ⟨n + a + j + b, ?_, ?_, ?_⟩
  · rw [hend]
    refine hrest.rested (Rerun.plays_outset ..) (hordinary j) hbegin rfl htop (fun {i} hi => ?_) _ _ _
    rw [← hcontents i fun hcell => ?_]
    · exact queue_of_ends h hi
    · subst hcell
      cases d <;> simp [Demo.cells, Transcript.cell, RoundRobin.queue, Promise.queue] at hi
  · rw [hend]
    exact ⟨hrest.released.2, rfl⟩
  · obtain ⟨ts, hts, hts'⟩ := hrest.tables.texts
    rw [hend, htexts, hts, ← hrest.outputOf (Rerun.plays_outset ..)]
    show _ :: (begin.run Client.library j).texts = _
    have hbegun : (Rerun.outset d (d.onset settings diagnostics) begin).texts =
        CommandLine.heading d :: m.texts := by
      show (m.begun d).texts = _
      cases d <;> rfl
    have halone : (Rerun.outset d (d.onset settings diagnostics) begin).told =
        [CommandLine.heading d] := by
      show ((process settings [d] diagnostics).begun d).texts = _
      cases d <;> rfl
    rw [hts', hbegun, halone]
    simp [m]

/-- What is on standard output where a demonstration has been presented alone. -/
theorem exists_onset_of_writes {text : String} (h : Writes settings diagnostics [d] text) :
    ∃ N, ((d.onset settings diagnostics).run Client.library N).Finished ∧
      String.join ((d.onset settings diagnostics).run Client.library N).texts.reverse = text := by
  obtain ⟨N, hends, hout⟩ := h
  refine ⟨N, ?_, ?_⟩
  · rw [run_onset hends]
    exact hends
  · rw [run_onset hends, ← stdout_eq, hout]

end Demo

section Independence

variable {settings : SettingsSlot} {diagnostics : Bool} {ds : List Demo} {written : Demo → String}

/-- Before and after each demonstration, the process is at rest, and has written what those demonstrations
write alone that came before. -/
theorem exists_rested (halone : ∀ d ∈ ds, Writes settings diagnostics [d] (written d))
    (hword : ∀ n, retiredLabel ≤
      ((process settings ds diagnostics).run Client.library n).chain.nextLabel)
    {before after : List Demo} (h : before ++ after = ds) :
    ∃ n, ((process settings ds diagnostics).run Client.library n).Rested ∧
      ((process settings ds diagnostics).run Client.library n).Evaluates
        (CommandLine.code after diagnostics) ∧
      String.join ((process settings ds diagnostics).run Client.library n).texts.reverse =
        String.join (before.map written) := by
  induction before using List.reverseRecOn generalizing after with
  | nil =>
    obtain rfl : after = ds := h
    exact ⟨0, (Machine.fresh_start settings _).toRested, ⟨rfl, rfl⟩, rfl⟩
  | append_singleton before d ih =>
    have hds : before ++ d :: after = ds := by rw [← h, List.append_assoc]; rfl
    obtain ⟨n, hrested, hat, hout⟩ := ih hds
    obtain ⟨N, hends, htext⟩ := Demo.exists_onset_of_writes (halone d (by simp [← h]))
    obtain ⟨n', hrested', hat', htexts⟩ := Demo.exists_next hends hrested hat hword
    refine ⟨n', hrested', hat', ?_⟩
    rw [htexts, List.reverse_append, String.join_append, hout, htext, List.map_append,
      String.join_append]
    simp

/-- Demonstrations that end normally alone also do one after the other, and then a process writes to
standard output what they write alone, in order. After each of them the chain has its bottom only, no tail
resume waits, the queues are empty, and the transcript is as it was. Only a process that runs out of labels
is left out. -/
theorem demonstrations_are_independent
    (halone : ∀ d ∈ ds, Writes settings diagnostics [d] (written d))
    (hword : ∀ n, retiredLabel ≤
      ((process settings ds diagnostics).run Client.library n).chain.nextLabel) :
    Writes settings diagnostics ds (String.join (ds.map written)) ∧
      ∀ before after, before ++ after = ds →
        ∃ n, Between ((process settings ds diagnostics).run Client.library n) after diagnostics ∧
          (CommandLine.Result.ofMachine
            ((process settings ds diagnostics).run Client.library n)).stdout =
              String.join (before.map written) := by
  refine ⟨?_, fun before after h => ?_⟩
  · obtain ⟨n, hrested, hat, hout⟩ := exists_rested halone hword (List.append_nil ds)
    obtain ⟨k, hends, htexts, -⟩ := Machine.exists_run_ended (Γ := Client.library) hat hrested.stack
      hrested.resumers
    rw [← Machine.run_add] at hends htexts
    exact ⟨n + k, hends, by rw [stdout_eq, htexts, hout]⟩
  · obtain ⟨n, hrested, hat, hout⟩ := exists_rested halone hword h
    exact ⟨n, hrested.between hat, by rw [stdout_eq, hout]⟩

/-- A process that ends has not run out of labels, unless it took very long. -/
theorem retiredLabel_le_of_ends {m : Machine Content} {N : Nat}
    (hm : m = process settings ds diagnostics) (h : (m.run Client.library N).Finished)
    (hN : N < 9223372036854775808) (n : Nat) :
    retiredLabel ≤ (m.run Client.library n).chain.nextLabel := by
  subst hm
  rcases Nat.le_total n N with hle | hle
  · exact Machine.retiredLabel_le_nextLabel _ _ _ _ (by omega)
  · obtain ⟨k, rfl⟩ := Nat.exists_eq_add_of_le hle
    obtain ⟨⟨v, hv⟩, hreleasing⟩ := h
    rw [Machine.run_add, Machine.run_halted hv hreleasing]
    exact Machine.retiredLabel_le_nextLabel _ _ _ _ hN

end Independence

/-- What two of the demonstrations write. -/
def spoken : Demo → String
  | .shift => "--- shift0 ---\nIt is not true that 2 + 2 = 5\n"
  | _ => "--- exceptions ---\n120\n0\n"

/-- One demonstration runs after another one. -/
theorem demonstrations_are_independent_two :
    Writes {} false [.exceptions, .shift] (String.join ([.exceptions, .shift].map spoken)) := by
  refine (demonstrations_are_independent (fun d hd => ?_) (retiredLabel_le_of_ends rfl (N := 99)
    ⟨⟨.unit, rfl⟩, rfl⟩ (by decide))).1
  simp only [List.mem_cons, List.not_mem_nil, or_false] at hd
  rcases hd with rfl | rfl
  · exact ⟨49, ⟨⟨_, rfl⟩, rfl⟩, by decide +kernel⟩
  · exact ⟨52, ⟨⟨_, rfl⟩, rfl⟩, by decide +kernel⟩

end EffectHandlers
