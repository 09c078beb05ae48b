import EffectHandlers.Proofs.Awaiting
/-!
# Evaluations keep agendas

What an evaluation looks like while it does what an agenda says. The cells hold the queue, the random
choices and the futures. Each parked computation has a resumption: of its body, where it has not
started, and otherwise of the code in which it gave up control, below which its installation
stands. Under the code that runs there is a shell, which only passes answers on.
-/

namespace EffectHandlers

/-! ### Random picks -/

namespace Draws

theorem next_lt (d : Draws) : d.next.1 < Word.count := by
  have hword : ∀ w : UInt32, w.toNat < 4294967296 := fun w => w.toNat_lt
  simp only [next, Word.count, ChaCha.wordCount]
  have hlow := hword ((ChaCha.block 6 d.key (d.position / 8)).getD (d.position % 8 * 2) 0)
  have hhigh := hword ((ChaCha.block 6 d.key (d.position / 8)).getD (d.position % 8 * 2 + 1) 0)
  omega

theorem index_lt {bound : Nat} (h : 0 < bound) (tries : Nat) (d : Draws) :
    (index bound tries d).1 < bound := by
  induction tries generalizing d with
  | zero => exact h
  | succ tries ih =>
    simp only [index]
    split
    · have hcount : 0 < Word.count := by decide
      refine (Nat.div_lt_iff_lt_mul hcount).mpr ?_
      rw [Nat.mul_comm bound]
      exact Nat.mul_lt_mul_of_pos_right (next_lt d) h
    · exact ih _

end Draws

namespace Promise

open Evaluation (Leads Turns)

/-- The picks of a seed. -/
def Chooser.random : Chooser where
  State := Draws
  choose := Draws.below
  lt d hn := Draws.index_lt hn _ d

variable {Γ : Library Content} {χ : Chooser} {P : Store Content → Prop} {i j : Nat} {a b : Job Γ}
  {s : Evaluation Content} {main : CellId} {ρ ρ' : Nat → ResumptionId}
  {ids : Nat → InstallationId} {f : Job Γ → Job Γ}

/-! ### Code -/

namespace Progress

/-- What a computation does that has control. -/
def task : Progress Γ → Task Value
  | acting b _ => b.toTask
  | awaiting future next _ => do (next (← Promise.value future)).toTask
  | _ => pure .unit

/-- The frames of a computation above its installation. -/
def frames : Progress Γ → List (Frame Content)
  | acting _ blocks | awaiting _ _ blocks => blocks.map (Block.frame Routine.toTask)
  | _ => []

theorem frames_code (p : Progress Γ) : ∀ f ∈ p.frames, f.isCode = true := by
  cases p with
  | acting _ blocks | awaiting _ _ blocks => exact Block.frame_code _ blocks
  | fresh | ended => exact fun f hf => absurd hf List.not_mem_nil

end Progress

/-- What the result of a run tells about the result of the main computation. -/
def report : Option Value → Value
  | some v => .present v
  | none => .absent

/-- What `run` does once its handler has answered. -/
def reportTask (main : CellId) : Task Value := do
  match ← value main with
  | some v => return .present v
  | none => return .absent

theorem reportTask_eq (main : CellId) :
    (reportTask main).toComp = readFuture main fun x => .done (report x.value) := by
  refine congrArg (readFuture main) (funext fun x => ?_)
  obtain ⟨v, waiting⟩ := x
  cases v <;> rfl

/-- Frames that pass an answer on, until it is reported how the main computation has ended. -/
inductive Shell (main : CellId) : List (Frame Content) → Prop
  | base : Shell main [.bind fun _ => (reportTask main).toComp, .bind .done]
  | pass {F} (h : Shell main F) : Shell main (.bind .done :: F)
  | drop {F} (h : Shell main F) : Shell main (.bind (fun _ => .done .unit) :: F)
  | answer {F} (h : Shell main F) : Shell main (.answering "()" :: F)

/-! ### What is stored -/

/-- The future of a computation. -/
def Job.shown (ρ : Nat → ResumptionId) (a : Job Γ) : Future where
  value := a.progress.value?
  waiting := a.waiters.map ρ

namespace Agenda

/-- The future of a computation, which is behind where it has just ended. -/
def shown (r : Agenda Γ χ) (ρ : Nat → ResumptionId) (i : Nat) (a : Job Γ) : Future :=
  match r.phase with
  | .settling j waiters => if j = i then { waiting := waiters.map ρ } else a.shown ρ
  | _ => a.shown ρ

/-- What is to be seen of an agenda in the contents of cells, as far as the cells are there, where
these are the resumptions of the parked computations. -/
structure Shows (r : Agenda Γ χ) (ρ : Nat → ResumptionId) (contents : CellId → Option Content) :
    Prop where
  distinct : (r.places.map ρ).Nodup
  queue : ∀ x, contents Promise.queue = some x → x = .list (r.queue.map fun i => .resumption (ρ i))
  futures : ∀ (i : Nat) (a : Job Γ), r.jobs[i]? = some a →
    ∀ x, contents a.future = some x → x = .future (r.shown ρ i a)

/-- Contents of cells show an agenda. -/
def Visible (r : Agenda Γ χ) (contents : CellId → Option Content) : Prop :=
  ∃ ρ, r.Shows ρ contents

/-- Cells show an agenda, as far as they are there. -/
def Shown (r : Agenda Γ χ) (cells : Store Content) : Prop := r.Visible cells.find?

/-- The cells of the queue, of the choices and of the futures. -/
structure Stored (r : Agenda Γ .random) (ρ : Nat → ResumptionId) (cells : Store Content) : Prop where
  queue : cells.find? Promise.queue = some (.list (r.queue.map fun i => .resumption (ρ i)))
  choices : cells.find? Promise.choices = some (.draws (some r.choices))
  futures : ∀ (i : Nat) (a : Job Γ), r.jobs[i]? = some a →
    cells.find? a.future = some (.future (r.shown ρ i a))
  above : ∀ (i : Nat) (a : Job Γ), r.jobs[i]? = some a → Promise.choices < a.future
  next : cells.next = r.nextCell
  wellFormed : cells.WellFormed

/-- The handler of a computation that has started. -/
def Homed (s : Evaluation Content) (id : InstallationId) (a : Job Γ) : Prop :=
  ∃ (label : Int) (result : Known Γ) (home : CellId),
    s.installed.find? id = some ⟨label, handlerName result.1, handlerName result.1, home⟩ ∧
      s.cells.find? home = some (.value (.cell a.future)) ∧ Promise.choices < home

/-- The continuation of a parked computation. -/
def Stands (a : Job Γ) (id : InstallationId) (k : Continuation Content) : Prop :=
  match a.progress with
  | .fresh b => ∃ (result : Known Γ) (owned : List Owned),
      k = .function "()" fun _ => (runInto result.1 a.future owned b.toTask).toComp
  | .ended _ => False
  | p => k = .context "()" (.bind (fun _ => p.task.toComp) :: (p.frames ++ [.handling id]))

/-- The resumptions of the parked computations, and the handlers of all that have started. -/
structure Rests (r : Agenda Γ χ) (s : Evaluation Content) (ρ : Nat → ResumptionId)
    (ids : Nat → InstallationId) : Prop where
  parked : ∀ i ∈ r.places, ∀ a, r.jobs[i]? = some a →
    ∃ k, s.resumptions.find? (ρ i) = some k ∧ Stands a (ids i) k
  issued : ∀ i ∈ r.places, ρ i < s.resumptions.next
  distinct : (r.places.map ρ).Nodup
  homed : ∀ (i : Nat) (a : Job Γ), r.jobs[i]? = some a → a.progress.isStarted = true →
    Homed s (ids i) a
  resumptions : s.resumptions.WellFormed
  installed : s.installed.WellFormed

/-- What an evaluation that enacts an agenda has stored. -/
structure Keeps (main : CellId) (r : Agenda Γ .random) (s : Evaluation Content)
    (ρ : Nat → ResumptionId) (ids : Nat → InstallationId) : Prop where
  stored : r.Stored ρ s.cells
  rests : r.Rests s ρ ids
  first : (r.jobs[0]?).map Job.future = some main
  pending : s.pending = none

/-- The computation with this number has control, above this shell. -/
structure Controls (main : CellId) (r : Agenda Γ .random) (s : Evaluation Content) (i : Nat)
    (a : Job Γ) : Prop where
  member : r.jobs[i]? = some a
  keeps : ∃ ρ ids F, r.Keeps main s ρ ids ∧
    s.frames = a.progress.frames ++ .handling (ids i) :: F ∧ Shell main F

/-- A clause or a return clause runs, above a shell. -/
def Answers (main : CellId) (r : Agenda Γ .random) (s : Evaluation Content) : Prop :=
  ∃ ρ ids F, r.Keeps main s ρ ids ∧ s.frames = .answering "()" :: F ∧ Shell main F

/-- What is left to do when the waiters of a computation are in the queue. -/
def settle (future : CellId) (v : Value) : Task Value := do
  writeFuture future { value := some v }
  wakeRandom
  return .unit

/-- Let a computation of the queue go on, and answer. -/
def wakeTask : Task Value := do
  wakeRandom
  return .unit

/-- An evaluation enacts an agenda. -/
inductive Enacted (main : CellId) (r : Agenda Γ .random) (s : Evaluation Content) : Prop
  | running {i : Nat} {a : Job Γ} (hphase : r.phase = .running i) (h : r.Controls main s i a)
      (hs : s.phase = .eval a.progress.task.toComp)
  | settling {i : Nat} {waiters : List Nat} {a : Job Γ} {v : Value}
      (hphase : r.phase = .settling i waiters) (ha : r.jobs[i]? = some a)
      (hv : a.progress = .ended v) (h : r.Answers main s)
      (hs : s.phase = .eval (settle a.future v).toComp)
  | waking (hphase : r.phase = .waking) (h : r.Answers main s)
      (hs : s.phase = .eval wakeTask.toComp)
  | ending (hphase : r.phase = .ending) (h : r.Answers main s) (hs : s.phase = .eval (.done .unit))
  | finished (hphase : r.phase = .finished) (h : r.Shown s.cells)
      (hs : s.phase = .finished (report r.result?))

/-! ### Cells -/

theorem shown_of_phase {r : Agenda Γ χ} (h : ∀ i waiters, r.phase ≠ .settling i waiters) (i : Nat)
    (a : Job Γ) : r.shown ρ i a = a.shown ρ := by
  unfold shown
  split
  · exact absurd ‹_› (h _ _)
  · rfl

theorem shown_of_settling {r : Agenda Γ χ} {k : Nat} {waiters : List Nat}
    (h : r.phase = .settling k waiters) (i : Nat) (a : Job Γ) :
    r.shown ρ i a = if k = i then { waiting := waiters.map ρ } else a.shown ρ := by
  simp only [shown, h]

theorem Keeps.shown {r : Agenda Γ .random} (h : r.Keeps main s ρ ids) : r.Shown s.cells :=
  ⟨ρ, h.rests.distinct, fun _ hx => Option.some.inj (hx.symm.trans h.stored.queue),
    fun i a ha _ hx => Option.some.inj (hx.symm.trans (h.stored.futures i a ha))⟩

theorem Shown.of_nextCell {r : Agenda Γ χ} {cells : Store Content} (h : r.Shown cells) (n : CellId) :
    ({ r with nextCell := n } : Agenda Γ χ).Shown cells := by
  obtain ⟨ρ, hshows⟩ := h
  exact ⟨ρ, { hshows with }⟩

/-- What is not to be seen may change. -/
theorem Shown.of_find? {r : Agenda Γ χ} {cells cells' : Store Content} (h : r.Shown cells)
    (hqueue : cells'.find? Promise.queue = cells.find? Promise.queue)
    (hfutures : ∀ (i : Nat) (a : Job Γ), r.jobs[i]? = some a →
      cells'.find? a.future = cells.find? a.future) : r.Shown cells' := by
  obtain ⟨ρ, hshows⟩ := h
  exact ⟨ρ, hshows.distinct, hqueue ▸ hshows.queue, fun i a ha => hfutures i a ha ▸
    hshows.futures i a ha⟩

namespace Stored

variable {r r' : Agenda Γ .random} {cells : Store Content}

/-- Computations may go on as long as this does not show. -/
theorem congr (h : r.Stored ρ cells)
    (hqueue : r'.queue.map (fun i => Value.resumption (ρ' i)) =
      r.queue.map fun i => Value.resumption (ρ i))
    (hchoices : r'.choices = r.choices) (hnext : r'.nextCell = r.nextCell)
    (hjobs : ∀ (j : Nat) (b : Job Γ), r'.jobs[j]? = some b → ∃ c, r.jobs[j]? = some c ∧
      b.future = c.future ∧ r'.shown ρ' j b = r.shown ρ j c) : r'.Stored ρ' cells where
  queue := by rw [hqueue]; exact h.queue
  choices := by rw [hchoices]; exact h.choices
  futures j b hb := by
    obtain ⟨c, hc, hfuture, hshown⟩ := hjobs j b hb
    rw [hfuture, hshown]
    exact h.futures j c hc
  above j b hb := by
    obtain ⟨c, hc, hfuture, -⟩ := hjobs j b hb
    rw [hfuture]
    exact h.above j c hc
  next := h.next.trans hnext.symm
  wellFormed := h.wellFormed

/-- Cells other than those of an agenda may change. -/
theorem modify {c : CellId} {g : Content → Content} (h : r.Stored ρ cells)
    (hc : c ≠ Promise.queue ∧ c ≠ Promise.choices)
    (hother : ∀ (j : Nat) (b : Job Γ), r.jobs[j]? = some b → b.future ≠ c) :
    r.Stored ρ (cells.modify c g) where
  queue := by rw [Store.find?_modify, if_neg (Ne.symm hc.1)]; exact h.queue
  choices := by rw [Store.find?_modify, if_neg (Ne.symm hc.2)]; exact h.choices
  futures j b hb := by
    rw [Store.find?_modify, if_neg (hother j b hb)]
    exact h.futures j b hb
  above := h.above
  next := h.next
  wellFormed := Store.wellFormed_modify h.wellFormed _ _

theorem future_ne (h : r.Stored ρ cells) (hb : r.jobs[j]? = some b) {c : CellId}
    (hc : c ≤ Promise.choices) : b.future ≠ c :=
  fun heq => Nat.lt_irrefl _ ((heq ▸ h.above j b hb).trans_le hc)

theorem writeQueue (h : r.Stored ρ cells) (hchoices : r'.choices = r.choices)
    (hnext : r'.nextCell = r.nextCell)
    (hjobs : ∀ (j : Nat) (b : Job Γ), r'.jobs[j]? = some b → ∃ c, r.jobs[j]? = some c ∧
      b.future = c.future ∧ r'.shown ρ' j b = r.shown ρ j c) :
    r'.Stored ρ' (cells.modify Promise.queue fun _ =>
      .list (r'.queue.map fun i => .resumption (ρ' i))) where
  queue := by rw [Store.find?_modify, if_pos rfl, h.queue]; rfl
  choices := by
    rw [Store.find?_modify, if_neg (by decide), hchoices]
    exact h.choices
  futures j b hb := by
    obtain ⟨c, hc, hfuture, hshown⟩ := hjobs j b hb
    rw [Store.find?_modify, hfuture, if_neg (h.future_ne hc (by decide)), hshown]
    exact h.futures j c hc
  above j b hb := by
    obtain ⟨c, hc, hfuture, -⟩ := hjobs j b hb
    rw [hfuture]
    exact h.above j c hc
  next := h.next.trans hnext.symm
  wellFormed := Store.wellFormed_modify h.wellFormed _ _

theorem writeChoices (h : r.Stored ρ cells) (d : Draws) :
    ({ r with choices := d } : Agenda Γ .random).Stored ρ
      (cells.modify Promise.choices fun _ => .draws (some d)) where
  queue := by rw [Store.find?_modify, if_neg (by decide)]; exact h.queue
  choices := by rw [Store.find?_modify, if_pos rfl, h.choices]; rfl
  futures j b hb := by
    rw [Store.find?_modify, if_neg (h.future_ne hb (by decide))]
    exact h.futures j b hb
  above := h.above
  next := h.next
  wellFormed := Store.wellFormed_modify h.wellFormed _ _

theorem writeFuture {x : Future} (h : r.Stored ρ cells) (hnodup : (r.jobs.map Job.future).Nodup)
    (ha : r.jobs[i]? = some a)
    (hqueue : r'.queue.map (fun i => Value.resumption (ρ' i)) =
      r.queue.map fun i => Value.resumption (ρ i))
    (hchoices : r'.choices = r.choices) (hnext : r'.nextCell = r.nextCell)
    (hjobs : ∀ (j : Nat) (b : Job Γ), r'.jobs[j]? = some b → ∃ c, r.jobs[j]? = some c ∧
      b.future = c.future ∧ r'.shown ρ' j b = if j = i then x else r.shown ρ j c) :
    r'.Stored ρ' (cells.modify a.future fun _ => .future x) where
  queue := by
    rw [Store.find?_modify, if_neg (Ne.symm (h.future_ne ha (by decide))), hqueue]
    exact h.queue
  choices := by
    rw [Store.find?_modify, if_neg (Ne.symm (h.future_ne ha (Nat.le_refl _))), hchoices]
    exact h.choices
  futures j b hb := by
    obtain ⟨c, hc, hfuture, hshown⟩ := hjobs j b hb
    rw [Store.find?_modify, hfuture, hshown]
    by_cases hj : j = i
    · subst hj
      obtain rfl := Option.some.inj (ha.symm.trans hc)
      rw [if_pos rfl, if_pos rfl, h.futures _ _ ha]
      rfl
    · have hne : c.future ≠ a.future := fun heq => hj (Option.some.inj
        ((seat?_future hnodup hc).symm.trans (heq ▸ seat?_future hnodup ha)))
      rw [if_neg hne, if_neg hj]
      exact h.futures j c hc
  above j b hb := by
    obtain ⟨c, hc, hfuture, -⟩ := hjobs j b hb
    rw [hfuture]
    exact h.above j c hc
  next := h.next.trans hnext.symm
  wellFormed := Store.wellFormed_modify h.wellFormed _ _

theorem find?_insert {c : CellId} {x y : Content} (h : cells.WellFormed)
    (hx : cells.find? c = some x) : (cells.insert y).2.find? c = some x := by
  rw [Store.find?_insert, if_neg (Nat.ne_of_lt (Store.lt_next h hx))]
  exact hx

/-- A new cell is none of an agenda's. -/
theorem alloc (h : r.Stored ρ cells) (x : Content) :
    ({ r with nextCell := r.nextCell + 1 } : Agenda Γ .random).Stored ρ (cells.insert x).2 where
  queue := find?_insert h.wellFormed h.queue
  choices := find?_insert h.wellFormed h.choices
  futures j b hb := find?_insert h.wellFormed (h.futures j b hb)
  above := h.above
  next := congrArg (· + 1) h.next
  wellFormed := Store.wellFormed_insert h.wellFormed _

/-- A new cell is the future of a new computation. -/
theorem grow {body : Routine Γ} (h : r.Stored ρ cells) (hphase : ∀ i ws, r.phase ≠ .settling i ws)
    (habove : Promise.choices < r.nextCell) :
    ({ r with
      jobs := r.jobs ++ [{ future := r.nextCell, progress := .fresh body }]
      nextCell := r.nextCell + 1 } : Agenda Γ .random).Stored ρ (cells.insert (.future {})).2 where
  queue := find?_insert h.wellFormed h.queue
  choices := find?_insert h.wellFormed h.choices
  futures j b hb := by
    rcases of_getElem?_append hb with hb | ⟨rfl, rfl⟩
    · exact find?_insert h.wellFormed (h.futures j b hb)
    · rw [shown_of_phase (by exact hphase), ← h.next]
      exact Store.find?_insert_self ..
  above j b hb := by
    rcases of_getElem?_append hb with hb | ⟨-, rfl⟩
    · exact h.above j b hb
    · exact habove
  next := congrArg (· + 1) h.next
  wellFormed := Store.wellFormed_insert h.wellFormed _

end Stored

/-! ### Continuations -/

/-- No value is overwritten outside of the cells of the thread. -/
def Preserves (cells cells' : Store Content) : Prop :=
  ∀ c v, Promise.choices < c → cells.find? c = some (.value v) → cells'.find? c = some (.value v)

theorem preserves_insert {cells : Store Content} (h : cells.WellFormed) (x : Content) :
    Preserves cells (cells.insert x).2 := fun _ _ _ hc => Stored.find?_insert h hc

theorem preserves_modify {cells : Store Content} {c : CellId} {g : Content → Content}
    (h : c ≤ Promise.choices ∨ ∃ x, cells.find? c = some (.future x)) :
    Preserves cells (cells.modify c g) := by
  intro c' v hc' hv
  have hne : c' ≠ c := by
    rintro rfl
    rcases h with h | ⟨x, hx⟩
    · exact Nat.lt_irrefl _ (hc'.trans_le h)
    · rw [hx] at hv
      cases hv
  rw [Store.find?_modify, if_neg hne]
  exact hv

theorem Homed.mono {id : InstallationId} {s' : Evaluation Content} (h : Homed s id a)
    (hfuture : b.future = a.future) (hcells : Preserves s.cells s'.cells)
    (hinstalled : ∀ x, s.installed.find? id = some x →
      ∃ label, s'.installed.find? id = some { x with label }) : Homed s' id b := by
  obtain ⟨label, result, home, hid, hhome, habove⟩ := h
  obtain ⟨label', hid'⟩ := hinstalled _ hid
  exact ⟨label', result, home, hid', hfuture ▸ hcells _ _ habove hhome, habove⟩

theorem stands_congr {id : InstallationId} {k : Continuation Content} (h : Stands a id k)
    (hprogress : b.progress = a.progress) (hfuture : b.future = a.future) : Stands b id k := by
  unfold Stands at h ⊢
  rw [hprogress, hfuture]
  exact h

theorem stands_iff {id : InstallationId} {k : Continuation Content}
    (hstarted : a.progress.isStarted = true) : Stands a id k ↔ k = .context "()"
      (.bind (fun _ => a.progress.task.toComp) :: (a.progress.frames ++ [.handling id])) := by
  unfold Stands
  cases hp : a.progress with
  | acting | awaiting => exact Iff.rfl
  | fresh | ended =>
    rw [hp] at hstarted
    cases hstarted

namespace Rests

variable {r r' : Agenda Γ χ} {s' : Evaluation Content}

/-- Everything else may change in an evaluation, and labels of handlers. -/
theorem keep (h : r.Rests s ρ ids) (hcells : Preserves s.cells s'.cells)
    (hresumptions : ∀ i ∈ r.places, s'.resumptions.find? (ρ i) = s.resumptions.find? (ρ i))
    (hnext : s.resumptions.next ≤ s'.resumptions.next) (hwf : s'.resumptions.WellFormed)
    (hinstalled : ∀ id x, s.installed.find? id = some x →
      ∃ label, s'.installed.find? id = some { x with label })
    (hwf' : s'.installed.WellFormed) : r.Rests s' ρ ids :=
  { h with
    parked := fun i hi a ha => by
      rw [hresumptions i hi]
      exact h.parked i hi a ha
    issued := fun i hi => (h.issued i hi).trans_le hnext
    homed := fun i a ha hstarted => (h.homed i a ha hstarted).mono rfl hcells (hinstalled _)
    resumptions := hwf
    installed := hwf' }

/-- Cells may change as long as no handler loses its future. -/
theorem keep_cells (h : r.Rests s ρ ids) {cells : Store Content} (hcells : Preserves s.cells cells) :
    r.Rests { s with cells } ρ ids :=
  h.keep hcells (fun _ _ => rfl) (Nat.le_refl _) h.resumptions (fun _ x hx => ⟨x.label, hx⟩)
    h.installed

/-- Resumptions may come and go that belong to none of the parked computations. -/
theorem keep_resumptions (h : r.Rests s ρ ids) {resumptions : Store (Continuation Content)}
    (hsame : ∀ i ∈ r.places, resumptions.find? (ρ i) = s.resumptions.find? (ρ i))
    (hnext : s.resumptions.next ≤ resumptions.next) (hwf : resumptions.WellFormed) :
    r.Rests { s with resumptions } ρ ids :=
  h.keep (fun _ _ _ hv => hv) hsame hnext hwf (fun _ x hx => ⟨x.label, hx⟩) h.installed

/-- Computations that are not parked may change, and parked ones may leave. -/
theorem congr (h : r.Rests s ρ ids) (left : List Nat) (hperm : r.places.Perm (left ++ r'.places))
    (hparked : ∀ i ∈ r'.places, ∀ a, r'.jobs[i]? = some a →
      ∃ b, r.jobs[i]? = some b ∧ a.progress = b.progress ∧ a.future = b.future)
    (hstarted : ∀ (i : Nat) (a : Job Γ), r'.jobs[i]? = some a → a.progress.isStarted = true →
      ∃ b, r.jobs[i]? = some b ∧ b.progress.isStarted = true ∧ a.future = b.future) :
    r'.Rests s ρ ids := by
  have hmem : ∀ i ∈ r'.places, i ∈ r.places := fun i hi =>
    hperm.mem_iff.mpr (List.mem_append_right _ hi)
  refine { h with
    parked := fun i hi a ha => ?_
    issued := fun i hi => h.issued i (hmem i hi)
    distinct := ?_
    homed := fun i a ha hstart => ?_ }
  · obtain ⟨b, hb, hprogress, hfuture⟩ := hparked i hi a ha
    obtain ⟨k, hk, hstands⟩ := h.parked i (hmem i hi) b hb
    exact ⟨k, hk, stands_congr hstands hprogress hfuture⟩
  · have hdistinct := (hperm.map ρ).nodup_iff.mp h.distinct
    rw [List.map_append] at hdistinct
    exact (List.nodup_append.mp hdistinct).2.1
  · obtain ⟨b, hb, hstart', hfuture⟩ := hstarted i a ha hstart
    exact (h.homed i b hb hstart').mono hfuture (fun _ _ _ hv => hv) fun x hx => ⟨x.label, hx⟩

/-- A computation is parked, with a resumption of its own. -/
theorem park {k : Continuation Content} {id : ResumptionId} (h : r.Rests s ρ ids)
    (r' : Agenda Γ χ) (hi : i ∉ r.places) (hperm : r'.places.Perm (i :: r.places)) (ha : r.jobs[i]? = some a)
    (hk : Stands a (ids i) k) (hid : s.resumptions.find? id = some k)
    (hnew : ∀ j ∈ r.places, ρ j ≠ id)
    (hjobs : ∀ (j : Nat) (b : Job Γ), r'.jobs[j]? = some b →
      ∃ c, r.jobs[j]? = some c ∧ b.progress = c.progress ∧ b.future = c.future) :
    r'.Rests s (Function.update ρ i id) ids := by
  have hothers : ∀ j ∈ r.places, Function.update ρ i id j = ρ j := fun j hj =>
    Function.update_of_ne (fun heq : j = i => hi (heq ▸ hj)) ..
  refine { h with
    parked := fun j hj b hb => ?_
    issued := fun j hj => ?_
    distinct := ?_
    homed := fun j b hb hstarted => ?_ }
  · obtain ⟨c, hc, hprogress, hfuture⟩ := hjobs j b hb
    rcases List.mem_cons.mp (hperm.mem_iff.mp hj) with rfl | hj
    · obtain rfl := Option.some.inj (ha.symm.trans hc)
      exact ⟨k, by rw [Function.update_self]; exact hid, stands_congr hk hprogress hfuture⟩
    · obtain ⟨k', hk', hstands⟩ := h.parked j hj c hc
      exact ⟨k', by rw [hothers j hj]; exact hk', stands_congr hstands hprogress hfuture⟩
  · rcases List.mem_cons.mp (hperm.mem_iff.mp hj) with rfl | hj
    · rw [Function.update_self]
      exact Store.lt_next h.resumptions hid
    · rw [hothers j hj]
      exact h.issued j hj
  · have hmap : r.places.map (Function.update ρ i id) = r.places.map ρ :=
      List.map_congr_left hothers
    rw [(hperm.map _).nodup_iff, List.map_cons, Function.update_self, hmap, List.nodup_cons]
    refine ⟨fun hmem => ?_, h.distinct⟩
    obtain ⟨j, hj, heq⟩ := List.mem_map.mp hmem
    exact hnew j hj heq
  · obtain ⟨c, hc, hprogress, hfuture⟩ := hjobs j b hb
    rw [hprogress] at hstarted
    exact (h.homed j c hc hstarted).mono hfuture (fun _ _ _ hv => hv) fun x hx => ⟨x.label, hx⟩

/-- A computation that was parked goes on, and its resumption is used up. -/
theorem unpark {k : Nat} {c : χ.State} {n : CellId} {φ : Phase} (h : r.Rests s ρ ids)
    (hk : r.queue[k]? = some j) :
    ({ r with queue := r.queue.eraseIdx k, choices := c, nextCell := n, phase := φ } :
      Agenda Γ χ).Rests { s with resumptions := s.resumptions.erase (ρ j) } ρ ids := by
  have hperm : r.places.Perm ([j] ++ (r.queue.eraseIdx k ++ r.jobs.flatMap Job.waiters)) := by
    obtain ⟨hlt, rfl⟩ := List.getElem?_eq_some_iff.mp hk
    exact (List.getElem_cons_eraseIdx_perm hlt).symm.append_right _
  have hrests : ({ r with
      queue := r.queue.eraseIdx k, choices := c, nextCell := n, phase := φ } : Agenda Γ χ).Rests s ρ
        ids := h.congr _ hperm (fun i _ a ha => ⟨a, ha, rfl, rfl⟩) fun i a ha hstarted =>
      ⟨a, ha, hstarted, rfl⟩
  refine hrests.keep_resumptions (fun i hi => ?_) (Nat.le_refl _)
    (Store.wellFormed_erase h.resumptions _)
  have hdistinct := (hperm.map ρ).nodup_iff.mp h.distinct
  rw [List.singleton_append, List.map_cons, List.nodup_cons] at hdistinct
  rw [Store.find?_erase h.resumptions, if_neg]
  intro heq
  exact hdistinct.1 (heq ▸ List.mem_map_of_mem hi)

/-- A computation that had started goes on. -/
theorem goesOn (h : r.Rests s ρ ids) (hj : j ∉ r.places) (ha : r.jobs[j]? = some a)
    (hstarted : a.progress.isStarted = true) : (r.modify j Job.start).Rests s ρ ids := by
  have hplaces : (r.modify j Job.start).places = r.places := places_modify fun _ => Job.start_waiters
  refine h.congr [] (hplaces ▸ .refl _) (fun i hi b hb => ?_) fun i b hb hstart => ?_
  · rcases of_getElem?_modify hb with ⟨rfl, -⟩ | ⟨-, hb⟩
    · exact absurd (hplaces ▸ hi) hj
    · exact ⟨b, hb, rfl, rfl⟩
  · rcases of_getElem?_modify hb with ⟨rfl, c, hc, rfl⟩ | ⟨-, hb⟩
    · obtain rfl := Option.some.inj (ha.symm.trans hc)
      exact ⟨a, ha, hstarted, Job.start_future⟩
    · exact ⟨b, hb, hstart, rfl⟩

/-- A computation goes on under a new handler. -/
theorem start (h : r.Rests s ρ ids) (label : Int) (result : Known Γ) (hwf : s.cells.WellFormed)
    (habove : Promise.choices < s.cells.next) (hj : j ∉ r.places) (ha : r.jobs[j]? = some a) :
    (r.modify j Job.start).Rests { s with
        cells := (s.cells.insert (.value (.cell a.future))).2
        installed := (s.installed.insert
          ⟨label, handlerName result.1, handlerName result.1, s.cells.next⟩).2 } ρ
      (Function.update ids j s.installed.next) := by
  have hplaces : (r.modify j Job.start).places = r.places := places_modify fun _ => Job.start_waiters
  have hothers : ∀ {i}, i ≠ j → Function.update ids j s.installed.next i = ids i :=
    fun hne => Function.update_of_ne hne ..
  refine { h with
    parked := fun i hi b hb => ?_
    issued := hplaces ▸ h.issued
    distinct := hplaces ▸ h.distinct
    homed := fun i b hb hstarted => ?_
    installed := Store.wellFormed_insert h.installed _ }
  · rw [hplaces] at hi
    have hne : i ≠ j := fun heq => hj (heq ▸ hi)
    rcases of_getElem?_modify hb with ⟨rfl, -⟩ | ⟨-, hb⟩
    · exact absurd rfl hne
    · rw [hothers hne]
      exact h.parked i hi b hb
  · rcases of_getElem?_modify hb with ⟨rfl, c, hc, rfl⟩ | ⟨hne, hb⟩
    · obtain rfl := Option.some.inj (ha.symm.trans hc)
      rw [Function.update_self]
      refine ⟨label, result, s.cells.next, Store.find?_insert_self .., ?_, habove⟩
      rw [Job.start_future]
      exact Store.find?_insert_self ..
    · rw [hothers (Ne.symm hne)]
      refine (h.homed i b hb hstarted).mono rfl (preserves_insert hwf _) fun x hx => ⟨x.label, ?_⟩
      rw [Store.find?_insert, if_neg (Nat.ne_of_lt (Store.lt_next h.installed hx))]
      exact hx

end Rests

end Agenda

end Promise

end EffectHandlers
